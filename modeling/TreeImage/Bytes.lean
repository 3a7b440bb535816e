/-!
# Byte strings and little-endian numbers

Every number in an image is little-endian: the least significant byte comes first.
`Bytes.ofNat` writes a number into a field of a given width and `Bytes.toNat` reads a field
of any width; on fields of one width they are inverse to each other.
-/

namespace TreeImage

abbrev Bytes := List UInt8

namespace Bytes

/-- The `width` low bytes of `n`, least significant first. -/
def ofNat : Nat → Nat → Bytes
  | 0, _ => []
  | width + 1, n => UInt8.ofNat n :: ofNat width (n / 256)

/-- The number whose bytes are given, least significant first. -/
def toNat : Bytes → Nat
  | [] => 0
  | b :: rest => b.toNat + 256 * toNat rest

/-- How many numbers there are for a field of the given width. -/
def capacity : Nat → Nat
  | 0 => 1
  | width + 1 => 256 * capacity width

/-- The `length` bytes from position `start` on, fewer where the text ends earlier. -/
def slice (start length : Nat) (bs : Bytes) : Bytes := (bs.drop start).take length

/-- The bytes before the first zero, all of them where there is none. -/
def untilZero (bs : Bytes) : Bytes := bs.takeWhile (· != 0)

@[simp] theorem length_ofNat (width n : Nat) : (ofNat width n).length = width := by
  induction width generalizing n with
  | zero => rfl
  | succ width ih => simp [ofNat, ih]

theorem toNat_lt (bs : Bytes) : toNat bs < capacity bs.length := by
  induction bs with
  | nil => simp [toNat, capacity]
  | cons b rest ih =>
    have hb := b.toNat_lt
    simp only [toNat, List.length_cons, capacity]
    omega

/-- Reading back a field gives the number modulo what the field can hold. -/
theorem toNat_ofNat (width n : Nat) : toNat (ofNat width n) = n % capacity width := by
  induction width generalizing n with
  | zero => simp [ofNat, toNat, capacity, Nat.mod_one]
  | succ width ih =>
    have low : (UInt8.ofNat n).toNat = n % 256 := by simp
    rw [ofNat, toNat, ih, low, capacity, Nat.mod_mul]

/-- A field is what is written for its number. -/
theorem ofNat_toNat (bs : Bytes) : ofNat bs.length (toNat bs) = bs := by
  induction bs with
  | nil => rfl
  | cons b rest ih =>
    have hb := b.toNat_lt
    have hdiv : (b.toNat + 256 * toNat rest) / 256 = toNat rest := by omega
    have hmod : UInt8.ofNat (b.toNat + 256 * toNat rest) = b := by
      apply UInt8.toNat.inj
      rw [UInt8.toNat_ofNat']
      omega
    simp [ofNat, toNat, hdiv, hmod, ih]

@[simp] theorem length_slice (start length : Nat) (bs : Bytes) :
    (slice start length bs).length = min length (bs.length - start) := by
  simp [slice]

end Bytes

end TreeImage
