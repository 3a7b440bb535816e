import TreeImage.Bytes

/-!
# 32-bit words

Every number of an image is a 32-bit word of four bytes. Sizes and counts are natural numbers
until they are stored; `word?` stores one, and refuses it if it does not fit.
-/

namespace TreeImage

/-- The word for `n`, if there is one. -/
def word? (n : Nat) : Option UInt32 := if n < UInt32.size then some (UInt32.ofNat n) else none

theorem word?_eq_some_iff {n : Nat} {w : UInt32} : word? n = some w ↔ w.toNat = n := by
  have hw := w.toNat_lt
  unfold word?
  constructor
  · intro h
    split at h
    · cases h
      simp
      omega
    · cases h
  · intro h
    subst h
    simpa using hw

theorem word?_eq_none_iff {n : Nat} : word? n = none ↔ UInt32.size ≤ n := by
  simp [word?]

namespace Bytes

/-- The four bytes of a word. -/
def ofWord (w : UInt32) : Bytes := ofNat 4 w.toNat

/-- The word at position `start`. -/
def wordAt (start : Nat) (bs : Bytes) : UInt32 := UInt32.ofNat (toNat (slice start 4 bs))

/-- Four bytes hold every word and no other number. -/
theorem capacity_four : capacity 4 = UInt32.size := rfl

@[simp] theorem length_ofWord (w : UInt32) : (ofWord w).length = 4 := length_ofNat 4 _

theorem toNat_ofWord (w : UInt32) : toNat (ofWord w) = w.toNat := by
  rw [ofWord, toNat_ofNat, capacity_four]
  exact Nat.mod_eq_of_lt w.toNat_lt

/-- A word is read back where it was written. -/
theorem wordAt_append (front rest : Bytes) (w : UInt32) :
    wordAt front.length (front ++ (ofWord w ++ rest)) = w := by
  apply UInt32.toNat.inj
  have h : slice front.length 4 (front ++ (ofWord w ++ rest)) = ofWord w := by
    rw [slice, List.drop_left, List.take_append_of_le_length (by simp),
      List.take_of_length_le (by simp)]
  have hw := w.toNat_lt
  rw [wordAt, h, toNat_ofWord, UInt32.toNat_ofNat']
  omega

end Bytes

end TreeImage
