import TreeImage.Text.Utf8

/-!
# Reading UTF-8 that was written

Each character is written as one to four bytes. The reader accepts them one after the other and ends
with that character, whatever follows. So reading what was written gives the text back.
-/

namespace TreeImage.Text

/-! ## One byte -/

theorem decodeLossy_single {b : UInt8} {c : Char} (h : Opening.ofByte b = .single c)
    (rest : Bytes) : decodeLossy none (b :: rest) = c :: decodeLossy none rest := by
  simp [decodeLossy, h]

theorem decodeLossy_open {b : UInt8} {u : Unfinished} (h : Opening.ofByte b = .sequence u)
    (rest : Bytes) : decodeLossy none (b :: rest) = decodeLossy (some u) rest := by
  simp [decodeLossy, h]

theorem decodeLossy_push {b : UInt8} {u v : Unfinished} (hu : u.accepts b = true)
    (h : u.push b = .sequence v) (rest : Bytes) :
    decodeLossy (some u) (b :: rest) = decodeLossy (some v) rest := by
  simp [decodeLossy, hu, h]

theorem decodeLossy_last {b : UInt8} {u : Unfinished} {c : Char} (hu : u.accepts b = true)
    (h : u.push b = .single c) (rest : Bytes) :
    decodeLossy (some u) (b :: rest) = c :: decodeLossy none rest := by
  simp [decodeLossy, hu, h]

/-! ## Continuation bytes

A continuation byte carries six bits, here the number `n`. -/

theorem toNat_continuation {n : Nat} (h : n < 64) : (UInt8.ofNat (n + 128)).toNat = n + 128 := by
  simp
  omega

theorem push_continuation (value least greatest more : Nat) {n : Nat} (h : n < 64) :
    Unfinished.push ⟨value, least, greatest, more + 1⟩ (UInt8.ofNat (n + 128)) =
      .sequence ⟨value * 64 + n, 0x80, 0xBF, more⟩ := by
  simp only [Unfinished.push, toNat_continuation h, Nat.add_sub_cancel]

theorem push_last (value least greatest : Nat) {n : Nat} (h : n < 64) :
    Unfinished.push ⟨value, least, greatest, 0⟩ (UInt8.ofNat (n + 128)) =
      .single (Char.ofNat (value * 64 + n)) := by
  simp only [Unfinished.push, toNat_continuation h, Nat.add_sub_cancel]

theorem accepts_continuation {u : Unfinished} {n : Nat} (h : n < 64)
    (hleast : u.least ≤ n + 128) (hgreatest : n + 128 ≤ u.greatest) :
    u.accepts (UInt8.ofNat (n + 128)) = true := by
  simp only [Unfinished.accepts, toNat_continuation h, Bool.and_eq_true, decide_eq_true_eq]
  omega

/-! ## First bytes -/

theorem ofByte_two {n : Nat} (hlow : 2 ≤ n) (hhigh : n < 32) :
    Opening.ofByte (UInt8.ofNat (n + 192)) = .sequence ⟨n, 0x80, 0xBF, 0⟩ := by
  have h : (UInt8.ofNat (n + 192)).toNat = n + 192 := by simp; omega
  simp only [Opening.ofByte, h]
  rw [if_neg (by omega), if_pos (by omega)]
  simp

/-- The second byte is in the range that the first one asks for: the character is not below U+0800
and is no surrogate. -/
theorem ofByte_three {n m : Nat} (hn : n < 16) (hm : m < 64) (hlow : n = 0 → 32 ≤ m)
    (hsurrogate : n = 13 → m < 32) :
    ∃ least greatest, Opening.ofByte (UInt8.ofNat (n + 224)) = .sequence ⟨n, least, greatest, 1⟩ ∧
      least ≤ m + 128 ∧ m + 128 ≤ greatest := by
  have h : (UInt8.ofNat (n + 224)).toNat = n + 224 := by simp; omega
  simp only [Opening.ofByte, h]
  rw [if_neg (by omega), if_neg (by omega)]
  by_cases hE0 : n = 0
  · exact ⟨0xA0, 0xBF, by rw [if_pos (by omega), hE0], by omega, by omega⟩
  rw [if_neg (by omega)]
  by_cases hED : n = 13
  · exact ⟨0x80, 0x9F, by rw [if_pos (by omega), hED], by omega, by omega⟩
  rw [if_neg (by omega), if_pos (by omega)]
  exact ⟨0x80, 0xBF, by simp, by omega, by omega⟩

/-- The second byte is in the range that the first one asks for: the character is not below U+10000
and not above U+10FFFF. -/
theorem ofByte_four {n m : Nat} (hn : n < 5) (hm : m < 64) (hlow : n = 0 → 16 ≤ m)
    (hhigh : n = 4 → m < 16) :
    ∃ least greatest, Opening.ofByte (UInt8.ofNat (n + 240)) = .sequence ⟨n, least, greatest, 2⟩ ∧
      least ≤ m + 128 ∧ m + 128 ≤ greatest := by
  have h : (UInt8.ofNat (n + 240)).toNat = n + 240 := by simp; omega
  simp only [Opening.ofByte, h]
  rw [if_neg (by omega), if_neg (by omega), if_neg (by omega), if_neg (by omega),
    if_neg (by omega)]
  by_cases hF0 : n = 0
  · exact ⟨0x90, 0xBF, by rw [if_pos (by omega), hF0], by omega, by omega⟩
  rw [if_neg (by omega)]
  by_cases hF4 : n = 4
  · exact ⟨0x80, 0x8F, by rw [if_neg (by omega), if_pos (by omega), hF4], by omega, by omega⟩
  rw [if_pos (by omega)]
  exact ⟨0x80, 0xBF, by simp, by omega, by omega⟩

/-! ## Characters and texts -/

/-- The bytes of a character are read as that character, whatever follows them. -/
theorem decodeLossy_encodeChar (c : Char) (rest : Bytes) :
    decodeLossy none (String.utf8EncodeChar c ++ rest) = c :: decodeLossy none rest := by
  have hc : Char.ofNat c.val.toNat = c := Char.ofNat_toNat c
  have hvalid : c.val.toNat < 0xD800 ∨ (0xDFFF < c.val.toNat ∧ c.val.toNat < 0x110000) := c.valid
  generalize hv : c.val.toNat = v at hc hvalid
  unfold String.utf8EncodeChar
  simp only [hv]
  split
  · apply decodeLossy_single
    have h : (UInt8.ofNat v).toNat = v := by simp; omega
    simp only [Opening.ofByte, h, hc]
    rw [if_pos (by omega)]
  split
  · rw [show v / 64 % 32 = v / 64 by omega]
    rw [List.cons_append, List.singleton_append,
      decodeLossy_open (ofByte_two (by omega) (by omega)),
      decodeLossy_last (accepts_continuation (by omega) (Nat.le_add_left _ _) (by simp; omega))
        (push_last _ _ _ (by omega)),
      show v / 64 * 64 + v % 64 = v by omega, hc]
  split
  · rw [show v / 4096 % 16 = v / 4096 by omega]
    obtain ⟨least, greatest, hopen, hleast, hgreatest⟩ :=
      ofByte_three (n := v / 4096) (m := v / 64 % 64) (by omega) (by omega) (by omega) (by omega)
    simp only [List.cons_append, List.nil_append]
    rw [decodeLossy_open hopen,
      decodeLossy_push (accepts_continuation (by omega) hleast hgreatest)
        (push_continuation _ _ _ _ (by omega)),
      decodeLossy_last (accepts_continuation (by omega) (Nat.le_add_left _ _) (by simp; omega))
        (push_last _ _ _ (by omega)),
      show (v / 4096 * 64 + v / 64 % 64) * 64 + v % 64 = v by omega, hc]
  · rw [show v / 262144 % 8 = v / 262144 by omega]
    obtain ⟨least, greatest, hopen, hleast, hgreatest⟩ :=
      ofByte_four (n := v / 262144) (m := v / 4096 % 64) (by omega) (by omega) (by omega)
        (by omega)
    simp only [List.cons_append, List.nil_append]
    rw [decodeLossy_open hopen,
      decodeLossy_push (accepts_continuation (by omega) hleast hgreatest)
        (push_continuation _ _ _ _ (by omega)),
      decodeLossy_push (accepts_continuation (by omega) (Nat.le_add_left _ _) (by simp; omega))
        (push_continuation _ _ _ _ (by omega)),
      decodeLossy_last (accepts_continuation (by omega) (Nat.le_add_left _ _) (by simp; omega))
        (push_last _ _ _ (by omega)),
      show ((v / 262144 * 64 + v / 4096 % 64) * 64 + v / 64 % 64) * 64 + v % 64 = v by omega, hc]

theorem decodeLossy_encode (cs : List Char) (rest : Bytes) :
    decodeLossy none (cs.flatMap String.utf8EncodeChar ++ rest) = cs ++ decodeLossy none rest := by
  induction cs with
  | nil => rfl
  | cons c cs ih => simp [List.append_assoc, decodeLossy_encodeChar, ih]

/-- Reading what was written gives the text back. -/
@[simp] theorem ofUtf8Lossy_utf8 (s : String) : ofUtf8Lossy (utf8 s) = s := by
  have h := decodeLossy_encode s.toList []
  simp only [List.append_nil, decodeLossy] at h
  simp [ofUtf8Lossy, utf8, h]

/-- Different texts are written differently. -/
theorem utf8_injective {s t : String} (h : utf8 s = utf8 t) : s = t := by
  rw [← ofUtf8Lossy_utf8 s, h, ofUtf8Lossy_utf8]

/-- Whether the bytes are those of some text. -/
def IsUtf8 (bs : Bytes) : Prop := ∃ s, utf8 s = bs

/-- Only what is no text is lost when it is read as text. -/
theorem isUtf8_iff {bs : Bytes} : IsUtf8 bs ↔ utf8 (ofUtf8Lossy bs) = bs := by
  constructor
  · rintro ⟨s, rfl⟩
    rw [ofUtf8Lossy_utf8]
  · exact fun h => ⟨_, h⟩

instance (bs : Bytes) : Decidable (IsUtf8 bs) := decidable_of_iff _ isUtf8_iff.symm

end TreeImage.Text
