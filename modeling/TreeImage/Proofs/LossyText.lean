import TreeImage.Text.Utf8.Lemmas
import Mathlib.Algebra.GroupWithZero.Nat
import Mathlib.Tactic.SplitIfs

/-!
# Reading bytes that are no text

A character beyond ASCII is neither written with a byte below 128 nor read from one, be the bytes
those of a text or not. So an ASCII character stands in what was read only where its byte stood, and
where all that was read is ASCII, nothing was lost.
-/

namespace TreeImage.Text

theorem utf8_ofList (cs : List Char) :
    utf8 (String.ofList cs) = cs.flatMap String.utf8EncodeChar := by
  simp [utf8]

/-! ## ASCII -/

/-- Bytes below 128 are read as one character each. -/
theorem decodeLossy_ascii {bs : Bytes} (h : ∀ b ∈ bs, b < 0x80) :
    decodeLossy none bs = bs.map fun b => Char.ofNat b.toNat := by
  induction bs with
  | nil => rfl
  | cons b rest ih =>
    have hb : b.toNat < 0x80 := h b (List.mem_cons_self ..)
    have hsingle : Opening.ofByte b = .single (Char.ofNat b.toNat) := by
      simp only [Opening.ofByte, if_pos hb]
    rw [decodeLossy_single hsingle, ih fun c hc => h c (List.mem_cons_of_mem _ hc), List.map_cons]

theorem toNat_ofNat {n : Nat} (h : n.isValidChar) : (Char.ofNat n).toNat = n := by
  rw [Char.ofNat, dif_pos h]
  rfl

theorem toNat_ofNat_ascii {b : UInt8} (h : b < 0x80) : (Char.ofNat b.toNat).toNat = b.toNat := by
  have hb : b.toNat < 0x80 := h
  exact toNat_ofNat (.inl (by omega))

theorem utf8EncodeChar_ascii {b : UInt8} (h : b < 0x80) :
    String.utf8EncodeChar (Char.ofNat b.toNat) = [b] := by
  have hb : b.toNat < 0x80 := h
  have hval : (Char.ofNat b.toNat).val.toNat = b.toNat := toNat_ofNat_ascii h
  have hle : b.toNat ≤ 127 := by omega
  simp only [String.utf8EncodeChar, hval, if_pos hle, UInt8.ofNat_toNat]

/-- ASCII text is written as it was read. -/
theorem utf8_ofUtf8Lossy_ascii {bs : Bytes} (h : ∀ b ∈ bs, b < 0x80) :
    utf8 (ofUtf8Lossy bs) = bs := by
  rw [ofUtf8Lossy, decodeLossy_ascii h, utf8_ofList]
  induction bs with
  | nil => rfl
  | cons b rest ih =>
    have hchar := utf8EncodeChar_ascii (h b (List.mem_cons_self ..))
    rw [List.map_cons, List.flatMap_cons, hchar, ih fun c hc => h c (List.mem_cons_of_mem _ hc)]
    rfl

private theorem ne_ofNat {b : UInt8} {n : Nat} (hb : b < 0x80) (h : 0x80 ≤ n % 256) :
    b ≠ UInt8.ofNat n := by
  rintro rfl
  have hlow : (UInt8.ofNat n).toNat < 0x80 := hb
  rw [UInt8.toNat_ofNat'] at hlow
  omega

/-- A byte below 128 is written for one character only. -/
theorem eq_of_mem_encodeChar {b : UInt8} {c : Char} (hb : b < 0x80)
    (h : b ∈ String.utf8EncodeChar c) : c = Char.ofNat b.toNat := by
  have hc : Char.ofNat c.val.toNat = c := Char.ofNat_toNat c
  by_cases hascii : c.val.toNat ≤ 127
  · simp only [String.utf8EncodeChar, if_pos hascii, List.mem_singleton] at h
    have hval : b.toNat = c.val.toNat := by
      rw [h, UInt8.toNat_ofNat']
      omega
    rw [hval, hc]
  · have hbeyond : ∀ {n : Nat}, 0x80 ≤ n % 256 → b ≠ UInt8.ofNat n := ne_ofNat hb
    simp only [String.utf8EncodeChar, if_neg hascii] at h
    split at h
    · simp only [List.mem_cons, List.not_mem_nil, or_false] at h
      rcases h with h | h
      · exact absurd h (hbeyond (by omega))
      · exact absurd h (hbeyond (by omega))
    · split at h
      · simp only [List.mem_cons, List.not_mem_nil, or_false] at h
        rcases h with h | h | h
        · exact absurd h (hbeyond (by omega))
        · exact absurd h (hbeyond (by omega))
        · exact absurd h (hbeyond (by omega))
      · simp only [List.mem_cons, List.not_mem_nil, or_false] at h
        rcases h with h | h | h | h
        · exact absurd h (hbeyond (by omega))
        · exact absurd h (hbeyond (by omega))
        · exact absurd h (hbeyond (by omega))
        · exact absurd h (hbeyond (by omega))

/-! ## Beyond ASCII

A sequence under way leads to characters in one range of numbers, which gets smaller with every byte
and in which there is neither ASCII nor a surrogate. -/

/-- The least number that the sequence can come to. -/
def Unfinished.low (u : Unfinished) : Nat := (u.value * 64 + (u.least - 0x80)) * 64 ^ u.more

/-- The numbers that the sequence can come to are below this one. -/
def Unfinished.high (u : Unfinished) : Nat :=
  (u.value * 64 + (u.greatest - 0x80) + 1) * 64 ^ u.more

/-- Only characters beyond ASCII can come of the sequence. -/
structure Unfinished.Wide (u : Unfinished) : Prop where
  beyond : 0x80 ≤ u.low
  valid : u.high ≤ 0xD800 ∨ 0xE000 ≤ u.low ∧ u.high ≤ 0x110000

theorem wide_ofByte {b : UInt8} {u : Unfinished} (h : Opening.ofByte b = .sequence u) :
    u.Wide := by
  simp only [Opening.ofByte] at h
  split_ifs at h with _ htwo _ _ hthree _ hfour
  · obtain rfl := Opening.sequence.inj h
    constructor <;> simp only [Unfinished.low, Unfinished.high] <;> omega
  · obtain rfl := Opening.sequence.inj h
    constructor <;> simp [Unfinished.low, Unfinished.high]
  · obtain rfl := Opening.sequence.inj h
    constructor <;> simp [Unfinished.low, Unfinished.high]
  · obtain rfl := Opening.sequence.inj h
    constructor <;> simp only [Unfinished.low, Unfinished.high] <;> omega
  · obtain rfl := Opening.sequence.inj h
    constructor <;> simp [Unfinished.low, Unfinished.high]
  · obtain rfl := Opening.sequence.inj h
    constructor <;> simp only [Unfinished.low, Unfinished.high] <;> omega
  · obtain rfl := Opening.sequence.inj h
    constructor <;> simp [Unfinished.low, Unfinished.high]

namespace Unfinished

variable {u v : Unfinished} {b : UInt8}

theorem bounds_of_accepts (h : u.accepts b = true) :
    u.value * 64 + (u.least - 0x80) ≤ u.value * 64 + (b.toNat - 0x80) ∧
      u.value * 64 + (b.toNat - 0x80) ≤ u.value * 64 + (u.greatest - 0x80) := by
  simp only [accepts, Bool.and_eq_true, decide_eq_true_eq] at h
  omega

/-- Every byte narrows the range. -/
theorem range_push (haccepts : u.accepts b = true) (hpush : u.push b = .sequence v) :
    u.low ≤ v.low ∧ v.high ≤ u.high := by
  obtain ⟨hleast, hgreatest⟩ := bounds_of_accepts haccepts
  rcases u with ⟨value, least, greatest, more⟩
  cases more with
  | zero => cases hpush
  | succ more =>
    obtain rfl := Opening.sequence.inj hpush
    simp only at hleast hgreatest
    simp only [low, high, Nat.sub_self, Nat.add_zero]
    generalize value * 64 + (b.toNat - 0x80) = n at hleast hgreatest
    rw [show (n * 64 + (0xBF - 0x80) + 1) = (n + 1) * 64 by omega, Nat.mul_assoc, Nat.mul_assoc,
      ← Nat.pow_succ']
    exact ⟨Nat.mul_le_mul_right _ hleast, Nat.mul_le_mul_right _ (Nat.succ_le_succ hgreatest)⟩

theorem Wide.push (h : u.Wide) (haccepts : u.accepts b = true) (hpush : u.push b = .sequence v) :
    v.Wide := by
  obtain ⟨hlow, hhigh⟩ := range_push haccepts hpush
  have hbeyond := h.beyond
  have hvalid := h.valid
  constructor <;> omega

theorem Wide.last {c : Char} (h : u.Wide) (haccepts : u.accepts b = true)
    (hpush : u.push b = .single c) : 0x80 ≤ c.toNat := by
  obtain ⟨hleast, hgreatest⟩ := bounds_of_accepts haccepts
  rcases u with ⟨value, least, greatest, more⟩
  cases more with
  | zero =>
    obtain rfl := Opening.single.inj hpush
    have hwide := h.beyond
    have hvalid := h.valid
    simp only [low, high, Nat.pow_zero, Nat.mul_one] at hwide hvalid hleast hgreatest
    generalize value * 64 + (b.toNat - 0x80) = n at hleast hgreatest
    have hchar : n.isValidChar := by
      show _ ∨ _
      omega
    rw [toNat_ofNat hchar]
    exact Nat.le_trans hwide hleast
  | succ more => cases hpush

end Unfinished

theorem decodeLossy_break {u : Unfinished} {b : UInt8} (h : u.accepts b = false) (rest : Bytes) :
    decodeLossy (some u) (b :: rest) = replacement :: decodeLossy none (b :: rest) := by
  simp only [decodeLossy, h]
  cases Opening.ofByte b <;> rfl

theorem push_ne_invalid (u : Unfinished) (b : UInt8) : u.push b ≠ .invalid := by
  unfold Unfinished.push
  cases u.more <;> simp

/-- What is under way comes to something beyond ASCII. -/
theorem exists_cons_of_wide {u : Unfinished} (h : u.Wide) (bs : Bytes) :
    ∃ c cs, decodeLossy (some u) bs = c :: cs ∧ 0x80 ≤ c.toNat := by
  induction bs generalizing u with
  | nil => exact ⟨replacement, [], rfl, by decide⟩
  | cons b rest ih =>
    cases haccepts : u.accepts b with
    | false => exact ⟨replacement, _, decodeLossy_break haccepts rest, by decide⟩
    | true =>
      cases hpush : u.push b with
      | single c => exact ⟨c, _, decodeLossy_last haccepts hpush rest, h.last haccepts hpush⟩
      | sequence v =>
        rw [decodeLossy_push haccepts hpush]
        exact ih (h.push haccepts hpush)
      | invalid => exact absurd hpush (push_ne_invalid u b)

/-! ## Whole texts -/

theorem ofByte_single {b : UInt8} {c : Char} (h : Opening.ofByte b = .single c) :
    b < 0x80 ∧ c = Char.ofNat b.toNat := by
  simp only [Opening.ofByte] at h
  split_ifs at h with hb
  exact ⟨hb, (Opening.single.inj h).symm⟩

theorem decodeLossy_invalid {b : UInt8} (h : Opening.ofByte b = .invalid) (rest : Bytes) :
    decodeLossy none (b :: rest) = replacement :: decodeLossy none rest := by
  simp [decodeLossy, h]

/-- An ASCII character is read only where its byte stands. -/
theorem mem_of_mem_decodeLossy {c : Char} (hc : c.toNat < 0x80) {bs : Bytes}
    {under : Option Unfinished} (hwide : ∀ u ∈ under, u.Wide) (h : c ∈ decodeLossy under bs) :
    UInt8.ofNat c.toNat ∈ bs := by
  have hreplaced : c ≠ replacement := by
    rintro rfl
    exact absurd hc (by decide)
  -- Between two characters, and then within one; a byte that breaks one off stands between.
  have hbetween : ∀ {b rest}, (∀ {under : Option Unfinished}, (∀ u ∈ under, u.Wide) →
      c ∈ decodeLossy under rest → UInt8.ofNat c.toNat ∈ rest) →
      c ∈ decodeLossy none (b :: rest) → UInt8.ofNat c.toNat ∈ b :: rest := by
    intro b rest ih hmem
    cases hopen : Opening.ofByte b with
    | single d =>
      obtain ⟨hb, rfl⟩ := ofByte_single hopen
      rw [decodeLossy_single hopen, List.mem_cons] at hmem
      rcases hmem with rfl | hmem
      · rw [toNat_ofNat_ascii hb, UInt8.ofNat_toNat]
        exact List.mem_cons_self ..
      · exact List.mem_cons_of_mem _ (ih (by simp) hmem)
    | sequence u =>
      rw [decodeLossy_open hopen] at hmem
      exact List.mem_cons_of_mem _ (ih (by simpa using wide_ofByte hopen) hmem)
    | invalid =>
      rw [decodeLossy_invalid hopen, List.mem_cons, or_iff_right hreplaced] at hmem
      exact List.mem_cons_of_mem _ (ih (by simp) hmem)
  induction bs generalizing under with
  | nil =>
    cases under with
    | none => cases h
    | some u => exact absurd (List.mem_singleton.mp h) hreplaced
  | cons b rest ih =>
    cases under with
    | none => exact hbetween ih h
    | some u =>
      have hu := hwide u rfl
      cases haccepts : u.accepts b with
      | false =>
        rw [decodeLossy_break haccepts, List.mem_cons, or_iff_right hreplaced] at h
        exact hbetween ih h
      | true =>
        cases hpush : u.push b with
        | single d =>
          rw [decodeLossy_last haccepts hpush, List.mem_cons] at h
          rcases h with rfl | h
          · exact absurd (hu.last haccepts hpush) (Nat.not_le.mpr hc)
          · exact List.mem_cons_of_mem _ (ih (by simp) h)
        | sequence v =>
          rw [decodeLossy_push haccepts hpush] at h
          exact List.mem_cons_of_mem _ (ih (by simpa using hu.push haccepts hpush) h)
        | invalid => exact absurd hpush (push_ne_invalid u b)

theorem mem_of_mem_ofUtf8Lossy {c : Char} (hc : c.toNat < 0x80) {bs : Bytes}
    (h : c ∈ (ofUtf8Lossy bs).toList) : UInt8.ofNat c.toNat ∈ bs := by
  rw [ofUtf8Lossy, String.toList_ofList] at h
  exact mem_of_mem_decodeLossy hc (by simp) h

/-- Where only ASCII was read, only ASCII stands. -/
theorem ascii_of_decodeLossy {bs : Bytes} (h : ∀ c ∈ decodeLossy none bs, c.toNat < 0x80) :
    ∀ b ∈ bs, b < 0x80 := by
  induction bs with
  | nil => simp
  | cons b rest ih =>
    cases hopen : Opening.ofByte b with
    | single c =>
      rw [decodeLossy_single hopen] at h
      have hrest := ih fun d hd => h d (List.mem_cons_of_mem _ hd)
      simpa using ⟨(ofByte_single hopen).1, hrest⟩
    | sequence u =>
      obtain ⟨c, cs, hcs, hc⟩ := exists_cons_of_wide (wide_ofByte hopen) rest
      rw [decodeLossy_open hopen, hcs] at h
      exact absurd (h c (List.mem_cons_self ..)) (Nat.not_lt.mpr hc)
    | invalid =>
      rw [decodeLossy_invalid hopen] at h
      exact absurd (h replacement (List.mem_cons_self ..)) (by decide)

/-- Nothing is lost where only ASCII was read. -/
theorem utf8_ofUtf8Lossy_of_ascii {bs : Bytes} (h : ∀ c ∈ (ofUtf8Lossy bs).toList, c.toNat < 0x80) :
    utf8 (ofUtf8Lossy bs) = bs := by
  rw [ofUtf8Lossy, String.toList_ofList] at h
  exact utf8_ofUtf8Lossy_ascii (ascii_of_decodeLossy h)

theorem ofUtf8Lossy_ne_empty {bs : Bytes} (h : bs ≠ []) : ofUtf8Lossy bs ≠ "" := by
  intro hempty
  have hascii : ∀ c ∈ (ofUtf8Lossy bs).toList, c.toNat < 0x80 := by simp [hempty]
  have hlost := utf8_ofUtf8Lossy_of_ascii hascii
  rw [hempty] at hlost
  exact h hlost.symm

end TreeImage.Text
