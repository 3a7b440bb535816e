import TreeImage.Proofs.Canonical
import TreeImage.Proofs.Slack

/-!
# Blocks written again

A block that is decoded and encoded again keeps its fields and loses its padding: what stands behind
the name in its field and behind the second word is written as zeros, and all else as it was. So a
block is what is written for its record just if its padding is zero already, and a block that was
written again stays as it is from then on. A header has no padding, so that headers and their bytes
determine each other.
-/

namespace TreeImage

namespace Bytes

/-- A zero stands before a position just if the bytes before the first zero end before it. -/
theorem exists_zero_iff {bs : Bytes} {place : Nat} (hplace : place ≤ bs.length) :
    (∃ first < place, bs[first]? = some 0) ↔ (untilZero bs).length < place := by
  induction bs generalizing place with
  | nil =>
    rw [List.length_nil, Nat.le_zero] at hplace
    simp [hplace]
  | cons b rest ih =>
    cases place with
    | zero => simp
    | succ place =>
      by_cases hzero : b = 0
      · subst hzero
        exact ⟨fun _ => Nat.succ_pos place, fun _ => ⟨0, Nat.succ_pos place, rfl⟩⟩
      · rw [untilZero_cons hzero, List.length_cons, Nat.succ_lt_succ_iff,
          ← ih (Nat.le_of_succ_le_succ hplace)]
        constructor
        · rintro ⟨first, hlt, hfirst⟩
          cases first with
          | zero => exact absurd (Option.some.inj hfirst) hzero
          | succ first => exact ⟨first, Nat.lt_of_succ_lt_succ hlt, hfirst⟩
        · rintro ⟨first, hlt, hfirst⟩
          exact ⟨first + 1, Nat.succ_lt_succ hlt, hfirst⟩

/-- The text with zeros behind its first zero. -/
def zeroed (bs : Bytes) : Bytes :=
  untilZero bs ++ List.replicate (bs.length - (untilZero bs).length) 0

theorem length_untilZero_le (bs : Bytes) : (untilZero bs).length ≤ bs.length :=
  (List.takeWhile_prefix _).length_le

@[simp] theorem length_zeroed (bs : Bytes) : (zeroed bs).length = bs.length := by
  have hle := length_untilZero_le bs
  rw [zeroed, List.length_append, List.length_replicate]
  omega

theorem getElem?_zeroed (bs : Bytes) (place : Nat) :
    (zeroed bs)[place]? =
      if (untilZero bs).length < place ∧ place < bs.length then some 0 else bs[place]? := by
  induction bs generalizing place with
  | nil => simp [zeroed, untilZero]
  | cons b rest ih =>
    by_cases hzero : b = 0
    · subst hzero
      have hnone : untilZero (0 :: rest) = [] := rfl
      cases place with
      | zero => simp [zeroed, hnone]
      | succ place =>
        rw [zeroed, hnone, List.nil_append, List.getElem?_replicate]
        split
        · next hlt => exact (if_pos ⟨Nat.succ_pos place, hlt⟩).symm
        · next hge =>
          rw [if_neg fun h => hge h.2, List.getElem?_eq_none (Nat.le_of_not_lt hge)]
    · have hcons : zeroed (b :: rest) = b :: zeroed rest := by
        simp [zeroed, untilZero_cons hzero]
      rw [hcons, untilZero_cons hzero]
      cases place with
      | zero => simp
      | succ place =>
        simp only [List.getElem?_cons_succ, List.length_cons, Nat.succ_lt_succ_iff]
        exact ih place

end Bytes

namespace Record

/-- The slack of a block but for the block count of a directory, which is a word of its record. -/
def Padding (block : Bytes) (place : Nat) : Prop := Slack block place ∧ (place < 70 ∨ 74 ≤ place)

/-- The block with zeros in its padding. -/
def cleared (block : Bytes) : Bytes :=
  Bytes.slice 0 6 block ++ ((Bytes.slice 6 nameField block).zeroed ++
    (Bytes.slice 70 4 block ++ List.replicate 6 0))

/-- What becomes of a block when its record is written again. -/
structure Rewritten (block written : Bytes) (r : Record) : Prop where
  decoded : decode? block = some r
  encoded : r.encode? = some written
  length : written.length = size
  padding : ∀ place, Padding block place → written[place]? = some 0
  elsewhere : ∀ place, ¬Padding block place → written[place]? = block[place]?
  eq_iff : written = block ↔ ∀ place, Padding block place → block[place]? = some 0
  decoded_again : decode? written = some r
  encoded_again : (decode? written).bind encode? = some written

variable {block : Bytes} {r : Record}

theorem length_slice_field (hlength : block.length = size) :
    (Bytes.slice 6 nameField block).length = nameField := by
  rw [Bytes.length_slice, hlength]
  rfl

theorem exists_decode? (hlength : block.length = size) (htag : Tagged block) :
    ∃ r, decode? block = some r := by
  unfold decode? ofParts?
  rw [if_pos hlength]
  rcases htag with htag | htag
  · exact ⟨_, by rw [if_pos htag]⟩
  · exact ⟨_, by rw [if_neg (by rw [htag]; decide), if_pos htag]⟩

theorem padding_iff (hlength : block.length = size) {place : Nat} :
    Padding block place ↔
      6 + (nameBytes block).length < place ∧ place < 70 ∨ 74 ≤ place ∧ place < 80 := by
  have hfield := length_slice_field hlength
  rw [nameField] at hfield
  constructor
  · rintro ⟨hslack, hplace⟩
    cases hslack with
    | @padding first _ hfirst hlt hend hzero =>
      have hbefore : (nameBytes block).length < place - 6 := by
        rw [nameBytes, nameField, ← Bytes.exists_zero_iff (by omega)]
        refine ⟨first - 6, by omega, ?_⟩
        rw [Bytes.getElem?_slice block (by omega), Nat.add_sub_cancel' hfirst, hzero]
      exact .inl ⟨by omega, hend⟩
    | blockCount _ hle hlt => omega
    | reserved hle hlt => exact .inr ⟨hle, hlt⟩
  · rintro (⟨hbehind, hend⟩ | ⟨hle, hlt⟩)
    · have hbefore : (nameBytes block).length < place - 6 := by omega
      rw [nameBytes, nameField, ← Bytes.exists_zero_iff (by omega)] at hbefore
      obtain ⟨first, hlt, hzero⟩ := hbefore
      rw [Bytes.getElem?_slice block (by omega)] at hzero
      exact ⟨.padding (Nat.le_add_right 6 first) (by omega) hend hzero, .inl hend⟩
    · exact ⟨.reserved hle hlt, .inr hle⟩

theorem length_cleared (hlength : block.length = size) : (cleared block).length = size := by
  simp only [cleared, List.length_append, Bytes.length_zeroed, length_slice_field hlength,
    Bytes.length_slice, List.length_replicate, hlength]
  rfl

theorem getElem?_cleared (hlength : block.length = size) (place : Nat) :
    (cleared block)[place]? =
      if 6 + (nameBytes block).length < place ∧ place < 70 ∨ 74 ≤ place ∧ place < 80 then some 0
      else block[place]? := by
  have hfield := length_slice_field hlength
  rw [nameField] at hfield
  rw [size] at hlength
  have hname := Bytes.length_untilZero_le (Bytes.slice 6 64 block)
  have hfront : (Bytes.slice 0 6 block).length = 6 := by simp [hlength]
  have hword : (Bytes.slice 70 4 block).length = 4 := by simp [hlength]
  rw [cleared, nameBytes, nameField, List.getElem?_append, List.getElem?_append,
    List.getElem?_append, hfront, Bytes.length_zeroed, hfield, hword]
  split
  · next hplace =>
    rw [if_neg (by omega), Bytes.getElem?_slice block hplace, Nat.zero_add]
  split
  · next hge hplace =>
    rw [Bytes.getElem?_zeroed, hfield]
    split
    · next hbehind => rw [if_pos (by omega)]
    · next hbefore =>
      rw [if_neg (by omega), Bytes.getElem?_slice block hplace]
      congr 1
      omega
  split
  · next hge hbehind hplace =>
    rw [if_neg (by omega), Bytes.getElem?_slice block hplace]
    congr 1
    omega
  · next hge hbehind hend =>
    rw [List.getElem?_replicate]
    split
    · next hplace => rw [if_pos (by omega)]
    · next hplace => rw [if_neg (by omega), List.getElem?_eq_none (by omega)]

/-- The record of a block is written as the block without its padding. -/
theorem encode_eq_cleared (hdecode : decode? block = some r)
    (hname : Text.IsUtf8 (nameBytes block)) : r.Fits ∧ r.encode = cleared block := by
  obtain ⟨hlength, htag, hfirst, htext, hsecond⟩ := parts_of_decode? hdecode
  have hroom : 74 ≤ block.length := by
    rw [hlength]
    decide
  have hfield := length_slice_field hlength
  have hbytes : Text.utf8 r.name = nameBytes block := by
    rw [htext]
    exact Text.isUtf8_iff.mp hname
  have hfits : r.Fits := by
    rw [Fits, hbytes, ← hfield]
    exact Bytes.length_untilZero_le _
  have htagBytes : Bytes.ofNat 2 r.tag = Bytes.slice 0 2 block := by
    have htwo := Bytes.ofNat_toNat (Bytes.slice 0 2 block)
    rw [Bytes.length_slice, hlength, htag] at htwo
    exact htwo
  have hzeroed : field r.name = (Bytes.slice 6 nameField block).zeroed := by
    rw [field, hbytes, Bytes.zeroed, hfield, nameBytes]
  refine ⟨hfits, ?_⟩
  rw [encode_eq_fields hfits, hzeroed, htagBytes, hfirst, hsecond,
    Bytes.ofWord_wordAt (by omega), Bytes.ofWord_wordAt (by omega), cleared,
    ← Bytes.slice_append_slice 0 2 4]
  simp only [List.append_assoc]

theorem exists_rewritten (hlength : block.length = size) (htag : Tagged block)
    (hname : Text.IsUtf8 (nameBytes block)) : ∃ r written, Rewritten block written r := by
  obtain ⟨r, hdecode⟩ := exists_decode? hlength htag
  obtain ⟨hfits, hencode⟩ := encode_eq_cleared hdecode hname
  obtain ⟨-, -, -, htext, -⟩ := parts_of_decode? hdecode
  have hroom : (Text.utf8 r.name).length ≤ nameRoom := Nat.le_trans hfits (by decide)
  have hencoded : r.encode? = some (cleared block) := by rw [encode?, if_pos hroom, hencode]
  have hpadding : ∀ place, Padding block place → (cleared block)[place]? = some 0 := by
    intro place hplace
    rw [getElem?_cleared hlength, if_pos ((padding_iff hlength).mp hplace)]
  have helsewhere : ∀ place, ¬Padding block place → (cleared block)[place]? = block[place]? := by
    intro place hplace
    rw [getElem?_cleared hlength, if_neg (mt (padding_iff hlength).mpr hplace)]
  have hagain : decode? (cleared block) = some r := by
    have hnonzero : 0 ∉ Text.utf8 r.name := by
      rw [htext, Text.isUtf8_iff.mp hname]
      intro hzero
      simpa using List.mem_takeWhile_imp hzero
    rw [← hencode, decode?_encode_of_fits hfits, Option.some.injEq, rename_eq_self_iff]
    exact Text.untilNul_eq_self_iff.mpr hnonzero
  refine ⟨r, cleared block, hdecode, hencoded, length_cleared hlength, hpadding, helsewhere, ?_,
    hagain, by rw [hagain, Option.bind_some, hencoded]⟩
  constructor
  · intro heq place hplace
    rw [← heq]
    exact hpadding place hplace
  · intro hzeros
    apply List.ext_getElem?
    intro place
    by_cases hplace : Padding block place
    · rw [hpadding place hplace, hzeros place hplace]
    · exact helsewhere place hplace

/-- A block with a known tag and a name that is text is written as it was read but for its padding,
which becomes zero. A header and its bytes determine each other. -/
theorem encode?_decode? :
    (∀ block : Bytes, block.length = size → Tagged block → Text.IsUtf8 (nameBytes block) →
      ∃ r written, Rewritten block written r) ∧
    (∀ h : Header, h.encode.length = Header.size ∧ Header.decode? h.encode = some h) ∧
    ∀ bs : Bytes, bs.length = Header.size → ∃ h, Header.decode? bs = some h ∧ h.encode = bs := by
  refine ⟨fun block => exists_rewritten, fun h => ?_, fun bs hbs => ?_⟩
  · have hdecode := Header.decode?_encode h []
    rw [List.append_nil] at hdecode
    exact ⟨h.length_encode, hdecode⟩
  · refine ⟨⟨bs.wordAt 0, bs.wordAt 4, bs.wordAt 8, bs.wordAt 12⟩, ?_, ?_⟩
    · rw [Header.decode?, if_neg (by omega)]
    · rw [Header.encode_eq_slice (Nat.le_of_eq hbs.symm), Bytes.slice, List.drop_zero]
      exact List.take_of_length_le (Nat.le_of_eq hbs)

/-- A file of two bytes with the name `é`, and with other bytes wherever zeros are written. -/
def littered : Bytes :=
  [0xE7, 0xBA, 3, 0, 0, 0, 0xC3, 0xA9, 0] ++ List.replicate 61 1 ++ [2, 0, 0, 0] ++
    List.replicate 6 9

theorem littered_is_cleared :
    (littered.length = size ∧ Tagged littered ∧ Text.IsUtf8 (nameBytes littered)) ∧
      ∃ r written, Rewritten littered written r ∧ written ≠ littered := by
  have hlength : littered.length = size := by decide
  have htag : Tagged littered := .inl (by decide)
  have hname : Text.IsUtf8 (nameBytes littered) := by decide
  obtain ⟨r, written, hrewritten⟩ := encode?_decode?.1 littered hlength htag hname
  refine ⟨⟨hlength, htag, hname⟩, r, written, hrewritten, fun heq => ?_⟩
  have hlast : Padding littered 79 := ⟨.reserved (by decide) (by decide), .inr (by decide)⟩
  have hzero := hrewritten.eq_iff.mp heq 79 hlast
  exact absurd hzero (by decide)

end Record

end TreeImage
