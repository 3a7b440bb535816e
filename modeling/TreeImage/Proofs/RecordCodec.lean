import TreeImage.Record
import TreeImage.Proofs.LossyText
import Mathlib.Data.List.DropRight
import Mathlib.Data.List.TakeWhile

/-!
# Records as bytes

A name stands in its field with zeros behind it and is read up to the first zero. So a record is
read back with its name cut at the first NUL character, and two records whose names fit their fields
have the same bytes just if they differ in no more than the NUL characters at the ends of their
names.
-/

namespace TreeImage

namespace Text

/-- The text before the first NUL character. -/
def untilNul (s : String) : String := String.ofList (s.toList.takeWhile (· ≠ '\x00'))

/-- The text without the NUL characters at its end. -/
def trimNul (s : String) : String := String.ofList (s.toList.rdropWhile (· = '\x00'))

theorem untilNul_eq_self {s : String} (h : '\x00' ∉ s.toList) : untilNul s = s := by
  have htake : s.toList.takeWhile (· ≠ '\x00') = s.toList := by
    rw [List.takeWhile_eq_self_iff]
    intro c hc
    exact decide_eq_true fun heq => h (heq ▸ hc)
  rw [untilNul, htake, String.ofList_toList]

theorem trimNul_eq_self {s : String} (h : s.toList.getLast? ≠ some '\x00') : trimNul s = s := by
  have hdrop : s.toList.rdropWhile (· = '\x00') = s.toList := by
    rw [List.rdropWhile_eq_self_iff]
    intro hne hlast
    exact h (by simpa [List.getLast?_eq_getLast_of_ne_nil hne] using hlast)
  rw [trimNul, hdrop, String.ofList_toList]

/-- A zero byte is written for the NUL character only. -/
theorem zero_notMem_encodeChar {c : Char} (h : c ≠ '\x00') :
    (0 : UInt8) ∉ String.utf8EncodeChar c :=
  fun hmem => h (eq_of_mem_encodeChar (by decide) hmem)

/-- What is written before the first zero byte is the text before the first NUL. -/
theorem untilZero_utf8_append (s : String) (padding : Nat) :
    Bytes.untilZero (utf8 s ++ List.replicate padding 0) = utf8 (untilNul s) := by
  rw [untilNul, utf8_ofList, utf8, Bytes.untilZero]
  induction s.toList with
  | nil => simp
  | cons c cs ih =>
    by_cases h : c = '\x00'
    · subst h
      rfl
    · have hall : ∀ b ∈ String.utf8EncodeChar c, (b != 0) = true := by
        intro b hb
        have hzero : b ≠ 0 := by
          rintro rfl
          exact zero_notMem_encodeChar h hb
        simpa using hzero
      rw [List.flatMap_cons, List.append_assoc, List.takeWhile_append_of_pos hall, ih,
        List.takeWhile_cons_of_pos (by simpa using h), List.flatMap_cons]

/-- The text before the first NUL has the bytes before the first zero. -/
theorem utf8_untilNul (s : String) : utf8 (untilNul s) = Bytes.untilZero (utf8 s) := by
  have h := untilZero_utf8_append s 0
  rw [List.replicate_zero, List.append_nil] at h
  exact h.symm

theorem untilNul_eq_self_iff {s : String} : untilNul s = s ↔ 0 ∉ utf8 s := by
  have hbytes : untilNul s = s ↔ Bytes.untilZero (utf8 s) = utf8 s := by
    rw [← utf8_untilNul]
    exact ⟨congrArg utf8, utf8_injective⟩
  rw [hbytes, Bytes.untilZero, List.takeWhile_eq_self_iff]
  constructor
  · intro hall hzero
    simpa using hall 0 hzero
  · intro hzero b hb
    have hne : b ≠ 0 := by
      rintro rfl
      exact hzero hb
    simpa using hne

/-- Only the zeros at the end are lost when the NUL characters at the end are. -/
theorem utf8_eq_trimNul_append (s : String) :
    ∃ zeros, utf8 s = utf8 (trimNul s) ++ List.replicate zeros 0 := by
  rw [trimNul, utf8_ofList, utf8]
  induction s.toList using List.reverseRecOn with
  | nil => exact ⟨0, rfl⟩
  | append_singleton cs c ih =>
    by_cases h : c = '\x00'
    · subst h
      rcases ih with ⟨zeros, ih⟩
      refine ⟨zeros + 1, ?_⟩
      have hnul : String.utf8EncodeChar '\x00' = [0] := rfl
      rw [List.flatMap_append, ih, List.rdropWhile_concat_pos _ _ _ (by simp),
        List.replicate_succ', List.append_assoc]
      simp [hnul]
    · refine ⟨0, ?_⟩
      rw [List.rdropWhile_concat_neg _ _ _ (by simpa using h)]
      simp

/-- The last byte of a text without NUL characters at its end is no zero. -/
theorem rdropWhile_utf8_trimNul (s : String) :
    (utf8 (trimNul s)).rdropWhile (· = 0) = utf8 (trimNul s) := by
  rw [trimNul, utf8_ofList]
  induction s.toList using List.reverseRecOn with
  | nil => rfl
  | append_singleton cs c ih =>
    by_cases h : c = '\x00'
    · rw [List.rdropWhile_concat_pos _ _ _ (by simpa using h)]
      exact ih
    · rw [List.rdropWhile_concat_neg _ _ _ (by simpa using h), List.flatMap_append,
        List.flatMap_singleton, List.rdropWhile_eq_self_iff]
      intro hne hlast
      have hmem := List.getLast_mem (String.utf8EncodeChar_ne_nil (c := c))
      rw [List.getLast_append_of_ne_nil _ String.utf8EncodeChar_ne_nil,
        decide_eq_true_eq] at hlast
      exact zero_notMem_encodeChar h (hlast ▸ hmem)

end Text

namespace Bytes

/-- A part of a text is found where it stands. -/
theorem slice_append (front middle rest : Bytes) :
    slice front.length middle.length (front ++ (middle ++ rest)) = middle := by
  rw [slice, List.drop_left, List.take_left]

theorem ofWord_inj {v w : UInt32} : ofWord v = ofWord w ↔ v = w := by
  constructor
  · intro h
    apply UInt32.toNat.inj
    rw [← toNat_ofWord v, h, toNat_ofWord]
  · intro h
    rw [h]

end Bytes

namespace Record

/-- The record with its name changed. -/
def rename (f : String → String) : Record → Record
  | .file offset name length => .file offset (f name) length
  | .directory children name blockCount => .directory children (f name) blockCount

/-- The name field: the name with zeros behind it. -/
def field (name : String) : Bytes :=
  Text.utf8 name ++ List.replicate (nameField - (Text.utf8 name).length) 0

/-- Whether the name fits its field. -/
def Fits (r : Record) : Prop := (Text.utf8 r.name).length ≤ nameField

theorem length_field {name : String} (h : (Text.utf8 name).length ≤ nameField) :
    (field name).length = nameField := by
  simp only [field, List.length_append, List.length_replicate]
  omega

/-- The bytes of a field depend on the name without the NUL characters at its end only. -/
theorem field_eq_trimNul {name : String} (h : (Text.utf8 name).length ≤ nameField) :
    field name = field (Text.trimNul name) := by
  obtain ⟨zeros, hzeros⟩ := Text.utf8_eq_trimNul_append name
  have hlength := congrArg List.length hzeros
  simp only [List.length_append, List.length_replicate] at hlength
  have hpadding : zeros + (nameField - (Text.utf8 name).length) =
      nameField - (Text.utf8 (Text.trimNul name)).length := by omega
  calc
    field name = Text.utf8 (Text.trimNul name) ++ List.replicate zeros 0 ++
        List.replicate (nameField - (Text.utf8 name).length) 0 :=
      congrArg (· ++ List.replicate (nameField - (Text.utf8 name).length) 0) hzeros
    _ = field (Text.trimNul name) := by
      rw [List.append_assoc, List.replicate_append_replicate, hpadding, field]

private theorem rdropWhile_append_zeros (bs : Bytes) (zeros : Nat) :
    (bs ++ List.replicate zeros 0).rdropWhile (· = 0) = bs.rdropWhile (· = 0) := by
  induction zeros with
  | zero => simp
  | succ zeros ih =>
    rw [List.replicate_succ', ← List.append_assoc, List.rdropWhile_concat_pos _ _ _ (by simp), ih]

theorem field_inj {m n : String} (hm : (Text.utf8 m).length ≤ nameField)
    (hn : (Text.utf8 n).length ≤ nameField) :
    field m = field n ↔ Text.trimNul m = Text.trimNul n := by
  constructor
  · intro h
    rw [field_eq_trimNul hm, field_eq_trimNul hn] at h
    have hdrop := congrArg (List.rdropWhile (· = 0)) h
    simp only [field, rdropWhile_append_zeros, Text.rdropWhile_utf8_trimNul] at hdrop
    exact Text.utf8_injective hdrop
  · intro h
    rw [field_eq_trimNul hm, field_eq_trimNul hn, h]

/-- A record whose name fits its field keeps to the fields. -/
theorem encode_eq_fields {r : Record} (h : r.Fits) :
    r.encode = Bytes.ofNat 2 r.tag ++ (Bytes.ofWord r.firstWord ++ (field r.name ++
      (Bytes.ofWord r.secondWord ++ List.replicate 6 0))) := by
  have hfits : (Text.utf8 r.name).length ≤ 64 := h
  have htake : (paddedName r.name).take nameField = field r.name := by
    simp only [paddedName, field, nameRoom, nameField, List.take_append, List.take_replicate]
    rw [List.take_of_length_le hfits]
    congr 2
    omega
  have hdrop : (paddedName r.name).drop (nameField + 4) = List.replicate 6 0 := by
    simp only [paddedName, nameRoom, nameField, List.drop_append, List.drop_replicate]
    rw [List.drop_of_length_le (by omega), List.nil_append]
    congr 1
    omega
  simp only [encode, htake, hdrop, List.append_assoc]

theorem length_encode_of_fits {r : Record} (h : r.Fits) : r.encode.length = size := by
  rw [encode_eq_fields h]
  simp [length_field h, nameField, size]

/-- A record is read back with its name cut at the first NUL character. -/
theorem decode?_encode_of_fits {r : Record} (h : r.Fits) :
    decode? r.encode = some (r.rename Text.untilNul) := by
  have htag : Bytes.slice 0 2 r.encode = Bytes.ofNat 2 r.tag := by
    rw [encode_eq_fields h]
    simpa using Bytes.slice_append [] (Bytes.ofNat 2 r.tag) _
  have hfirst : r.encode.wordAt 2 = r.firstWord := by
    rw [encode_eq_fields h]
    exact Bytes.wordAt_append (Bytes.ofNat 2 r.tag) _ _
  have hname : Bytes.slice 6 nameField r.encode = field r.name := by
    rw [encode_eq_fields h, ← List.append_assoc]
    have := Bytes.slice_append (Bytes.ofNat 2 r.tag ++ Bytes.ofWord r.firstWord) (field r.name)
      (Bytes.ofWord r.secondWord ++ List.replicate 6 0)
    simpa [length_field h] using this
  have hsecond : r.encode.wordAt 70 = r.secondWord := by
    rw [encode_eq_fields h, ← List.append_assoc, ← List.append_assoc]
    have := Bytes.wordAt_append (Bytes.ofNat 2 r.tag ++ Bytes.ofWord r.firstWord ++ field r.name)
      (List.replicate 6 0) r.secondWord
    simpa [length_field h, nameField] using this
  have huntil : Text.ofUtf8Lossy (Bytes.untilZero (field r.name)) = Text.untilNul r.name := by
    rw [field, Text.untilZero_utf8_append, Text.ofUtf8Lossy_utf8]
  rw [decode?, if_pos (length_encode_of_fits h), htag, hfirst, hname, hsecond, huntil,
    Bytes.toNat_ofNat]
  cases r <;> rfl

/-- Two records whose names fit their fields have the same bytes just if they differ in no more than
the NUL characters at the ends of their names. -/
theorem encode_inj {r s : Record} (hr : r.Fits) (hs : s.Fits) :
    r.encode = s.encode ↔ r.rename Text.trimNul = s.rename Text.trimNul := by
  rw [encode_eq_fields hr, encode_eq_fields hs]
  constructor
  · intro h
    obtain ⟨htag, h⟩ := List.append_inj h (by simp)
    obtain ⟨hfirst, h⟩ := List.append_inj h (by simp)
    obtain ⟨hname, h⟩ := List.append_inj h (by rw [length_field hr, length_field hs])
    obtain ⟨hsecond, -⟩ := List.append_inj h (by simp)
    rw [Bytes.ofWord_inj] at hfirst hsecond
    rw [field_inj hr hs] at hname
    cases r with
    | file offset name length =>
      cases s with
      | file => simp_all [rename, firstWord, secondWord, Record.name]
      | directory => simp [tag, Bytes.ofNat] at htag
    | directory children name blockCount =>
      cases s with
      | file => simp [tag, Bytes.ofNat] at htag
      | directory => simp_all [rename, firstWord, secondWord, Record.name]
  · intro h
    cases r with
    | file offset name length =>
      cases s with
      | file =>
        simp only [rename, Record.file.injEq] at h
        rcases h with ⟨rfl, hname, rfl⟩
        have hfield := (field_inj hr hs).mpr hname
        simp only [Record.name] at hfield
        simp only [Record.name, firstWord, secondWord, tag, hfield]
      | directory => simp [rename] at h
    | directory children name blockCount =>
      cases s with
      | file => simp [rename] at h
      | directory =>
        simp only [rename, Record.directory.injEq] at h
        rcases h with ⟨rfl, hname, rfl⟩
        have hfield := (field_inj hr hs).mpr hname
        simp only [Record.name] at hfield
        simp only [Record.name, firstWord, secondWord, tag, hfield]

theorem rename_eq_self_iff {f : String → String} {r : Record} :
    r.rename f = r ↔ f r.name = r.name := by
  cases r <;> simp [rename, name]

/-- Every record whose name fits its field is written, and read back with its name cut before the
first zero byte. The name can fill the field: it needs no zero behind it. -/
theorem decode?_encode? (r : Record) (h : (Text.utf8 r.name).length ≤ nameField) :
    ∃ block, r.encode? = some block ∧ decode? block = some (r.rename Text.untilNul) ∧
      Text.utf8 (Text.untilNul r.name) = Bytes.untilZero (Text.utf8 r.name) ∧
      (decode? block = some r ↔ 0 ∉ Text.utf8 r.name) := by
  have hroom : (Text.utf8 r.name).length ≤ nameRoom := Nat.le_trans h (by decide)
  have hdecode := decode?_encode_of_fits h
  refine ⟨r.encode, if_pos hroom, hdecode, Text.utf8_untilNul r.name, ?_⟩
  rw [hdecode, Option.some.injEq, rename_eq_self_iff, Text.untilNul_eq_self_iff]

/-- A name of 32 characters of two bytes each fills its field. -/
theorem full_field_is_read_back :
    (Text.utf8 (String.ofList (List.replicate 32 'é'))).length = nameField ∧
      ∃ block, (Record.file 3 (String.ofList (List.replicate 32 'é')) 2).encode? = some block ∧
        decode? block = some (.file 3 (String.ofList (List.replicate 32 'é')) 2) := by
  have hfull : (Text.utf8 (String.ofList (List.replicate 32 'é'))).length = nameField := by decide
  have hzero : 0 ∉ Text.utf8 (String.ofList (List.replicate 32 'é')) := by decide
  obtain ⟨block, hencode, -, -, hdecode⟩ :=
    decode?_encode? (.file 3 (String.ofList (List.replicate 32 'é')) 2) (Nat.le_of_eq hfull)
  exact ⟨hfull, block, hencode, hdecode.mpr hzero⟩

end Record

end TreeImage
