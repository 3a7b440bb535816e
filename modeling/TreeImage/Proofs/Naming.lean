import TreeImage.Layout
import TreeImage.Proofs.LossyText

/-!
# Names and paths

The source is walked one name at a time, while an entry keeps the whole way from the root as one
text. Both lead to the same place as long as names are names: not empty and without a slash. Then
the name of an entry is the last one that was added to its path.
-/

namespace TreeImage

namespace Text

section Lists

variable {α : Type} [DecidableEq α] {sep : α}

/-- The parts of a text, first to last. -/
def parts (sep : α) (s : List α) : List (List α) := (cut sep s).1 :: (cut sep s).2

theorem parts_of_notMem {s : List α} (h : sep ∉ s) : parts sep s = [s] := by
  induction s with
  | nil => rfl
  | cons c s ih =>
    rw [List.mem_cons, not_or] at h
    have hs := ih h.2
    simp only [parts, List.cons.injEq] at hs
    simp [parts, cut, Ne.symm h.1, hs.1, hs.2]

theorem parts_append (s t : List α) :
    parts sep (s ++ sep :: t) = parts sep s ++ parts sep t := by
  induction s with
  | nil => simp [parts, cut]
  | cons c s ih =>
    simp only [parts, List.cons_append, List.cons.injEq] at ih
    by_cases h : c = sep
    · simp [parts, cut, h, ih.1, ih.2]
    · simp [parts, cut, h, ih.1, ih.2]

theorem notMem_of_mem_parts {s part : List α} (h : part ∈ parts sep s) : sep ∉ part := by
  induction s generalizing part with
  | nil =>
    simp only [parts, cut, List.mem_singleton] at h
    simp [h]
  | cons c s ih =>
    simp only [parts, List.mem_cons] at ih
    by_cases hc : c = sep
    · simp only [parts, cut, hc, if_true, List.mem_cons] at h
      rcases h with rfl | h
      · simp
      · exact ih h
    · simp only [parts, cut, hc, if_false, List.mem_cons] at h
      rcases h with rfl | h
      · simpa [Ne.symm hc] using ih (.inl rfl)
      · exact ih (.inr h)

/-- What has no separator in it belongs to the first part. -/
theorem parts_append_of_notMem {s : List α} (h : sep ∉ s) (t : List α) :
    parts sep (s ++ t) = (s ++ (cut sep t).1) :: (cut sep t).2 := by
  induction s with
  | nil => rfl
  | cons c s ih =>
    rw [List.mem_cons, not_or] at h
    have hs := ih h.2
    simp only [parts, List.cons.injEq] at hs
    simp [parts, cut, Ne.symm h.1, hs.1, hs.2]

theorem eq_nil_of_parts {s : List α} (h : parts sep s = [[]]) : s = [] := by
  have hglued := glue_cut sep s
  simp only [parts, List.cons.injEq] at h
  rw [← Prod.eta (cut sep s), h.1, h.2] at hglued
  exact hglued.symm

end Lists

theorem words_eq (sep : Char) (s : String) :
    words sep s = ((parts sep s.toList).map String.ofList).filter (· ≠ "") := rfl

theorem utf8_ne_nil {s : String} (h : s ≠ "") : utf8 s ≠ [] := by
  intro hnil
  exact h (utf8_injective (hnil.trans utf8_empty.symm))

theorem slash_mem_utf8 {s : String} (h : Path.slash ∈ utf8 s) : '/' ∈ s.toList := by
  obtain ⟨c, hc, hmem⟩ := List.mem_flatMap.mp h
  rw [eq_of_mem_encodeChar (by decide) hmem] at hc
  exact hc

/-- The bytes of a text are cut where the text is. -/
theorem parts_utf8 (cs : List Char) :
    parts Path.slash (cs.flatMap String.utf8EncodeChar) =
      (parts '/' cs).map fun part => part.flatMap String.utf8EncodeChar := by
  induction cs with
  | nil => rfl
  | cons c cs ih =>
    simp only [parts, List.map_cons, List.cons.injEq] at ih
    rw [List.flatMap_cons]
    by_cases hc : c = '/'
    · subst hc
      have hslash : String.utf8EncodeChar '/' = [Path.slash] := rfl
      simp [hslash, parts, cut, ih.1, ih.2]
    · have hbytes : Path.slash ∉ String.utf8EncodeChar c :=
        fun hmem => hc (eq_of_mem_encodeChar (by decide) hmem)
      rw [parts_append_of_notMem hbytes, ih.1, ih.2]
      simp [parts, cut, hc]

theorem isUtf8_of_mem_parts {bs part : Bytes} (h : IsUtf8 bs) (hpart : part ∈ parts Path.slash bs) :
    IsUtf8 part := by
  obtain ⟨s, rfl⟩ := h
  rw [utf8, parts_utf8] at hpart
  obtain ⟨cs, -, rfl⟩ := List.mem_map.mp hpart
  exact ⟨String.ofList cs, utf8_ofList cs⟩

theorem head?_of_utf8 {s : String} (h : (utf8 s).head? = some Path.slash) :
    s.toList.head? = some '/' := by
  rw [utf8] at h
  cases hs : s.toList with
  | nil => simp [hs] at h
  | cons c cs =>
    rw [hs, List.flatMap_cons, List.head?_append,
      Option.or_of_isSome (List.isSome_head?.mpr String.utf8EncodeChar_ne_nil)] at h
    rw [eq_of_mem_encodeChar (by decide) (List.mem_of_mem_head? h)]
    rfl

end Text

/-- A text that can be the name of an entry. -/
structure IsName (name : String) : Prop where
  ne_empty : name ≠ ""
  noSlash : '/' ∉ name.toList

namespace IsName

variable {name : String}

theorem toList_ne_nil (h : IsName name) : name.toList ≠ [] := by
  intro hnil
  exact h.ne_empty (String.toList_eq_nil_iff.mp hnil)

theorem head?_ne (h : IsName name) : name.toList.head? ≠ some '/' := by
  intro hhead
  exact h.noSlash (List.mem_of_mem_head? hhead)

theorem slash_notMem_utf8 (h : IsName name) : Path.slash ∉ Text.utf8 name :=
  mt Text.slash_mem_utf8 h.noSlash

theorem join_eq (h : IsName name) (dir : Path) : dir.join name = ⟨dir.stem ++ Text.utf8 name⟩ := by
  have hrelative : (Path.ofText name).isAbsolute = false := by
    rw [Path.isAbsolute, Path.ofText, beq_eq_false_iff_ne]
    exact fun hhead => h.slash_notMem_utf8 (List.mem_of_mem_head? hhead)
  rw [Path.join, Path.append, hrelative]
  rfl

theorem append_ne_empty (h : IsName name) (before : String) : before ++ name ≠ "" := by
  intro hempty
  have hlist := congrArg String.toList hempty
  rw [String.toList_append, String.toList_empty, List.append_eq_nil_iff] at hlist
  exact h.toList_ne_nil hlist.2

theorem stem_join (h : IsName name) (dir : Path) :
    (dir.join name).stem = dir.stem ++ Text.utf8 name ++ [Path.slash] := by
  have hne := Text.utf8_ne_nil h.ne_empty
  have hlast : (dir.stem ++ Text.utf8 name).getLast? ≠ some Path.slash := by
    rw [List.getLast?_append, Option.or_of_isSome (List.getLast?_isSome.mpr hne)]
    exact fun hslash => h.slash_notMem_utf8 (List.mem_of_getLast? hslash)
  rw [h.join_eq, Path.stem, if_neg]
  intro hbare
  rcases hbare with hempty | hslash
  · exact hne (List.append_eq_nil_iff.mp hempty).2
  · exact hlast hslash

end IsName

/-- `base` is what stands between `root` and the entries of `dir` in the paths of a layout. -/
structure Path.Leads (root : Path) (base : String) (dir : Path) : Prop where
  stem : dir.stem = root.stem ++ Text.utf8 base
  closed : base = "" ∨ ∃ front, base = front ++ "/"
  relative : base.toList.head? ≠ some '/'

namespace Path.Leads

variable {root dir : Path} {base name : String}

theorem self (root : Path) : root.Leads "" root := by
  refine ⟨?_, .inl rfl, by simp⟩
  rw [Text.utf8_empty, List.append_nil]

theorem head?_append_ne (h : root.Leads base dir) (hname : IsName name) :
    (base ++ name).toList.head? ≠ some '/' := by
  rw [String.toList_append, List.head?_append]
  have hbase := h.relative
  cases hhead : base.toList.head? with
  | none => exact hname.head?_ne
  | some c =>
    rw [hhead] at hbase
    exact hbase

theorem join (h : root.Leads base dir) (hname : IsName name) :
    root.Leads (base ++ name ++ "/") (dir.join name) := by
  refine ⟨?_, .inr ⟨_, rfl⟩, ?_⟩
  · rw [hname.stem_join, h.stem, Text.utf8_append, Text.utf8_append, List.append_assoc,
      List.append_assoc, List.append_assoc]
    rfl
  · have hjoined := h.head?_append_ne hname
    rw [String.toList_append, List.head?_append]
    cases hhead : (base ++ name).toList.head? with
    | none =>
      rw [List.head?_eq_none_iff, String.toList_eq_nil_iff] at hhead
      exact absurd hhead (hname.append_ne_empty base)
    | some c =>
      rw [hhead] at hjoined
      exact hjoined

/-- The path that an entry keeps leads where its name leads from its directory. -/
theorem append_eq (h : root.Leads base dir) (hname : IsName name) :
    root.append (.ofText (base ++ name)) = dir.join name := by
  have hrelative : (Path.ofText (base ++ name)).isAbsolute = false := by
    rw [Path.isAbsolute, Path.ofText, beq_eq_false_iff_ne]
    exact fun hhead => h.head?_append_ne hname (Text.head?_of_utf8 hhead)
  rw [Path.append, hrelative, hname.join_eq, h.stem, List.append_assoc, ← Text.utf8_append]
  rfl

/-- The words of an extended path end with the name that was added. -/
theorem getLast?_words (h : root.Leads base dir) (hname : IsName name) :
    (Text.words '/' (base ++ name)).getLast? = some name := by
  have hparts : Text.parts '/' name.toList = [name.toList] := Text.parts_of_notMem hname.noSlash
  have hlast : ∃ before, Text.parts '/' (base ++ name).toList = before ++ [name.toList] := by
    rcases h.closed with rfl | ⟨front, rfl⟩
    · exact ⟨[], by rw [String.empty_append, hparts, List.nil_append]⟩
    · refine ⟨Text.parts '/' front.toList, ?_⟩
      rw [String.toList_append, String.toList_append, List.append_assoc, ← hparts]
      exact Text.parts_append _ _
  rcases hlast with ⟨before, hlast⟩
  rw [Text.words_eq, hlast]
  simp [hname.ne_empty]

theorem name_file (h : root.Leads base dir) (hname : IsName name) :
    (Entry.file (base ++ name)).name = name := by
  rw [Entry.name, Entry.path, h.getLast?_words hname]
  rfl

theorem name_directory (h : root.Leads base dir) (hname : IsName name) (count : UInt32) :
    (Entry.directory (base ++ name ++ "/") count).name = name := by
  have hwords : Text.words '/' (base ++ name ++ "/") = Text.words '/' (base ++ name) := by
    have hparts : Text.parts '/' (base ++ name ++ "/").toList =
        Text.parts '/' (base ++ name).toList ++ [[]] := by
      rw [String.toList_append]
      exact Text.parts_append _ _
    rw [Text.words_eq, Text.words_eq, hparts]
    simp
  rw [Entry.name, Entry.path, hwords, h.getLast?_words hname]
  rfl

end Path.Leads

end TreeImage
