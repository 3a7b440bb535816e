import TreeImage.Store
import TreeImage.Proofs.Naming

/-!
# Addresses of entries

The components of a path do not change where a name is joined onto it, and the name becomes one more
component. So the address of an entry is that of its directory with the name in front. This holds of
names that stand for themselves: `.` and `..` are other components.
-/

namespace TreeImage

/-- Bytes that are a component of their own, so that they lead down. -/
structure Component.IsNormal (name : Bytes) : Prop where
  ne_nil : name ≠ []
  noSlash : Path.slash ∉ name
  ofPart : Component.ofPart name = .normal name

theorem Component.IsNormal.ne_dot {name : Bytes} (h : IsNormal name) : name ≠ Path.dot := by
  rintro rfl
  have hdot : Component.here = .normal Path.dot := h.ofPart
  cases hdot

/-- A name that leads down when it is written as bytes. -/
structure IsNormal (name : String) : Prop extends IsName name where
  ofPart : Component.ofPart (Text.utf8 name) = .normal (Text.utf8 name)

theorem IsNormal.utf8 {name : String} (h : IsNormal name) :
    Component.IsNormal (Text.utf8 name) :=
  ⟨Text.utf8_ne_nil h.ne_empty, h.toIsName.slash_notMem_utf8, h.ofPart⟩

theorem IsNormal.of_ne {name : String} (h : IsName name) (hhere : name ≠ ".") (hup : name ≠ "..") :
    IsNormal name := by
  refine ⟨h, ?_⟩
  have hdot : Text.utf8 name ≠ Path.dot := mt (Text.utf8_injective (t := ".")) hhere
  have hdotDot : Text.utf8 name ≠ Path.dotDot := mt (Text.utf8_injective (t := "..")) hup
  rw [Component.ofPart, if_neg hdot, if_neg hdotDot]

/-- What a component is listed as leads down too, even if it leads elsewhere. -/
theorem Component.IsNormal.listed {name : Bytes} (h : IsNormal name) :
    TreeImage.IsNormal (Text.ofUtf8Lossy name) := by
  have hascii : (∀ c ∈ (Text.ofUtf8Lossy name).toList, c.toNat < 0x80) →
      Text.utf8 (Text.ofUtf8Lossy name) = name := Text.utf8_ofUtf8Lossy_of_ascii
  refine .of_ne ⟨Text.ofUtf8Lossy_ne_empty h.ne_nil, ?_⟩ ?_ ?_
  · exact fun hmem => h.noSlash (Text.mem_of_mem_ofUtf8Lossy (by decide) hmem)
  · intro hdot
    have hname := hascii (by simp [hdot])
    rw [hdot] at hname
    exact h.ne_dot hname.symm
  · intro hdots
    have hname := hascii (by simp [hdots])
    obtain rfl : name = Path.dotDot := by rw [← hname, hdots]; rfl
    have hup : Component.up = .normal Path.dotDot := h.ofPart
    cases hup

theorem Component.eq_of_ofPart {part name : Bytes} (h : ofPart part = .normal name) :
    part = name := by
  unfold ofPart at h
  split at h
  · cases h
  · split at h
    · cases h
    · cases h
      rfl

namespace Path

/-- The components of a path that is cut into these parts. -/
def componentsOf (first : Bytes) (others : List Bytes) : List Component :=
  (if first ≠ [] then [Component.ofPart first] else if others = [] then [] else [Component.root]) ++
    (others.filter fun part => part ≠ [] ∧ part ≠ dot).map Component.ofPart

theorem components_of_parts {p : Path} {first : Bytes} {others : List Bytes}
    (h : Text.parts slash p.bytes = first :: others) :
    p.components = componentsOf first others := by
  simp only [Text.parts, List.cons.injEq] at h
  simp only [components, componentsOf, h.1, h.2]

variable {name : Bytes}

theorem filter_normal (h : Component.IsNormal name) (others : List Bytes) :
    ((others ++ [name]).filter fun part => part ≠ [] ∧ part ≠ dot).map Component.ofPart =
      (others.filter fun part => part ≠ [] ∧ part ≠ dot).map Component.ofPart ++
        [.normal name] := by
  simp [List.filter_append, h.ne_nil, h.ne_dot, h.ofPart]

/-- One more part is one more component, behind parts that are those of some path. -/
theorem componentsOf_append (h : Component.IsNormal name) {first : Bytes} {others : List Bytes}
    (hsome : first ≠ [] ∨ others ≠ []) :
    componentsOf first (others ++ [name]) = componentsOf first others ++ [.normal name] := by
  unfold componentsOf
  rw [filter_normal h, List.append_assoc]
  congr 1
  by_cases hfirst : first = []
  · rcases hsome with hne | hne
    · exact absurd hfirst hne
    · simp [hfirst, hne]
  · simp [hfirst]

/-- An empty part behind others is none. -/
theorem componentsOf_trailing (h : Component.IsNormal name) (first : Bytes)
    (others : List Bytes) :
    componentsOf first (others ++ [name]) =
      componentsOf first (others ++ [[]]) ++ [.normal name] := by
  unfold componentsOf
  rw [filter_normal h, List.filter_append, ← List.append_assoc]
  simp

/-- Only the empty path is cut into nothing but an empty part. -/
theorem ne_nil_of_parts {p : Path} (h : p.bytes ≠ []) {first : Bytes} {others : List Bytes}
    (hcut : Text.parts slash p.bytes = first :: others) : first ≠ [] ∨ others ≠ [] := by
  by_cases hothers : others = []
  · refine .inl fun hempty => h ?_
    rw [hempty, hothers] at hcut
    exact Text.eq_nil_of_parts hcut
  · exact .inr hothers

theorem components_of_empty (h : Component.IsNormal name) :
    (Path.mk name).components = [.normal name] := by
  rw [components_of_parts (p := ⟨name⟩) (Text.parts_of_notMem h.noSlash)]
  simp [componentsOf, h.ne_nil, h.ofPart]

theorem components_behind_slash {p : Path} (h : Component.IsNormal name)
    (hslash : p.bytes.getLast? = some slash) :
    (Path.mk (p.bytes ++ name)).components = p.components ++ [.normal name] := by
  have hname : Text.parts slash name = [name] := Text.parts_of_notMem h.noSlash
  obtain ⟨front, hfront⟩ := List.getLast?_eq_some_iff.mp hslash
  obtain ⟨first, others, hcut⟩ : ∃ first others, Text.parts slash front = first :: others :=
    ⟨_, _, rfl⟩
  have hparts : Text.parts slash p.bytes = first :: (others ++ [[]]) := by
    rw [hfront, Text.parts_append, hcut]
    rfl
  have hjoined : Text.parts slash (Path.mk (p.bytes ++ name)).bytes =
      first :: (others ++ [name]) := by
    rw [hfront, List.append_assoc, List.singleton_append, Text.parts_append, hcut, hname]
    rfl
  rw [components_of_parts hparts, components_of_parts hjoined]
  exact componentsOf_trailing h _ _

theorem components_with_slash {p : Path} (h : Component.IsNormal name) (hne : p.bytes ≠ []) :
    (Path.mk (p.bytes ++ [slash] ++ name)).components = p.components ++ [.normal name] := by
  have hname : Text.parts slash name = [name] := Text.parts_of_notMem h.noSlash
  obtain ⟨first, others, hcut⟩ : ∃ first others, Text.parts slash p.bytes = first :: others :=
    ⟨_, _, rfl⟩
  have hjoined : Text.parts slash (Path.mk (p.bytes ++ [slash] ++ name)).bytes =
      first :: (others ++ [name]) := by
    rw [List.append_assoc, List.singleton_append, Text.parts_append, hcut, hname]
    rfl
  rw [components_of_parts hcut, components_of_parts hjoined]
  exact componentsOf_append h (ne_nil_of_parts hne hcut)

/-- One more name behind the stem of a path is one more component. -/
theorem components_stem (p : Path) (h : Component.IsNormal name) :
    (Path.mk (p.stem ++ name)).components = p.components ++ [.normal name] := by
  rw [stem]
  split
  · next hbare =>
    rcases hbare with hempty | hslash
    · have hnone : p.components = [] := by
        rcases p with ⟨bytes⟩
        subst hempty
        rfl
      rw [hempty, List.nil_append, hnone]
      exact components_of_empty h
    · exact components_behind_slash h hslash
  · next hbare => exact components_with_slash h fun hempty => hbare (.inl hempty)

/-- The name becomes one more component, as the bytes it is written with. -/
theorem address_join (p : Path) {name : String} (h : IsNormal name) :
    (p.join name).address = .normal (Text.utf8 name) :: p.address := by
  rw [address, h.toIsName.join_eq, components_stem p h.utf8, List.reverse_append]
  rfl

/-- Only the empty path has no components. -/
theorem address_ne_nil {p : Path} (h : p.bytes ≠ []) : p.address ≠ [] := by
  obtain ⟨first, others, hcut⟩ : ∃ first others, Text.parts slash p.bytes = first :: others :=
    ⟨_, _, rfl⟩
  rw [address, Ne, List.reverse_eq_nil_iff, components_of_parts hcut, componentsOf,
    List.append_eq_nil_iff]
  rcases ne_nil_of_parts h hcut with hfirst | hothers
  · simp [hfirst]
  · by_cases hfirst : first = []
    · simp [hfirst, hothers]
    · simp [hfirst]

/-- A name is one of the parts that its path is cut into. -/
theorem mem_parts_of_mem_components {p : Path} (h : .normal name ∈ p.components) :
    name ∈ Text.parts slash p.bytes ∧ Component.IsNormal name := by
  obtain ⟨first, others, hcut⟩ : ∃ first others, Text.parts slash p.bytes = first :: others :=
    ⟨_, _, rfl⟩
  have hpart : ∃ part ∈ first :: others, part ≠ [] ∧ Component.ofPart part = .normal name := by
    rw [components_of_parts hcut, componentsOf, List.mem_append] at h
    rcases h with h | h
    · split at h
      · next hfirst =>
        exact ⟨first, List.mem_cons_self .., hfirst, (List.mem_singleton.mp h).symm⟩
      · split at h
        · cases h
        · cases List.mem_singleton.mp h
    · obtain ⟨part, hpart, hname⟩ := List.mem_map.mp h
      rw [List.mem_filter, decide_eq_true_eq] at hpart
      exact ⟨part, List.mem_cons_of_mem _ hpart.1, hpart.2.1, hname⟩
  obtain ⟨part, hmem, hne, hname⟩ := hpart
  obtain rfl := Component.eq_of_ofPart hname
  rw [← hcut] at hmem
  exact ⟨hmem, hne, Text.notMem_of_mem_parts hmem, hname⟩

theorem isNormal_of_mem_address {p : Path} (h : .normal name ∈ p.address) :
    Component.IsNormal name :=
  (mem_parts_of_mem_components (List.mem_reverse.mp h)).2

theorem isUtf8_of_mem_address {p : Path} (htext : p.IsText) (h : .normal name ∈ p.address) :
    Text.IsUtf8 name :=
  Text.isUtf8_of_mem_parts htext (mem_parts_of_mem_components (List.mem_reverse.mp h)).1

theorem isText_ofText (text : String) : (ofText text).IsText := ⟨text, rfl⟩

end Path

/-- Addresses under two names are different. -/
theorem Address.eq_of_suffix {above address : Address} {name other : String}
    (h : .normal (Text.utf8 name) :: above <:+ address)
    (h' : .normal (Text.utf8 other) :: above <:+ address) : name = other := by
  have heq := List.suffix_of_suffix_length_le h h' (by simp)
  have hcons := heq.eq_of_length (by simp)
  exact Text.utf8_injective (by simpa using hcons)

end TreeImage
