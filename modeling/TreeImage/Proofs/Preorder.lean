import TreeImage.Forest
import TreeImage.Record

/-!
# Pre-orders

The records of an image hold no nesting. A directory only says how many trees follow it, and the
forest is its records in pre-order. Here it is said which sequences of records are the pre-order of
a forest, without reading them. The counts alone cut a sequence up: with a given number of trees, it
begins with the pre-order of no more than one forest, whatever stands behind it.
-/

namespace TreeImage

/-- Where the contents of a file lie in the data region. -/
structure Extent where
  offset : UInt32
  length : UInt32
  deriving DecidableEq, Repr

namespace Forest

variable {α β : Type}

/-- The forest with other contents in its files. -/
def map (f : α → β) : Forest α → Forest β
  | .nil => .nil
  | .file name content rest => .file name (f content) (rest.map f)
  | .directory name children rest => .directory name (children.map f) (rest.map f)

/-- The numbers of direct children in pre-order, with nothing for a file. -/
def counts : Forest α → List (Option Nat)
  | .nil => []
  | .file _ _ rest => none :: rest.counts
  | .directory _ children rest => some children.length :: (children.counts ++ rest.counts)

@[simp] theorem length_map (f : α → β) (g : Forest α) : (g.map f).length = g.length := by
  induction g with
  | nil => rfl
  | file name content rest ih => simp [map, length, ih]
  | directory name children rest _ ih => simp [map, length, ih]

@[simp] theorem counts_map (f : α → β) (g : Forest α) : (g.map f).counts = g.counts := by
  induction g with
  | nil => rfl
  | file name content rest ih => simp [map, counts, ih]
  | directory name children rest ihc ih => simp [map, counts, ihc, ih]

end Forest

namespace Record

/-- The number of direct children, nothing for a file. -/
def childCount? : Record → Option Nat
  | .file _ _ _ => none
  | .directory children _ _ => some children.toNat

/-- The records are the forest in pre-order: a file stands for itself, and a directory is followed
by as many trees as it says. -/
inductive Preorder : List Record → Forest Extent → Prop
  | nil : Preorder [] .nil
  | file {records : List Record} {rest : Forest Extent} (offset : UInt32) (name : String)
      (length : UInt32) : Preorder records rest →
      Preorder (.file offset name length :: records) (.file name ⟨offset, length⟩ rest)
  | directory {inner outer : List Record} {children rest : Forest Extent} (count : UInt32)
      (name : String) (blockCount : UInt32) : children.length = count.toNat →
      Preorder inner children → Preorder outer rest →
      Preorder (.directory count name blockCount :: (inner ++ outer))
        (.directory name children rest)

namespace Preorder

variable {records : List Record} {f g : Forest Extent}

theorem counts_eq (h : Preorder records f) : f.counts = records.map childCount? := by
  induction h with
  | nil => rfl
  | file offset name length _ ih => simp [Forest.counts, childCount?, ih]
  | directory count name blockCount hcount _ _ ihc ih =>
    simp [Forest.counts, childCount?, hcount, ihc, ih]

/-- A sequence begins with the pre-order of no more than one forest of a given length. -/
theorem unique {front front' rest rest' : List Record} (hf : Preorder front f)
    (hg : Preorder front' g) (hlength : f.length = g.length)
    (h : front ++ rest = front' ++ rest') : f = g ∧ front = front' ∧ rest = rest' := by
  -- The children of a directory are followed by the trees after it, so the rests must be arbitrary.
  induction hf generalizing front' g rest rest' with
  | nil =>
    cases hg with
    | nil => exact ⟨rfl, rfl, h⟩
    | file => simp [Forest.length] at hlength
    | directory => simp [Forest.length] at hlength
  | @file records others offset name length _ ih =>
    cases hg with
    | nil => simp [Forest.length] at hlength
    | @file records' others' offset' name' length' hrest =>
      simp only [List.cons_append, List.cons.injEq, Record.file.injEq] at h
      rcases h with ⟨⟨rfl, rfl, rfl⟩, h⟩
      obtain ⟨rfl, rfl, hbehind⟩ := ih hrest (by simpa [Forest.length] using hlength) h
      exact ⟨rfl, rfl, hbehind⟩
    | directory => simp at h
  | @directory inner outer children others count name blockCount hcount _ _ ihc ih =>
    cases hg with
    | nil => simp [Forest.length] at hlength
    | file => simp at h
    | @directory inner' outer' children' others' count' name' blockCount' hcount' hinner houter =>
      simp only [List.cons_append, List.cons.injEq, Record.directory.injEq,
        List.append_assoc] at h
      rcases h with ⟨⟨rfl, rfl, rfl⟩, h⟩
      obtain ⟨rfl, rfl, hbehind⟩ := ihc hinner (hcount.trans hcount'.symm) h
      obtain ⟨rfl, rfl, hrest⟩ := ih houter (by simpa [Forest.length] using hlength) hbehind
      exact ⟨rfl, rfl, hrest⟩

theorem eq_of_length_eq (hf : Preorder records f) (hg : Preorder records g)
    (h : f.length = g.length) : f = g :=
  (hf.unique hg h (rfl : records ++ [] = records ++ [])).1

end Preorder

/-- Records whose counts are those of a forest are a pre-order. -/
theorem exists_preorder {α : Type} {g : Forest α} {records : List Record}
    (h : g.counts = records.map childCount?) :
    ∃ f, f.length = g.length ∧ Preorder records f := by
  induction g generalizing records with
  | nil =>
    cases records with
    | nil => exact ⟨.nil, rfl, .nil⟩
    | cons => simp [Forest.counts] at h
  | file name content rest ih =>
    cases records with
    | nil => simp [Forest.counts] at h
    | cons record records =>
      simp only [Forest.counts, List.map_cons, List.cons.injEq] at h
      obtain ⟨f, hlength, hf⟩ := ih h.2
      cases record with
      | file offset name length =>
        exact ⟨_, by simp [Forest.length, hlength], .file offset name length hf⟩
      | directory => simp [childCount?] at h
  | directory name children rest ihc ih =>
    cases records with
    | nil => simp [Forest.counts] at h
    | cons record records =>
      simp only [Forest.counts, List.map_cons, List.cons.injEq] at h
      rcases h with ⟨hcount, hrest⟩
      obtain ⟨inner, outer, rfl, hinner, houter⟩ := List.map_eq_append_iff.mp hrest.symm
      obtain ⟨c, hc, hpre⟩ := ihc hinner.symm
      obtain ⟨f, hlength, hf⟩ := ih houter.symm
      cases record with
      | file => simp [childCount?] at hcount
      | directory count name blockCount =>
        have hchildren : c.length = count.toNat := by
          rw [hc]
          simpa [childCount?] using hcount
        exact ⟨_, by simp [Forest.length, hlength],
          .directory count name blockCount hchildren hpre hf⟩

end Record

end TreeImage
