import TreeImage.Proofs.Descent
import Mathlib.Data.List.Infix
import Mathlib.Data.List.Nodup

/-!
# The branches of a forest

`Forest.branches` lists the trees at all depths of a forest in pre-order, each of them with the
names of the directories that it is in. What is inside a directory stands in one piece right behind
it. The names that lead into a directory tell it from all others, as long as no two directories side
by side have the same name, and so does the path that is made of them, as long as no name has a
slash in it.
-/

namespace TreeImage

/-- A tree of a forest, at any depth, and the names of the directories that it is in, outermost
first. -/
structure Branch (α : Type) where
  above : List String
  tree : Tree α
  deriving DecidableEq, Repr

namespace Branch

variable {α : Type}

/-- The names that lead into a directory, its own the last. Nothing for a file. -/
def trail? : Branch α → Option (List String)
  | ⟨_, .file _ _⟩ => none
  | ⟨above, .directory name _⟩ => some (above ++ [name])

/-- The number of direct children, nothing for a file. -/
def childCount? : Branch α → Option Nat
  | ⟨_, .file _ _⟩ => none
  | ⟨_, .directory _ children⟩ => some children.length

/-- The entry that a layout has for the branch. -/
def entry : Branch α → Entry
  | ⟨above, .file name _⟩ => .file (Entry.base above ++ name)
  | ⟨above, .directory name children⟩ =>
    .directory (Entry.base (above ++ [name])) (UInt32.ofNat children.length)

end Branch

namespace Entry

theorem base_concat (above : List String) (name : String) :
    base (above ++ [name]) = base above ++ name ++ "/" := by
  induction above with
  | nil => simp [base]
  | cons other above ih => simp only [List.cons_append, base, ih, String.append_assoc]

/-- The names can be read off the path, empty ones too. Behind the last slash there is nothing. -/
theorem parts_base {names : List String} (h : ∀ name ∈ names, '/' ∉ name.toList) :
    Text.parts '/' (base names).toList = names.map String.toList ++ [[]] := by
  induction names with
  | nil => rfl
  | cons name names ih =>
    have hname := h name (List.mem_cons_self ..)
    have hrest := ih fun n hn => h n (List.mem_cons_of_mem _ hn)
    have hslash : (base (name :: names)).toList = name.toList ++ '/' :: (base names).toList := by
      simp [base]
    rw [hslash, Text.parts_append, Text.parts_of_notMem hname, hrest, List.map_cons]
    rfl

theorem eq_of_base_eq {names others : List String} (h : ∀ name ∈ names, '/' ∉ name.toList)
    (hothers : ∀ name ∈ others, '/' ∉ name.toList) (heq : base names = base others) :
    names = others := by
  have hparts := parts_base h
  rw [heq, parts_base hothers] at hparts
  have hlists := (List.append_inj' hparts rfl).1
  exact List.map_injective_iff.mpr (fun _ _ => String.toList_inj.mp) hlists.symm

end Entry

namespace Forest

variable {α : Type}

/-- The trees at all depths in pre-order, each directory directly before what is inside it. -/
def branches (above : List String) : Forest α → List (Branch α)
  | .nil => []
  | .file name content rest => ⟨above, .file name content⟩ :: rest.branches above
  | .directory name children rest =>
    ⟨above, .directory name children⟩ ::
      (children.branches (above ++ [name]) ++ rest.branches above)

/-- The names of the directories that stand side by side at the top. -/
def directoryTops : Forest α → List String
  | .nil => []
  | .file _ _ rest => rest.directoryTops
  | .directory name _ rest => name :: rest.directoryTops

/-- No two sibling directories have the same name. Files may have that of any sibling. -/
def DirectoriesDistinct : Forest α → Prop
  | .nil => True
  | .file _ _ rest => rest.DirectoriesDistinct
  | .directory name children rest =>
    name ∉ rest.directoryTops ∧ children.DirectoriesDistinct ∧ rest.DirectoriesDistinct

def decideDirectoriesDistinct : (f : Forest α) → Decidable f.DirectoriesDistinct
  | .nil => .isTrue trivial
  | .file _ _ rest => rest.decideDirectoriesDistinct
  | .directory name children rest =>
    have := children.decideDirectoriesDistinct
    have := rest.decideDirectoriesDistinct
    inferInstanceAs (Decidable (name ∉ rest.directoryTops ∧
      children.DirectoriesDistinct ∧ rest.DirectoriesDistinct))

instance (f : Forest α) : Decidable f.DirectoriesDistinct := f.decideDirectoriesDistinct

/-- Induction along the trees that stand side by side, whichever they are. -/
@[elab_as_elim]
theorem consInduction {motive : Forest α → Prop} (nil : motive .nil)
    (cons : ∀ tree rest, motive rest → motive (cons tree rest)) (f : Forest α) : motive f := by
  induction f with
  | nil => exact nil
  | file name content rest ih => exact cons (.file name content) rest ih
  | directory name children rest _ ih => exact cons (.directory name children) rest ih

@[simp] theorem length_cons (tree : Tree α) (rest : Forest α) :
    (cons tree rest).length = rest.length + 1 := by
  cases tree <;> rfl

@[simp] theorem toList_cons (tree : Tree α) (rest : Forest α) :
    (cons tree rest).toList = tree :: rest.toList := by
  cases tree <;> rfl

@[simp] theorem size_cons (tree : Tree α) (rest : Forest α) :
    (cons tree rest).size = tree.children.size + rest.size + 1 := by
  cases tree <;> simp [cons, size, Tree.children]

@[simp] theorem branches_cons (above : List String) (tree : Tree α) (rest : Forest α) :
    (cons tree rest).branches above =
      ⟨above, tree⟩ :: (tree.children.branches (above ++ [tree.name]) ++ rest.branches above) := by
  cases tree <;> rfl

@[simp] theorem length_branches (f : Forest α) (above : List String) :
    (f.branches above).length = f.size := by
  induction f generalizing above with
  | nil => rfl
  | file name content rest ih => simp [branches, size, ih]
  | directory name children rest ihc ih => simp [branches, size, ihc, ih]

theorem map_entry_branches (f : Forest α) (above : List String) :
    (f.branches above).map Branch.entry = f.entries (Entry.base above) := by
  induction f generalizing above with
  | nil => rfl
  | file name content rest ih => simp [branches, entries, Branch.entry, ih]
  | directory name children rest ihc ih =>
    simp only [branches, entries, List.map_cons, List.map_append, Branch.entry, ihc, ih,
      Entry.base_concat]

theorem map_childCount?_branches (f : Forest α) (above : List String) :
    (f.branches above).map Branch.childCount? = f.counts := by
  induction f generalizing above with
  | nil => rfl
  | file name content rest ih => simp [branches, counts, Branch.childCount?, ih]
  | directory name children rest ihc ih => simp [branches, counts, Branch.childCount?, ihc, ih]

theorem countP_branches (f : Forest α) (above : List String) :
    (f.branches above).countP (·.tree.kind = .file) = f.fileCount := by
  induction f generalizing above with
  | nil => rfl
  | file name content rest ih =>
    simp only [branches, fileCount, List.countP_cons, ih]
    rfl
  | directory name children rest ihc ih =>
    simp only [branches, fileCount, List.countP_cons, List.countP_append, ihc, ih]
    rfl

theorem countable_iff (f : Forest α) (above : List String) :
    f.Countable ↔ ∀ branch ∈ f.branches above, branch.tree.children.length < UInt32.size := by
  induction f generalizing above with
  | nil => simp [Countable, branches]
  | file name content rest ih =>
    simp [Countable, branches, Tree.children, length, UInt32.size, ih above]
  | directory name children rest ihc ih =>
    simp [Countable, branches, Tree.children, ihc (above ++ [name]), ih above, or_imp, forall_and]

/-! ## What stands where -/

variable {f : Forest α} {above : List String} {branch : Branch α}

theorem above_isPrefix (h : branch ∈ f.branches above) : above <+: branch.above := by
  induction f generalizing above with
  | nil => cases h
  | file name content rest ih =>
    rcases List.mem_cons.mp h with rfl | h
    · exact List.prefix_refl above
    · exact ih h
  | directory name children rest ihc ih =>
    rcases List.mem_cons.mp h with rfl | h
    · exact List.prefix_refl above
    rcases List.mem_append.mp h with h | h
    · exact (List.prefix_append above [name]).trans (ihc h)
    · exact ih h

/-- What is inside a directory is not beside it. -/
theorem above_ne_of_inside {name : String} (h : branch ∈ f.branches (above ++ [name])) :
    branch.above ≠ above := by
  intro heq
  have hlength := (above_isPrefix h).length_le
  rw [heq, List.length_append, List.length_singleton] at hlength
  omega

/-- The branches of the forest stand in a list from `index` on, one behind the other. -/
def StandsAt (f : Forest α) (above : List String) (all : List (Branch α)) (index : Nat) : Prop :=
  f.branches above <+: all.drop index

/-- Right behind a directory stands what is inside it. -/
theorem standsAt_of_getElem? {index : Nat} {names : List String} {name : String}
    {children : Forest α}
    (h : (f.branches above)[index]? = some ⟨names, .directory name children⟩) :
    children.StandsAt (names ++ [name]) (f.branches above) (index + 1) := by
  unfold StandsAt
  induction f generalizing above index with
  | nil => cases h
  | file other content rest ih =>
    cases index with
    | zero => cases h
    | succ index => exact ih h
  | directory other inner rest ihc ih =>
    cases index with
    | zero =>
      cases h
      exact List.prefix_append _ _
    | succ index =>
      rw [branches, List.getElem?_cons_succ] at h
      rw [branches, List.drop_succ_cons]
      rcases Nat.lt_or_ge index (inner.branches (above ++ [other])).length with hlt | hge
      · rw [List.getElem?_append_left hlt] at h
        rw [List.drop_append_of_le_length hlt]
        exact (ihc h).trans (List.prefix_append _ _)
      · rw [List.getElem?_append_right hge] at h
        have hdrop : index - (inner.branches (above ++ [other])).length + 1 =
            index + 1 - (inner.branches (above ++ [other])).length := by omega
        rw [List.drop_append, List.drop_eq_nil_of_le (by omega), List.nil_append, ← hdrop]
        exact ih h

namespace StandsAt

variable {all : List (Branch α)} {index : Nat}

theorem getElem? (h : f.StandsAt above all index) {place : Nat} (hplace : place < f.size) :
    all[index + place]? = (f.branches above)[place]? := by
  obtain ⟨behind, hall⟩ := h
  rw [← List.getElem?_drop, ← hall, List.getElem?_append_left (by simpa using hplace)]

theorem mem_of_getElem? (h : f.StandsAt above all index) {place : Nat} (hle : index ≤ place)
    (hlt : place < index + f.size) (hbranch : all[place]? = some branch) :
    branch ∈ f.branches above := by
  have hat := h.getElem? (show place - index < f.size by omega)
  rw [Nat.add_sub_cancel' hle, hbranch] at hat
  exact List.mem_of_getElem? hat.symm

/-- Behind its first tree stands what is inside that one, and then the others. -/
theorem of_cons {tree : Tree α} {rest : Forest α} (h : (cons tree rest).StandsAt above all index) :
    all[index]? = some ⟨above, tree⟩ ∧
      tree.children.StandsAt (above ++ [tree.name]) all (index + 1) ∧
      rest.StandsAt above all (index + 1 + tree.children.size) := by
  unfold StandsAt at h
  rw [branches_cons] at h
  have hinside := List.IsPrefix.drop h 1
  rw [List.drop_succ_cons, List.drop_zero, List.drop_drop] at hinside
  refine ⟨?_, (List.prefix_append _ _).trans hinside, ?_⟩
  · obtain ⟨behind, hall⟩ := h
    rw [← Nat.add_zero index, ← List.getElem?_drop, ← hall]
    rfl
  · have hbehind := List.IsPrefix.drop hinside tree.children.size
    rwa [List.drop_drop, List.drop_left' (length_branches ..)] at hbehind

end StandsAt

/-! ## Telling directories by their names -/

/-- The names that lead into the directories, in pre-order. -/
def trails (above : List String) (f : Forest α) : List (List String) :=
  (f.branches above).filterMap Branch.trail?

@[simp] theorem trails_nil : (.nil : Forest α).trails above = [] := rfl

@[simp] theorem trails_file (name : String) (content : α) (rest : Forest α) :
    (Forest.file name content rest).trails above = rest.trails above := rfl

@[simp] theorem trails_directory (name : String) (children rest : Forest α) :
    (Forest.directory name children rest).trails above =
      (above ++ [name]) :: (children.trails (above ++ [name]) ++ rest.trails above) := by
  simp [trails, branches, Branch.trail?]

variable {trail : List String}

/-- Into a directory leads a directory at the top. -/
theorem exists_isPrefix_of_mem_trails (h : trail ∈ f.trails above) :
    ∃ name ∈ f.directoryTops, above ++ [name] <+: trail := by
  induction f generalizing above with
  | nil => cases h
  | file name content rest ih => exact ih h
  | directory name children rest ihc ih =>
    rw [trails_directory, List.mem_cons, List.mem_append] at h
    rcases h with rfl | h | h
    · exact ⟨name, List.mem_cons_self .., List.prefix_refl _⟩
    · obtain ⟨inner, -, hprefix⟩ := ihc h
      exact ⟨name, List.mem_cons_self .., (List.prefix_append _ _).trans hprefix⟩
    · obtain ⟨other, hother, hprefix⟩ := ih h
      exact ⟨other, List.mem_cons_of_mem _ hother, hprefix⟩

theorem notMem_trails (f : Forest α) (above : List String) : above ∉ f.trails above := by
  intro h
  obtain ⟨name, -, hprefix⟩ := exists_isPrefix_of_mem_trails h
  have hlength := hprefix.length_le
  rw [List.length_append, List.length_singleton] at hlength
  omega

theorem mem_of_mem_trails (h : trail ∈ f.trails above) :
    ∀ name ∈ trail, name ∈ above ∨ name ∈ f.names := by
  induction f generalizing above with
  | nil => cases h
  | file name content rest ih =>
    exact fun n hn => (ih h n hn).imp_right (List.mem_cons_of_mem _)
  | directory name children rest ihc ih =>
    rw [trails_directory, List.mem_cons, List.mem_append] at h
    rw [names]
    intro n hn
    rcases h with rfl | h | h
    · rw [List.mem_append, List.mem_singleton] at hn
      rcases hn with habove | rfl
      · exact .inl habove
      · exact .inr (List.mem_cons_self ..)
    · have hinner := ihc h n hn
      rw [List.mem_append, List.mem_singleton] at hinner
      rcases hinner with (habove | rfl) | hinner
      · exact .inl habove
      · exact .inr (List.mem_cons_self ..)
      · exact .inr (List.mem_cons_of_mem _ (List.mem_append_left _ hinner))
    · exact (ih h n hn).imp_right fun hrest =>
        List.mem_cons_of_mem _ (List.mem_append_right _ hrest)

/-- Where sibling directories have different names, names lead into one directory at most. -/
theorem nodup_trails (h : f.DirectoriesDistinct) (above : List String) :
    (f.trails above).Nodup := by
  induction f generalizing above with
  | nil => exact List.nodup_nil
  | file name content rest ih => exact ih h above
  | directory name children rest ihc ih =>
    obtain ⟨hname, hchildren, hrest⟩ := h
    -- A later sibling has another name, and so everything in it another one at this place.
    have hlater : ∀ trail ∈ rest.trails above, ¬above ++ [name] <+: trail := by
      intro trail htrail hprefix
      obtain ⟨other, hother, hprefix'⟩ := exists_isPrefix_of_mem_trails htrail
      have heq := List.prefix_of_prefix_length_le hprefix hprefix' (by simp)
      have hsame : name = other := by simpa using heq
      exact hname (hsame ▸ hother)
    rw [trails_directory, List.nodup_cons, List.nodup_append]
    refine ⟨?_, ihc hchildren _, ih hrest above, ?_⟩
    · rw [List.mem_append, not_or]
      exact ⟨children.notMem_trails _, fun hmem => hlater _ hmem (List.prefix_refl _)⟩
    · rintro trail hinner _ hbeside rfl
      obtain ⟨inner, -, hprefix⟩ := exists_isPrefix_of_mem_trails hinner
      exact hlater trail hbeside ((List.prefix_append _ _).trans hprefix)

/-- The paths tell the directories apart, that of the root included. -/
theorem nodup_paths (h : f.DirectoriesDistinct) (hslash : ∀ name ∈ f.names, '/' ∉ name.toList) :
    (([] :: f.trails []).map Entry.base).Nodup := by
  have hnames : ∀ trail ∈ [] :: f.trails [], ∀ name ∈ trail, '/' ∉ name.toList := by
    intro trail htrail name hname
    rcases List.mem_cons.mp htrail with rfl | htrail
    · cases hname
    · rcases mem_of_mem_trails htrail name hname with habove | hmem
      · cases habove
      · exact hslash name hmem
  apply List.Nodup.map_on
  · intro trail htrail other hother heq
    exact Entry.eq_of_base_eq (hnames trail htrail) (hnames other hother) heq
  · exact List.nodup_cons.mpr ⟨f.notMem_trails [], nodup_trails h []⟩

end Forest

/-- The directories of a tree, the root and those below it: the names that lead into one from the
root, the position behind its own one in pre-order, and what is in it. -/
inductive Tree.HasDirectory {α : Type} (root : Tree α) : List String → Nat → Forest α → Prop
  | root : HasDirectory root [] 0 root.children
  | inside {index : Nat} {above : List String} {name : String} {children : Forest α} :
      (root.children.branches [])[index]? = some ⟨above, .directory name children⟩ →
      HasDirectory root (above ++ [name]) (index + 1) children

/-- What is in a directory stands from its first position on. -/
theorem Tree.HasDirectory.standsAt {α : Type} {root : Tree α} {names : List String}
    {first : Nat} {below : Forest α} (h : root.HasDirectory names first below) :
    below.StandsAt names (root.children.branches []) first := by
  cases h with
  | root => exact List.prefix_refl _
  | inside hbranch => exact Forest.standsAt_of_getElem? hbranch

end TreeImage
