import TreeImage.Proofs.Branches

/-!
# The spans of a plan

A planned layout describes its tree. Its entries are the branches of the tree in pre-order, and its
spans say of every directory where the entries inside it stand. Spans are found by path. So the
paths must tell the directories apart, and they do if no name has a slash in it and no two sibling
directories have the same name. Then the direct children of a directory are found by hopping from
one entry to the next, over all that is inside it.
-/

namespace TreeImage

/-- What a layout says of a branch at `index`, if it is a directory: its path, and that the entries
inside it stand right behind its own one. -/
def Branch.span? {α : Type} (index : Nat) : Branch α → Option (String × Span)
  | ⟨_, .file _ _⟩ => none
  | ⟨above, .directory name children⟩ =>
    some (Entry.base (above ++ [name]),
      ⟨index + 1, index + 1 + children.size, UInt32.ofNat children.length⟩)

namespace Branch

variable {α : Type}

/-- The spans of branches that stand from `index` on. -/
def spans (index : Nat) (branches : List (Branch α)) : List (String × Span) :=
  (branches.zipIdx index).filterMap fun (branch, place) => branch.span? place

@[simp] theorem spans_nil (index : Nat) : spans index ([] : List (Branch α)) = [] := rfl

@[simp] theorem spans_file (index : Nat) (above : List String) (name : String) (content : α)
    (branches : List (Branch α)) :
    spans index (⟨above, .file name content⟩ :: branches) = spans (index + 1) branches := rfl

@[simp] theorem spans_directory (index : Nat) (above : List String) (name : String)
    (children : Forest α) (branches : List (Branch α)) :
    spans index (⟨above, .directory name children⟩ :: branches) =
      (Entry.base (above ++ [name]),
        ⟨index + 1, index + 1 + children.size, UInt32.ofNat children.length⟩) ::
        spans (index + 1) branches := rfl

@[simp] theorem spans_append (index : Nat) (branches others : List (Branch α)) :
    spans index (branches ++ others) =
      spans index branches ++ spans (index + branches.length) others := by
  simp [spans, List.zipIdx_append]

/-- The spans are kept for the paths of the directories. -/
theorem map_fst_spans (index : Nat) (branches : List (Branch α)) :
    (spans index branches).map Prod.fst = (branches.filterMap trail?).map Entry.base := by
  induction branches generalizing index with
  | nil => rfl
  | cons branch branches ih =>
    rcases branch with ⟨above, ⟨name, content⟩ | ⟨name, children⟩⟩
    · exact ih (index + 1)
    · rw [spans_directory, List.map_cons, ih]
      rfl

theorem mem_spans {index : Nat} {above : List String} {name : String} {children : Forest α}
    {branches : List (Branch α)}
    (h : branches[index]? = some ⟨above, .directory name children⟩) :
    (Entry.base (above ++ [name]),
      ⟨index + 1, index + 1 + children.size, UInt32.ofNat children.length⟩) ∈
        spans 0 branches :=
  List.mem_filterMap.mpr ⟨(_, index), List.mk_mem_zipIdx_iff_getElem?.mpr h, rfl⟩

end Branch

/-! ## Planning -/

theorem Layout.shiftedSpans_ofDirectory (offset : Nat) (path : String) (childCount : UInt32)
    (inner : Layout) :
    (ofDirectory path childCount inner).shiftedSpans offset =
      (path, ⟨offset + 1, offset + 1 + inner.entries.length, childCount⟩) ::
        inner.shiftedSpans (offset + 1) := by
  simp [ofDirectory, shiftedSpans, Span.shift, Function.comp_def, Nat.add_comm,
    Nat.add_left_comm]

/-- The spans of a forest that is laid out behind `offset` other entries. -/
theorem Forest.perm_spans_of_flatten {α : Type} {f : Forest α} {above : List String} {l : Layout}
    (h : f.flatten (Entry.base above) = .ok l) (offset : Nat) :
    (l.shiftedSpans offset).Perm (Branch.spans offset (f.branches above)) := by
  induction f generalizing above l offset with
  | nil =>
    cases h
    exact .refl _
  | file name content rest ih =>
    obtain ⟨others, hothers, rfl⟩ := flatten_file_eq_ok_iff.mp h
    rw [Layout.shiftedSpans_append, branches, Branch.spans_file, Nat.add_comm offset]
    simpa [Layout.ofFile, Layout.shiftedSpans] using ih hothers (1 + offset)
  | directory name children rest ihc ih =>
    obtain ⟨childCount, inner, others, hcount, hinner, hothers, rfl⟩ :=
      flatten_directory_eq_ok_iff.mp h
    have hsize : inner.entries.length = children.size := by
      rw [(flatten_eq_ok hinner).2.1, length_entries]
    rw [← Entry.base_concat] at hinner
    have hchildren := ihc hinner (offset + 1)
    have hrest := ih hothers (offset + 1 + children.size)
    have hbehind : children.size + 1 + offset = offset + 1 + children.size := by omega
    rw [Layout.shiftedSpans_append, Layout.shiftedSpans_ofDirectory, Layout.entries_ofDirectory,
      List.length_cons, hsize, Field.eq_ofNat_of_fit hcount, ← Entry.base_concat, branches,
      Branch.spans_directory, Branch.spans_append, length_branches, hbehind]
    exact List.perm_append_comm.trans ((hchildren.append hrest).cons _)

namespace Tree

variable {α : Type} {root : Tree α} {l : Layout}

/-- A tree is planned just if the children of every directory can be counted in 32 bits. -/
theorem exists_plan_iff (root : Tree α) :
    (∃ l, root.plan = .ok l) ↔
      root.children.Countable ∧ root.children.length < UInt32.size := by
  constructor
  · rintro ⟨l, h⟩
    obtain ⟨hcountable, -, -, hroots⟩ := plan_eq_ok h
    exact ⟨hcountable, hroots ▸ l.rootEntries.toNat_lt⟩
  · rintro ⟨hcountable, hlength⟩
    rcases root.children.flatten_ok_or_unstorable "" with ⟨inner, hinner⟩ | ⟨_, -, -, hnot⟩
    · have hcount : (UInt32.ofNat root.children.length).toNat = root.children.length :=
        UInt32.toNat_ofNat_of_lt' hlength
      have hfit : Field.childCount.fit "" root.children.length = .ok _ :=
        Field.fit_eq_ok_iff.mpr hcount
      exact ⟨_, by rw [plan, hinner, hfit]; rfl⟩
    · exact absurd hcountable hnot

theorem perm_spans_of_plan (h : root.plan = .ok l) :
    l.spans.Perm (("", ⟨0, root.children.size, UInt32.ofNat root.children.length⟩) ::
      Branch.spans 0 (root.children.branches [])) := by
  obtain ⟨inner, childCount, hinner, hcount, rfl⟩ := exists_flatten_of_plan h
  have hsize : inner.entries.length = root.children.size := by
    rw [(Forest.flatten_eq_ok hinner).2.1, Forest.length_entries]
  have hinside : (inner.shiftedSpans 0).Perm (Branch.spans 0 (root.children.branches [])) :=
    Forest.perm_spans_of_flatten hinner 0
  have hsame : inner.shiftedSpans 0 = inner.spans := by simp [Layout.shiftedSpans, Span.shift]
  rw [hsize, Field.eq_ofNat_of_fit hcount]
  exact (hsame ▸ hinside).cons _

theorem plan_fails_iff (root : Tree α) :
    (∃ failure, root.plan = .error failure) ↔
      ∃ names first below, root.HasDirectory names first below ∧ UInt32.size ≤ below.length := by
  have hfails : (∃ failure, root.plan = .error failure) ↔ ¬∃ l, root.plan = .ok l := by
    cases root.plan <;> simp
  rw [hfails, exists_plan_iff, Forest.countable_iff _ []]
  constructor
  · intro hnot
    rcases Nat.lt_or_ge root.children.length UInt32.size with hlength | hlarge
    · have hbranch : ∃ branch ∈ root.children.branches [],
          UInt32.size ≤ branch.tree.children.length := by
        simpa [hlength] using hnot
      obtain ⟨⟨above, ⟨name, content⟩ | ⟨name, children⟩⟩, hmem, hlarge⟩ := hbranch
      · exact absurd hlarge (Nat.not_le.mpr (by decide : 0 < UInt32.size))
      · obtain ⟨index, hindex⟩ := List.mem_iff_getElem?.mp hmem
        exact ⟨_, _, children, .inside hindex, hlarge⟩
    · exact ⟨_, _, _, .root, hlarge⟩
  · rintro ⟨names, first, below, hdirectory, hlarge⟩ ⟨hcountable, hlength⟩
    cases hdirectory with
    | root => exact absurd hlength (Nat.not_lt.mpr hlarge)
    | inside hbranch =>
      exact absurd (hcountable _ (List.mem_of_getElem? hbranch)) (Nat.not_lt.mpr hlarge)

theorem entries_of_plan (h : root.plan = .ok l) :
    l.entries = (root.children.branches []).map Branch.entry := by
  rw [(plan_eq_ok h).2.1, Forest.map_entry_branches]
  rfl

/-- The spans are kept for the paths of the directories, that of the root included. -/
theorem perm_keys_of_plan (h : root.plan = .ok l) :
    (l.spans.map Prod.fst).Perm (([] :: root.children.trails []).map Entry.base) := by
  have hkeys := (perm_spans_of_plan h).map Prod.fst
  rwa [List.map_cons, Branch.map_fst_spans] at hkeys

end Tree

/-! ## Looking up -/

/-- Where no path has two spans, none is left out of the table. -/
theorem Layout.spanTable_eq {l : Layout} (h : (l.spans.map Prod.fst).Nodup) :
    l.spanTable = l.spans := by
  unfold spanTable
  generalize l.spans = rows at h
  induction rows with
  | nil => rfl
  | cons row rows ih =>
    rw [List.map_cons, List.nodup_cons] at h
    have hothers : rows.filter (fun other => (other.1 == row.1) = false) = rows := by
      apply List.filter_eq_self.mpr
      intro other hother
      have hne : other.1 ≠ row.1 := fun heq => h.1 (heq ▸ List.mem_map_of_mem hother)
      simp [hne]
    rw [List.eraseDupsBy_cons, hothers, ih h.2]

namespace Tree

variable {α : Type} {root : Tree α} {l : Layout}

/-- Where no two directories have one path, the span of each is the one found for its path. -/
theorem HasDirectory.span? {names : List String} {first : Nat} {below : Forest α}
    (hdirectory : root.HasDirectory names first below) (h : root.plan = .ok l)
    (hkeys : (l.spans.map Prod.fst).Nodup) :
    l.span? (Entry.base names) =
      some ⟨first, first + below.size, UInt32.ofNat below.length⟩ := by
  rw [Layout.span?, lookup_eq_some_iff_mem hkeys, (perm_spans_of_plan h).mem_iff]
  cases hdirectory with
  | root =>
    rw [Nat.zero_add]
    exact List.mem_cons_self ..
  | inside hbranch => exact List.mem_cons_of_mem _ (Branch.mem_spans hbranch)

/-- From an entry one comes to the one behind all that is inside it. -/
theorem next_of_plan (h : root.plan = .ok l) (hkeys : (l.spans.map Prod.fst).Nodup) {index : Nat}
    {branch : Branch α} (hbranch : (root.children.branches [])[index]? = some branch) :
    l.next index = .ok (index + 1 + branch.tree.children.size) := by
  have hentry : l.entries[index]? = some branch.entry := by
    rw [entries_of_plan h, List.getElem?_map, hbranch]
    rfl
  rcases branch with ⟨above, ⟨name, content⟩ | ⟨name, children⟩⟩
  · simp only [Layout.next, hentry, Branch.entry]
    rfl
  · have hspan := (HasDirectory.inside hbranch).span? h hkeys
    simp only [Layout.next, hentry, Branch.entry, hspan]
    rfl

end Tree

/-! ## Walking -/

theorem Layout.walk_succ {l : Layout} {stop steps index following : Nat} {others : List Nat}
    (hlt : index < stop) (hnext : l.next index = .ok following)
    (hwalk : l.walk stop steps following = .ok others) :
    l.walk stop (steps + 1) index = .ok (index :: others) := by
  rw [walk, if_pos hlt, hnext]
  show (l.walk stop steps following >>= _) = _
  rw [hwalk]
  rfl

namespace Forest

variable {α : Type} {f : Forest α} {above : List String} {all : List (Branch α)} {index : Nat}

/-- Where the trees at the top stand, if the branches of the forest stand from `index` on. -/
def starts (index : Nat) : Forest α → List Nat
  | .nil => []
  | .file _ _ rest => index :: rest.starts (index + 1)
  | .directory _ children rest => index :: rest.starts (index + 1 + children.size)

@[simp] theorem starts_cons (index : Nat) (tree : Tree α) (rest : Forest α) :
    (cons tree rest).starts index = index :: rest.starts (index + 1 + tree.children.size) := by
  cases tree <;> rfl

theorem le_of_mem_starts {place : Nat} (h : place ∈ f.starts index) : index ≤ place := by
  induction f using consInduction generalizing index with
  | nil => cases h
  | cons tree rest ih =>
    rw [starts_cons, List.mem_cons] at h
    rcases h with rfl | h
    · exact Nat.le_refl _
    · have hrest := ih h
      omega

theorem pairwise_starts (f : Forest α) (index : Nat) : (f.starts index).Pairwise (· < ·) := by
  induction f using consInduction generalizing index with
  | nil => exact .nil
  | cons tree rest ih =>
    rw [starts_cons]
    refine .cons (fun place hplace => ?_) (ih _)
    have hle := le_of_mem_starts hplace
    omega

/-- The trees at the top stand where they start, first to last. -/
theorem StandsAt.map_starts (h : f.StandsAt above all index) :
    (f.starts index).map (all[·]?) = f.toList.map fun tree => some ⟨above, tree⟩ := by
  induction f using consInduction generalizing index with
  | nil => rfl
  | cons tree rest ih =>
    obtain ⟨hfirst, -, hrest⟩ := h.of_cons
    rw [starts_cons, toList_cons, List.map_cons, List.map_cons, hfirst, ih hrest]

/-- Only the trees at the top are directly below the directories above the forest. -/
theorem StandsAt.mem_starts_iff (h : f.StandsAt above all index) {place : Nat} :
    place ∈ f.starts index ↔
      index ≤ place ∧ place < index + f.size ∧ ∃ tree, all[place]? = some ⟨above, tree⟩ := by
  induction f using consInduction generalizing index with
  | nil =>
    simp only [starts, size, List.not_mem_nil, false_iff]
    omega
  | cons tree rest ih =>
    obtain ⟨hfirst, hinside, hrest⟩ := h.of_cons
    rw [starts_cons, List.mem_cons, ih hrest, size_cons]
    constructor
    · rintro (rfl | ⟨hle, hlt, hother⟩)
      · exact ⟨Nat.le_refl _, by omega, tree, hfirst⟩
      · exact ⟨by omega, by omega, hother⟩
    · rintro ⟨hle, hlt, other, hother⟩
      rcases Nat.eq_or_lt_of_le hle with rfl | hlater
      · exact .inl rfl
      rcases Nat.lt_or_ge place (index + 1 + tree.children.size) with hbefore | hbehind
      · -- What is inside the first tree has its name above it.
        have hmem := hinside.mem_of_getElem? hlater hbefore hother
        exact absurd rfl (above_ne_of_inside hmem)
      · exact .inr ⟨hbehind, by omega, other, hother⟩

/-- A walk that can go on from each of the branches meets the trees at the top. -/
theorem StandsAt.walk_eq {l : Layout} {steps : Nat} (h : f.StandsAt above all index)
    (hnext : ∀ place branch, all[place]? = some branch →
      l.next place = .ok (place + 1 + branch.tree.children.size))
    (hsteps : f.length ≤ steps) :
    l.walk (index + f.size) steps index = .ok (f.starts index) := by
  induction f using consInduction generalizing index steps with
  | nil => cases steps <;> simp [Layout.walk, size, starts]
  | cons tree rest ih =>
    obtain ⟨hfirst, -, hrest⟩ := h.of_cons
    rw [length_cons] at hsteps
    cases steps with
    | zero => cases hsteps
    | succ steps =>
      have hstop : index + (cons tree rest).size =
          index + 1 + tree.children.size + rest.size := by
        rw [size_cons]
        omega
      have hwalk := ih hrest (Nat.le_of_succ_le_succ hsteps)
      rw [hstop, starts_cons]
      exact Layout.walk_succ (by omega) (hnext _ _ hfirst) hwalk

end Forest

namespace Tree

variable {α : Type} {root : Tree α} {l : Layout}

theorem HasDirectory.directChildren_eq {names : List String} {first : Nat} {below : Forest α}
    (hdirectory : root.HasDirectory names first below) (h : root.plan = .ok l)
    (hkeys : (l.spans.map Prod.fst).Nodup) :
    l.directChildren (Entry.base names) = .ok (below.starts first) := by
  have hsteps : below.length ≤ l.entries.length := by
    have hprefix := hdirectory.standsAt.length_le
    have hlength := below.length_le_size
    rw [List.length_drop, Forest.length_branches, Forest.length_branches] at hprefix
    rw [entries_of_plan h, List.length_map, Forest.length_branches]
    omega
  rw [Layout.directChildren, hdirectory.span? h hkeys]
  exact hdirectory.standsAt.walk_eq (fun _ _ => next_of_plan h hkeys) hsteps

end Tree

/-! ## Layouts of trees -/

namespace Layout

variable {α : Type}

/-- The entries are the branches of the tree in pre-order, with their paths and counts. -/
structure Lists (l : Layout) (root : Tree α) : Prop where
  entries : l.entries = (root.children.branches []).map Branch.entry
  childCounts :
    l.entries.map Entry.childCount? = (root.children.branches []).map Branch.childCount?
  fileCount : l.fileCount = (root.children.branches []).countP (·.tree.kind = .file)

/-- What the layout says of the directory that `names` lead into, with the trees `below` in it. The
entries inside it stand from `first` on, and the direct children are found among them: those that
have just `names` above them, first to last. -/
structure Bounds (l : Layout) (root : Tree α) (names : List String) (first : Nat)
    (below : Forest α) : Prop where
  span : ∃ childCount, l.span? (Entry.base names) = some ⟨first, first + below.size, childCount⟩ ∧
    childCount.toNat = below.length
  inside : (l.entries.drop first).take below.size = (below.branches names).map Branch.entry
  children : ∃ indices, l.directChildren (Entry.base names) = .ok indices ∧
    indices.Pairwise (· < ·) ∧
    indices.map ((root.children.branches [])[·]?) =
      below.toList.map (fun tree => some ⟨names, tree⟩) ∧
    ∀ index, index ∈ indices ↔ first ≤ index ∧ index < first + below.size ∧
      ∃ tree, (root.children.branches [])[index]? = some ⟨names, tree⟩

/-- The spans are those of the directories of the tree, each found by its path. -/
structure Charts (l : Layout) (root : Tree α) : Prop where
  keys : (l.spanTable.map Prod.fst).Perm (([] :: root.children.trails []).map Entry.base)
  distinct : (l.spanTable.map Prod.fst).Nodup
  bounds : ∀ {names first below}, root.HasDirectory names first below →
    l.Bounds root names first below

end Layout

namespace Tree

variable {α : Type} {root : Tree α} {l : Layout}

theorem lists_of_plan (h : root.plan = .ok l) : l.Lists root := by
  obtain ⟨hcountable, hentries, hfiles, -⟩ := plan_eq_ok h
  refine ⟨entries_of_plan h, ?_, ?_⟩
  · rw [hentries, Forest.map_childCount?_entries hcountable, Forest.map_childCount?_branches]
  · rw [hfiles, Forest.countP_branches]

theorem HasDirectory.length_lt {names : List String} {first : Nat} {below : Forest α}
    (hdirectory : root.HasDirectory names first below) (h : root.plan = .ok l) :
    below.length < UInt32.size := by
  rcases Nat.lt_or_ge below.length UInt32.size with hlt | hlarge
  · exact hlt
  · have hfails := (plan_fails_iff root).mpr ⟨names, first, below, hdirectory, hlarge⟩
    simp [h] at hfails

theorem HasDirectory.bounds {names : List String} {first : Nat} {below : Forest α}
    (hdirectory : root.HasDirectory names first below) (h : root.plan = .ok l)
    (hkeys : (l.spans.map Prod.fst).Nodup) : l.Bounds root names first below := by
  have hstands := hdirectory.standsAt
  refine ⟨⟨_, hdirectory.span? h hkeys, ?_⟩, ?_, _, hdirectory.directChildren_eq h hkeys,
    below.pairwise_starts first, hstands.map_starts, fun _ => hstands.mem_starts_iff⟩
  · exact UInt32.toNat_ofNat_of_lt' (hdirectory.length_lt h)
  · have hbegins := List.prefix_iff_eq_take.mp hstands
    rw [Forest.length_branches] at hbegins
    rw [entries_of_plan h, ← List.map_drop, ← List.map_take, ← hbegins]

theorem charts_of_plan (h : root.plan = .ok l) (hdistinct : root.children.DirectoriesDistinct)
    (hslash : ∀ name ∈ root.children.names, '/' ∉ name.toList) : l.Charts root := by
  have hperm := perm_keys_of_plan h
  have hkeys := hperm.nodup_iff.mpr (Forest.nodup_paths hdistinct hslash)
  rw [← Layout.spanTable_eq hkeys] at hperm
  refine ⟨hperm, ?_, fun hdirectory => hdirectory.bounds h hkeys⟩
  rwa [Layout.spanTable_eq hkeys]

/-- A tree is planned unless a directory has too many children to count, and its layout lists it. If
no name has a slash in it and no two sibling directories have the same name, the spans say of each
directory where it stands, and its direct children are found by them. -/
theorem plan_describes (root : Tree α) :
    ((∃ failure, root.plan = .error failure) ↔
      ∃ names first below, root.HasDirectory names first below ∧ UInt32.size ≤ below.length) ∧
    ∀ l, root.plan = .ok l → l.Lists root ∧
      (root.children.DirectoriesDistinct →
        (∀ name ∈ root.children.names, '/' ∉ name.toList) → l.Charts root) :=
  ⟨plan_fails_iff root, fun _ h => ⟨lists_of_plan h, charts_of_plan h⟩⟩

/-- A tree with directories at two depths, an empty one among them, and one with a file of the same
name beside it. -/
def branching : Tree Unit :=
  .directory "root" <|
    .file "b" () <|
    .directory "b" (.file "c" () <| .directory "d" (.file "e" () .nil) <| .file "f" () .nil) <|
    .directory "g" .nil .nil

/-- In `b/` the walk passes over what is inside `b/d/`. -/
theorem branching_is_charted :
    ∃ l, branching.plan = .ok l ∧ l.Lists branching ∧ l.Charts branching ∧
      l.directChildren "b/" = .ok [2, 3, 5] := by
  obtain ⟨hlists, hcharts⟩ := (plan_describes branching).2 _ rfl
  exact ⟨_, rfl, hlists, hcharts (by decide) (by decide), rfl⟩

end Tree

end TreeImage
