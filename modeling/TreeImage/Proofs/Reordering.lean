import TreeImage.Proofs.Collisions
import Mathlib.Algebra.GroupWithZero.Nat

/-!
# The order of edits

Where no file is added twice, edits come to the same whatever their order, but for the order in
which directories list their entries. What stands in a store are the addresses of its edits and
those above them, however they came, and what is a file was added as one. Two stores that differ in
no more than the order of siblings have the same trees below a directory, on every level in another
order. So either both of them can be built from it, or neither can, and the headers are the same.
-/

namespace TreeImage

/-! ## Forests in another order -/

namespace Forest

variable {α β : Type}

/-- The same trees in another order, on every level. -/
inductive Reordered : Forest α → Forest α → Prop
  | nil : Reordered .nil .nil
  | file {name : String} {content : α} {rest before behind : Forest α} :
      Reordered rest (before ++ behind) →
      Reordered (.file name content rest) (before ++ .file name content behind)
  | directory {name : String} {children others rest before behind : Forest α} :
      Reordered children others → Reordered rest (before ++ behind) →
      Reordered (.directory name children rest) (before ++ .directory name others behind)

/-- Forests that an image cannot tell apart by its header or by the names in it. -/
structure Agrees (f g : Forest Bytes) : Prop where
  names : f.names.Perm g.names
  fileCount : f.fileCount = g.fileCount
  data : f.data.length = g.data.length
  length : f.length = g.length

@[simp] theorem length_names (g : Forest α) : g.names.length = g.size := by
  induction g with
  | nil => rfl
  | file name content rest ih => simp [names, size, ih]
  | directory name children rest ihc ih => simp [names, size, ihc, ih]

@[simp] theorem names_append (f g : Forest α) : (f ++ g).names = f.names ++ g.names := by
  induction f with
  | nil => rfl
  | file name content rest ih => simp [names, ih]
  | directory name children rest _ ih => simp [names, ih]

@[simp] theorem tops_append (f g : Forest α) : (f ++ g).tops = f.tops ++ g.tops := by
  induction f with
  | nil => rfl
  | file name content rest ih => simp [tops, ih]
  | directory name children rest _ ih => simp [tops, ih]

@[simp] theorem fileCount_append (f g : Forest α) :
    (f ++ g).fileCount = f.fileCount + g.fileCount := by
  induction f with
  | nil => simp [fileCount]
  | file name content rest ih => simp [fileCount, ih]; omega
  | directory name children rest _ ih => simp [fileCount, ih]; omega

@[simp] theorem data_append (f g : Forest Bytes) : (f ++ g).data = f.data ++ g.data := by
  induction f with
  | nil => rfl
  | file name contents rest ih => simp [data, ih]
  | directory name children rest _ ih => simp [data, ih]

@[simp] theorem map_append (φ : α → β) (f g : Forest α) : (f ++ g).map φ = f.map φ ++ g.map φ := by
  induction f with
  | nil => rfl
  | file name content rest ih => simp [map, ih]
  | directory name children rest _ ih => simp [map, ih]

/-- A forest is cut where its names are. -/
theorem exists_append_of_tops {f : Forest α} {names others : List String}
    (h : f.tops = names ++ others) : ∃ g g', f = g ++ g' ∧ g.tops = names ∧ g'.tops = others := by
  induction names generalizing f with
  | nil => exact ⟨.nil, f, rfl, rfl, h⟩
  | cons name names ih =>
    cases f with
    | nil => cases h
    | file n content rest =>
      obtain ⟨rfl, hrest⟩ := List.cons.inj h
      obtain ⟨g, g', rfl, rfl, rfl⟩ := ih hrest
      exact ⟨.file n content g, g', rfl, rfl, rfl⟩
    | directory n children rest =>
      obtain ⟨rfl, hrest⟩ := List.cons.inj h
      obtain ⟨g, g', rfl, rfl, rfl⟩ := ih hrest
      exact ⟨.directory n children g, g', rfl, rfl, rfl⟩

theorem Reordered.map {f g : Forest α} (h : f.Reordered g) (φ : α → β) :
    (f.map φ).Reordered (g.map φ) := by
  induction h with
  | nil => exact .nil
  | file _ ih =>
    rw [map_append] at ih ⊢
    exact .file ih
  | directory _ _ ihc ih =>
    rw [map_append] at ih ⊢
    exact .directory ihc ih

variable {f g : Forest Bytes}

/-- Every figure of a forest is summed up over its nodes. -/
theorem Reordered.agrees (h : f.Reordered g) : f.Agrees g := by
  induction h with
  | nil => exact ⟨.nil, rfl, rfl, rfl⟩
  | @file name contents rest before behind _ ih =>
    have hnames := ih.names
    have hfiles := ih.fileCount
    have hdata := ih.data
    have hlength := ih.length
    simp only [names_append, fileCount_append, data_append, length_append, List.length_append]
      at hnames hfiles hdata hlength
    constructor
    · simpa [names] using (hnames.cons name).trans List.perm_middle.symm
    · simp [fileCount]; omega
    · simp [data]; omega
    · simp [length]; omega
  | @directory name children others rest before behind _ _ ihc ih =>
    have hnames := ih.names
    have hfiles := ih.fileCount
    have hdata := ih.data
    have hlength := ih.length
    have hfiles' := ihc.fileCount
    have hdata' := ihc.data
    simp only [names_append, fileCount_append, data_append, length_append, List.length_append]
      at hnames hfiles hdata hlength
    constructor
    · have hmoved := (List.perm_append_comm_assoc others.names before.names behind.names).cons name
      have hall := ((ihc.names.append hnames).cons name).trans hmoved
      simpa [names] using hall.trans List.perm_middle.symm
    · simp [fileCount]; omega
    · simp [data]; omega
    · simp [length]; omega

theorem Agrees.symm (h : f.Agrees g) : g.Agrees f :=
  ⟨h.names.symm, h.fileCount.symm, h.data.symm, h.length.symm⟩

theorem Agrees.size_eq (h : f.Agrees g) : f.size = g.size := by
  rw [← length_names, h.names.length_eq, length_names]

theorem Agrees.storable (h : f.Agrees g) (hf : f.Storable) : g.Storable where
  names name hname := hf.names name (h.names.mem_iff.mpr hname)
  fits := by
    rw [← h.size_eq, ← h.data]
    exact hf.fits

end Forest

namespace Store

/-! ## Stores that are alike -/

/-- The same file, or directories with the same entries. -/
inductive Node.Alike : Node → Node → Prop
  | file (contents : Bytes) : Alike (.file contents) (.file contents)
  | directory {names others : List String} :
      names.Perm others → Alike (.directory names) (.directory others)

theorem Node.Alike.symm {node other : Node} (h : node.Alike other) : other.Alike node := by
  cases h with
  | file contents => exact .file contents
  | directory hperm => exact .directory hperm.symm

/-- The stores differ in the order of siblings only. -/
def Alike (s t : Store) : Prop :=
  ∀ address, Option.Rel Node.Alike (s.node? address) (t.node? address)

variable {s t : Store} {address above : Address} {names : List String}
  {f g : Forest (Option Bytes)} {edits others : List Edit}

theorem carries_append :
    s.Carries above (f ++ g) ↔ s.Carries above f ∧ s.Carries above g := by
  induction f with
  | nil => simp [Carries]
  | file name contents rest ih => simp [Carries, ih, and_assoc]
  | directory name children rest _ ih => simp [Carries, ih, and_assoc]

namespace Alike

theorem symm (h : s.Alike t) : t.Alike s := by
  intro address
  have halike := h address
  generalize s.node? address = node at halike ⊢
  generalize t.node? address = other at halike ⊢
  cases halike with
  | none => exact .none
  | some hnode => exact .some hnode.symm

theorem node?_eq_file (h : s.Alike t) {contents : Option Bytes}
    (hnode : s.node? address = contents.map .file) : t.node? address = contents.map .file := by
  have halike := h address
  rw [hnode] at halike
  generalize t.node? address = other at halike ⊢
  cases contents with
  | none =>
    cases halike
    rfl
  | some contents =>
    cases halike with
    | some halike =>
      cases halike
      rfl

theorem exists_directory (h : s.Alike t) (hnode : s.node? address = some (.directory names)) :
    ∃ others, t.node? address = some (.directory others) ∧ names.Perm others := by
  have halike := h address
  rw [hnode] at halike
  cases hother : t.node? address with
  | none =>
    rw [hother] at halike
    cases halike
  | some node =>
    rw [hother] at halike
    cases halike with
    | some halike =>
      cases halike with
      | directory hperm => exact ⟨_, rfl, hperm⟩

/-- What one of the stores has, the other one has in whatever order it is listed there. -/
theorem exists_reordered (h : s.Alike t) (hcarries : s.Carries above f) {listed : List String}
    (hperm : f.tops.Perm listed) : ∃ g, t.Carries above g ∧ g.tops = listed ∧ f.Reordered g := by
  induction f generalizing above listed with
  | nil =>
    obtain rfl := List.perm_nil.mp hperm.symm
    exact ⟨.nil, trivial, rfl, .nil⟩
  | file name contents rest ih =>
    obtain ⟨before, behind, rfl⟩ := List.append_of_mem (hperm.subset (List.mem_cons_self ..))
    obtain ⟨g, hg, htops, hreordered⟩ :=
      ih hcarries.2 (hperm.trans List.perm_middle).cons_inv
    obtain ⟨x, y, rfl, rfl, rfl⟩ := Forest.exists_append_of_tops htops
    obtain ⟨hx, hy⟩ := carries_append.mp hg
    refine ⟨x ++ .file name contents y, ?_, Forest.tops_append .., .file hreordered⟩
    exact carries_append.mpr ⟨hx, h.node?_eq_file hcarries.1, hy⟩
  | directory name children rest ihc ih =>
    obtain ⟨before, behind, rfl⟩ := List.append_of_mem (hperm.subset (List.mem_cons_self ..))
    obtain ⟨g, hg, htops, hreordered⟩ :=
      ih hcarries.2.2 (hperm.trans List.perm_middle).cons_inv
    obtain ⟨x, y, rfl, rfl, rfl⟩ := Forest.exists_append_of_tops htops
    obtain ⟨hx, hy⟩ := carries_append.mp hg
    obtain ⟨inner, hinner, hlisted⟩ := h.exists_directory hcarries.1
    obtain ⟨others, hothers, rfl, hreordered'⟩ := ihc hcarries.2.1 hlisted
    refine ⟨x ++ .directory name others y, ?_, Forest.tops_append ..,
      .directory hreordered' hreordered⟩
    exact carries_append.mpr ⟨hx, hinner, hothers, hy⟩

/-- What stores that are alike have below a directory are the same trees in another order. -/
theorem exists_below (h : s.Alike t) (hf : s.Below above f) :
    ∃ g, t.Below above g ∧ f.Reordered g := by
  obtain ⟨listed, hnode, hperm⟩ := h.exists_directory hf.node
  obtain ⟨g, hg, rfl, hreordered⟩ := h.exists_reordered hf.carries hperm
  exact ⟨g, ⟨hnode, hg⟩, hreordered⟩

end Alike

/-- Stores are alike if the same files are in them and something stands at the same addresses. -/
theorem Hierarchical.alike (hs : s.Hierarchical) (ht : t.Hierarchical)
    (hstands : ∀ address, (s.node? address).isSome ↔ (t.node? address).isSome)
    (hfiles : ∀ address contents,
      s.node? address = some (.file contents) ↔ t.node? address = some (.file contents)) :
    s.Alike t := by
  intro address
  cases hnode : s.node? address with
  | none =>
    have hother := hstands address
    rw [hnode] at hother
    rw [Option.not_isSome_iff_eq_none.mp (mt hother.mpr (by simp))]
    exact .none
  | some node =>
    cases node with
    | file contents =>
      rw [(hfiles address contents).mp hnode]
      exact .some (.file contents)
    | directory names =>
      have hother := (hstands address).mp (by rw [hnode]; rfl)
      obtain ⟨node, hnode'⟩ := Option.isSome_iff_exists.mp hother
      cases node with
      | file contents =>
        rw [(hfiles address contents).mpr hnode'] at hnode
        cases hnode
      | directory others =>
        rw [hnode']
        obtain ⟨below, rfl, hbelow⟩ := hs.listed address names hnode
        obtain ⟨below', rfl, hbelow'⟩ := ht.listed address others hnode'
        refine .some (.directory (List.Perm.map _ ?_))
        rw [List.perm_ext_iff_of_nodup hbelow.nodup hbelow'.nodup]
        intro name
        rw [hbelow.mem_iff, hbelow'.mem_iff, hstands]

/-! ## Files -/

/-- Where no file was added twice, what was added stays. -/
theorem lastFile?_eq_some_iff {contents : Bytes}
    (h : ((edits.filterMap Edit.file?).map Prod.fst).Nodup) :
    lastFile? edits address = some contents ↔
      (address, contents) ∈ edits.filterMap Edit.file? := by
  unfold lastFile?
  rw [lookup_eq_some_iff_mem (by simpa using h), List.mem_reverse]

theorem alike_of_perm (hperm : edits.Perm others)
    (honce : ((edits.filterMap Edit.file?).map Prod.fst).Nodup) :
    (ofEdits edits).Alike (ofEdits others) := by
  have hfiles := hperm.filterMap Edit.file?
  apply (hierarchical_ofEdits edits).alike (hierarchical_ofEdits others)
  · intro address
    rw [isSome_ofEdits_iff, isSome_ofEdits_iff]
    exact ⟨.of_subset hperm.subset, .of_subset hperm.symm.subset⟩
  · intro address contents
    rw [node?_eq_file_iff, node?_eq_file_iff, lastFile?_eq_some_iff honce,
      lastFile?_eq_some_iff ((hfiles.map _).nodup_iff.mp honce), hfiles.mem_iff]

/-! ## Builds -/

/-- What comes of a build with `extra` steps more than the depth of the store. -/
def built (s : Store) (extra : Nat) (root : Path) : Outcome Image :=
  ((Image.build (s.depth + extra) root).run respond s).outcome

variable {extra : Nat} {root : Path}

theorem built_iff_storable (hf : (ofEdits edits).Below root.address f) (extra : Nat) :
    (∃ image, (ofEdits edits).built extra root = .done image) ↔ f.filled.Storable := by
  rcases hf.build_ends (hierarchical_ofEdits edits) extra with
    ⟨hdone, hstorable⟩ | ⟨⟨failure, hfailed, -⟩, hnot⟩
  · exact iff_of_true hdone hstorable
  · rw [built, hfailed]
    exact iff_of_false (by simp) hnot

/-- A build ends, since a store is at least as deep as anything that is reached in it. -/
theorem built_ne_unfinished (edits : List Edit) (extra : Nat) (root : Path) :
    (ofEdits edits).built extra root ≠ .unfinished := by
  cases hdirectory : (ofEdits edits).isDirectory root with
  | false =>
    rw [built, build_eq_failed hdirectory]
    simp
  | true =>
    obtain ⟨names, hnode⟩ := isDirectory_iff.mp hdirectory
    obtain ⟨f, hf⟩ := exists_below hnode
    rcases hf.build_ends (hierarchical_ofEdits edits) extra with
      ⟨⟨image, hdone⟩, -⟩ | ⟨⟨failure, hfailed, -⟩, -⟩
    · simp [built, hdone]
    · simp [built, hfailed]

/-- What matters of the order of the edits is the order of siblings, if no file is added twice. It
does not matter whether a path is added as a directory as well, nor whether a file is added above
something: a file that was added stays a file. -/
theorem ofEdits_perm (hperm : edits.Perm others)
    (honce : ((edits.filterMap Edit.file?).map Prod.fst).Nodup) :
    (ofEdits edits).Alike (ofEdits others) ∧ ∀ (root : Path) (extra extra' : Nat),
      ((∃ image, (ofEdits edits).built extra root = .done image) ↔
        ∃ image, (ofEdits others).built extra' root = .done image) ∧
      ∀ image image', (ofEdits edits).built extra root = .done image →
        (ofEdits others).built extra' root = .done image' → image.header = image'.header := by
  have halike := alike_of_perm hperm honce
  refine ⟨halike, fun root extra extra' => ?_⟩
  cases hdirectory : (ofEdits edits).isDirectory root with
  | false =>
    have hother : (ofEdits others).isDirectory root = false := by
      rw [Bool.eq_false_iff, ne_eq, isDirectory_iff]
      rintro ⟨names, hnode⟩
      obtain ⟨listed, hlisted, -⟩ := halike.symm.exists_directory hnode
      have htrue := isDirectory_iff.mpr ⟨listed, hlisted⟩
      rw [hdirectory] at htrue
      cases htrue
    simp [built, build_eq_failed hdirectory, build_eq_failed hother]
  | true =>
    obtain ⟨names, hnode⟩ := isDirectory_iff.mp hdirectory
    obtain ⟨f, hf⟩ := exists_below hnode
    obtain ⟨g, hg, hreordered⟩ := halike.exists_below hf
    have hagrees : f.filled.Agrees g.filled := (hreordered.map _).agrees
    constructor
    · rw [built_iff_storable hf, built_iff_storable hg]
      exact ⟨hagrees.storable, hagrees.symm.storable⟩
    · intro image image' h h'
      have hholds := hf.holds (hierarchical_ofEdits edits) h
      have hholds' := hg.holds (hierarchical_ofEdits others) h'
      exact hholds.header_eq_of_figures hholds' hagrees.size_eq hagrees.fileCount hagrees.data
        hagrees.length

/-- The directory `d` is made for what is in it, first or last, and both ways the headers are the
same. -/
theorem reversed_edits_agree :
    ∃ image image',
      (ofEdits [.addFile (.ofText "/r/d/x") [1], .addDirectory (.ofText "/r/e"),
        .addFile (.ofText "/r/b") [2, 3]]).built 0 (.ofText "/r") = .done image ∧
      (ofEdits [.addFile (.ofText "/r/b") [2, 3], .addDirectory (.ofText "/r/e"),
        .addFile (.ofText "/r/d/x") [1]]).built 0 (.ofText "/r") = .done image' ∧
      image.header = image'.header ∧
      (ofEdits [.addFile (.ofText "/r/d/x") [1], .addDirectory (.ofText "/r/e"),
        .addFile (.ofText "/r/b") [2, 3]]).node? (Path.address (.ofText "/r")) =
          some (.directory ["d", "e", "b"]) ∧
      (ofEdits [.addFile (.ofText "/r/b") [2, 3], .addDirectory (.ofText "/r/e"),
        .addFile (.ofText "/r/d/x") [1]]).node? (Path.address (.ofText "/r")) =
          some (.directory ["b", "e", "d"]) := by
  have hbuilt : ∃ image, (ofEdits [.addFile (.ofText "/r/d/x") [1], .addDirectory (.ofText "/r/e"),
      .addFile (.ofText "/r/b") [2, 3]]).built 0 (.ofText "/r") = .done image := ⟨_, rfl⟩
  have hperm : List.Perm (α := Edit) [.addFile (.ofText "/r/d/x") [1],
      .addDirectory (.ofText "/r/e"), .addFile (.ofText "/r/b") [2, 3]]
      [.addFile (.ofText "/r/b") [2, 3], .addDirectory (.ofText "/r/e"),
        .addFile (.ofText "/r/d/x") [1]] := (List.reverse_perm _).symm
  have hagree := (ofEdits_perm hperm (by decide)).2 (.ofText "/r") 0 0
  obtain ⟨image, himage⟩ := hbuilt
  obtain ⟨image', himage'⟩ := hagree.1.mp ⟨image, himage⟩
  exact ⟨image, image', himage, himage', hagree.2 image image' himage himage', rfl, rfl⟩

end Store

end TreeImage
