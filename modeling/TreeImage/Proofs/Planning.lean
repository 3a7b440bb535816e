import TreeImage.Build
import TreeImage.Proofs.Packing

/-!
# Planned layouts

A layout can be put together by hand, and then its counts need not agree with its entries.
`Layout.Consistent` says that they do: the entries are the pre-order of a forest by their own counts
of children, the root has as many entries as that forest has trees, and the files are counted. What
is planned from a tree is consistent. Its names do not matter here, not even where the paths that
come of them collide: the spans are found by path, but only the span of the root is used, and that
one is entered last.
-/

namespace TreeImage

/-- Where no key stands twice, looking a key up finds what stands with it. -/
theorem lookup_eq_some_iff_mem {κ β : Type} [BEq κ] [LawfulBEq κ] {table : List (κ × β)} {key : κ}
    {value : β} (h : (table.map Prod.fst).Nodup) :
    table.lookup key = some value ↔ (key, value) ∈ table := by
  induction table with
  | nil => simp
  | cons row table ih =>
    rcases row with ⟨other, found⟩
    rw [List.map_cons, List.nodup_cons] at h
    by_cases heq : key = other
    · have hnew : (other, value) ∉ table :=
        fun hmem => h.1 (List.mem_map.mpr ⟨_, hmem, rfl⟩)
      simp [heq, hnew, eq_comm]
    · simp [List.lookup_cons, beq_eq_false_iff_ne.mpr heq, heq, ih h.2]

/-- The number of direct children that an entry states, nothing for a file. -/
def Entry.childCount? : Entry → Option Nat
  | .file _ => none
  | .directory _ count => some count.toNat

namespace Load

theorem childCount?_record (offset : Nat) (load : Load) :
    (load.record offset).childCount? = load.entry.childCount? := by
  rcases load with ⟨entry, contents⟩
  cases entry <;> rfl

theorem map_childCount?_records (offset : Nat) (loads : List Load) :
    (records offset loads).map Record.childCount? =
      loads.map fun load => load.entry.childCount? := by
  induction loads generalizing offset with
  | nil => rfl
  | cons load rest ih => simp only [records, List.map_cons, childCount?_record, ih]

end Load

structure Layout.Consistent (l : Layout) : Prop where
  fileCount : l.fileCount = l.entries.countP (·.kind = .file)
  forest : ∃ f : Forest Unit,
    f.length = l.rootEntries.toNat ∧ f.counts = l.entries.map Entry.childCount?

namespace Forest

variable {α β : Type}

def fileCount : Forest α → Nat
  | .nil => 0
  | .file _ _ rest => rest.fileCount + 1
  | .directory _ children rest => children.fileCount + rest.fileCount

/-- Whether the number of children of every directory fits in a word. -/
def Countable : Forest α → Prop
  | .nil => True
  | .file _ _ rest => rest.Countable
  | .directory _ children rest =>
    children.length < UInt32.size ∧ children.Countable ∧ rest.Countable

/-- The entries of a forest whose paths begin with `base`. -/
def entries (base : String) : Forest α → List Entry
  | .nil => []
  | .file name _ rest => .file (base ++ name) :: rest.entries base
  | .directory name children rest =>
    .directory (base ++ name ++ "/") (UInt32.ofNat children.length) ::
      (children.entries (base ++ name ++ "/") ++ rest.entries base)

@[simp] theorem countable_map (f : α → β) (g : Forest α) : (g.map f).Countable ↔ g.Countable := by
  induction g with
  | nil => rfl
  | file name content rest ih => exact ih
  | directory name children rest ihc ih => simp [map, Countable, ihc, ih]

theorem countP_entries (f : Forest α) (base : String) :
    (f.entries base).countP (·.kind = .file) = f.fileCount := by
  induction f generalizing base with
  | nil => rfl
  | file name content rest ih =>
    have hrest := ih base
    simp only [entries, fileCount, List.countP_cons, hrest]
    rfl
  | directory name children rest ihc ih =>
    have hinner := ihc (base ++ name ++ "/")
    have hrest := ih base
    simp only [entries, fileCount, List.countP_cons, List.countP_append, hinner, hrest]
    rfl

theorem map_childCount?_entries {f : Forest α} (h : f.Countable) (base : String) :
    (f.entries base).map Entry.childCount? = f.counts := by
  induction f generalizing base with
  | nil => rfl
  | file name content rest ih => simp [entries, counts, Entry.childCount?, ih h]
  | directory name children rest ihc ih =>
    rcases h with ⟨hlength, hchildren, hrest⟩
    have hcount : (UInt32.ofNat children.length).toNat = children.length := by
      rw [UInt32.toNat_ofNat']
      exact Nat.mod_eq_of_lt hlength
    simp only [entries, counts, List.map_cons, List.map_append, Entry.childCount?, hcount,
      ihc hchildren, ih hrest]

theorem flatten_file_eq_ok_iff {name : String} {content : α} {rest : Forest α} {base : String}
    {l : Layout} :
    (Forest.file name content rest).flatten base = .ok l ↔
      ∃ others, rest.flatten base = .ok others ∧ Layout.ofFile (base ++ name) ++ others = l := by
  simp only [flatten, Except.bind_eq_ok_iff, pure, Except.pure, Except.ok.injEq]

theorem flatten_directory_eq_ok_iff {name : String} {children rest : Forest α} {base : String}
    {l : Layout} :
    (Forest.directory name children rest).flatten base = .ok l ↔
      ∃ childCount inner others,
        Field.childCount.fit (base ++ name ++ "/") children.length = .ok childCount ∧
        children.flatten (base ++ name ++ "/") = .ok inner ∧ rest.flatten base = .ok others ∧
        Layout.ofDirectory (base ++ name ++ "/") childCount inner ++ others = l := by
  simp only [flatten, Except.bind_eq_ok_iff, pure, Except.pure, Except.ok.injEq, exists_and_left]

/-- A forest that is laid out has a word for every count, and keeps its order. -/
theorem flatten_eq_ok {f : Forest α} {base : String} {l : Layout} (h : f.flatten base = .ok l) :
    f.Countable ∧ l.entries = f.entries base ∧ l.fileCount = f.fileCount := by
  induction f generalizing base l with
  | nil =>
    cases h
    exact ⟨trivial, rfl, rfl⟩
  | file name content rest ih =>
    obtain ⟨others, hothers, rfl⟩ := flatten_file_eq_ok_iff.mp h
    obtain ⟨hcountable, hentries, hfiles⟩ := ih hothers
    refine ⟨hcountable, ?_, ?_⟩
    · rw [Layout.entries_append, hentries]
      rfl
    · rw [Layout.fileCount_append, hfiles, fileCount, Nat.add_comm]
      rfl
  | directory name children rest ihc ih =>
    obtain ⟨childCount, inner, others, hcount, hinner, hothers, rfl⟩ :=
      flatten_directory_eq_ok_iff.mp h
    obtain ⟨hchildren, hentries, hfiles⟩ := ihc hinner
    obtain ⟨hrest, hentries', hfiles'⟩ := ih hothers
    have hword := Field.eq_ofNat_of_fit hcount
    rw [Field.fit_eq_ok_iff] at hcount
    refine ⟨⟨hcount ▸ childCount.toNat_lt, hchildren, hrest⟩, ?_, ?_⟩
    · rw [Layout.entries_append, Layout.entries_ofDirectory, hentries, hentries', hword]
      rfl
    · rw [Layout.fileCount_append, hfiles', fileCount, ← hfiles]
      rfl

end Forest

namespace Tree

variable {α : Type} {root : Tree α} {l : Layout}

/-- The span of the root goes over all entries, and no other one for its path counts. -/
theorem exists_flatten_of_plan (h : root.plan = .ok l) :
    ∃ inner childCount, root.children.flatten "" = .ok inner ∧
      Field.childCount.fit "" root.children.length = .ok childCount ∧
      { inner with spans := ("", ⟨0, inner.entries.length, childCount⟩) :: inner.spans } = l := by
  obtain ⟨inner, hinner, h⟩ := Except.bind_eq_ok_iff.mp h
  obtain ⟨childCount, hcount, h⟩ := Except.bind_eq_ok_iff.mp h
  cases h
  exact ⟨inner, childCount, hinner, hcount, rfl⟩

theorem plan_eq_ok (h : root.plan = .ok l) :
    root.children.Countable ∧ l.entries = root.children.entries "" ∧
      l.fileCount = root.children.fileCount ∧ l.rootEntries.toNat = root.children.length := by
  obtain ⟨inner, childCount, hinner, hcount, rfl⟩ := exists_flatten_of_plan h
  obtain ⟨hcountable, hentries, hfiles⟩ := Forest.flatten_eq_ok hinner
  refine ⟨hcountable, hentries, hfiles, ?_⟩
  rw [Field.fit_eq_ok_iff] at hcount
  exact hcount

/-- Whatever the names, a planned layout agrees with its entries. -/
theorem consistent_of_plan (h : root.plan = .ok l) : l.Consistent := by
  obtain ⟨hcountable, hentries, hfiles, hroots⟩ := plan_eq_ok h
  constructor
  · rw [hfiles, hentries, Forest.countP_entries]
  · refine ⟨root.children.map fun _ => (), ?_, ?_⟩
    · rw [Forest.length_map, hroots]
    · rw [Forest.counts_map, hentries, Forest.map_childCount?_entries hcountable]

end Tree

/-- An image that comes of a build comes of packing what was planned for a tree. -/
theorem Image.planned_of_build {σ : Type} {respond : (request : Request) → σ → request.Answer × σ}
    {image : Image} {depth : Nat} {root : Path} {before after : σ}
    (h : (build depth root).Ends respond before image after) :
    ∃ (tree : Tree Unit) (layout : Layout) (captured : σ),
      (Tree.capture depth root).Ends respond before tree captured ∧
      tree.plan = .ok layout ∧ (pack root layout).Ends respond captured image after := by
  simp only [build, Session.ends_bind_iff, Session.ends_ofExcept_iff,
    Session.ends_report_iff] at h
  rcases h with ⟨tree, captured, htree, layout, t, ⟨hplan, rfl⟩, ⟨⟩, t', rfl, hpack⟩
  exact ⟨tree, layout, captured, htree, hplan, hpack⟩

end TreeImage
