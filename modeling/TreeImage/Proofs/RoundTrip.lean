import TreeImage.Proofs.Source
import Mathlib.Data.List.Forall2

/-!
# Building and reading back

An image that was built is read back as the forest below its root, if no name holds a NUL
character: the same names, kinds and nesting in the same order, with the contents of every file. The
records say of every directory how many entries its own listing has.
-/

namespace TreeImage

/-- The places of the nodes in pre-order, every name joined onto the place of its directory. -/
def Forest.places {α : Type} (dir : Path) : Forest α → List Path
  | .nil => []
  | .file name _ rest => dir.join name :: rest.places dir
  | .directory name children rest =>
    dir.join name :: (children.places (dir.join name) ++ rest.places dir)

namespace Source

variable {s : Source} {root dir : Path} {listing : List (String × Kind)}

/-- Whether the numbers of a record are right about what the source has at `path`. -/
def Describes (s : Source) (path : Path) : Record → Prop
  | .file _ _ length =>
    ∃ contents, s.contents path = .ok contents ∧ length.toNat = contents.length
  | .directory children _ blockCount =>
    ∃ listing, s.entries path = .ok listing ∧ children.toNat = listing.length ∧
      blockCount.toNat = listing.length

/-- A listing leads to one forest, if one thing only can be at a path. -/
theorem Lists.unique {α : Type} {content : Path → α → Prop}
    (hcontent : ∀ path a b, content path a → content path b → a = b) {f g : Forest α}
    (hf : s.Lists content dir listing f) (hg : s.Lists content dir listing g) : f = g := by
  induction hf generalizing g with
  | nil dir =>
    cases hg
    rfl
  | file ha _ ih =>
    cases hg with
    | file ha' hrest => rw [hcontent _ _ _ ha ha', ih hrest]
  | directory hinner _ _ ihc ih =>
    cases hg with
    | directory hinner' hchildren hrest =>
      rw [hinner, Except.ok.injEq] at hinner'
      subst hinner'
      rw [ihc hchildren, ih hrest]

theorem Holds.unique {f g : Forest Bytes} (hf : s.Holds dir f) (hg : s.Holds dir g) : f = g := by
  rcases hf with ⟨listing, hlisting, hf⟩
  rcases hg with ⟨listing', hlisting', hg⟩
  rw [hlisting, Except.ok.injEq] at hlisting'
  subst hlisting'
  refine hf.unique (fun path a b ha hb => ?_) hg
  rw [ha, Except.ok.injEq] at hb
  exact hb

/-- The records of a forest describe what the source has at its places. -/
theorem Lists.describes {g : Forest Bytes} (h : s.Lists
    (fun path contents => s.contents path = .ok contents) dir listing g) (hcountable : g.Countable)
    (hsize : g.data.length < UInt32.size) (offset : Nat) :
    List.Forall₂ s.Describes (g.places dir) (g.records offset) := by
  induction h generalizing offset with
  | nil => exact .nil
  | @file dir name contents others rest hcontents _ ih =>
    rw [Forest.data, List.length_append] at hsize
    refine .cons ⟨contents, hcontents, ?_⟩ (ih hcountable (by omega) _)
    exact UInt32.toNat_ofNat_of_lt' (by omega)
  | @directory dir name inner others children rest hinner hchildren _ ihc ih =>
    rw [Forest.data, List.length_append] at hsize
    rcases hcountable with ⟨hlength, hbelow, hrest⟩
    have hcount : (UInt32.ofNat children.length).toNat = inner.length := by
      rw [UInt32.toNat_ofNat_of_lt' hlength, hchildren.length_eq]
    exact .cons ⟨inner, hinner, hcount, hcount⟩
      (List.rel_append (ihc hbelow (by omega) _) (ih hrest (by omega) _))

/-- A build is read back. What is read is the one forest below the root, and every record describes
what is at its place. -/
theorem build_is_read_back {σ : Type} {respond : (request : Request) → σ → request.Answer × σ}
    (hs : s.Answers respond)
    (hnames : s.Names (fun name => IsName name ∧ '\x00' ∉ name.toList) root)
    {depth : Nat} {state : σ} {image : Image}
    (h : ((Image.build depth root).run respond state).outcome = .done image) :
    ∃ reading, Reading.ofBytes image.bytes = .ok reading ∧ reading.header = image.header ∧
      s.Holds root reading.entries ∧ (∀ g, s.Holds root g → g = reading.entries) ∧
      List.Forall₂ s.Describes (reading.entries.places root) reading.records := by
  obtain ⟨after, hends⟩ := Session.outcome_eq_done_iff.mp h
  have hplain : s.Names IsName root := by
    intro dir listing hreaches hentries entry hentry
    exact (hnames dir listing hreaches hentries entry hentry).1
  obtain ⟨g, hholds, himage, -⟩ := holds_of_build hs hplain hends
  rcases hholds with ⟨listing, hlisting, hlists⟩
  have huntil : g.rename Text.untilNul = g := by
    apply Forest.rename_eq_self
    intro name hname
    have hallowed := hlists.names hnames .root [] hlisting name hname
    exact Text.untilNul_eq_self hallowed.2
  have hread := himage.ofBytes_eq
  rw [huntil] at hread
  refine ⟨_, hread, rfl, ⟨listing, hlisting, hlists⟩, ?_, ?_⟩
  · intro g' hg'
    exact hg'.unique ⟨listing, hlisting, hlists⟩
  · exact hlists.describes himage.countable himage.length_data_lt 0

/-- A directory with a file and another directory in it, which has a file in turn. -/
def nested : Source where
  isDirectory path := path = .ofText "/a"
  entries path :=
    if path = .ofText "/a" then .ok [("d", .directory), ("f", .file)] else .ok [("g", .file)]
  size _ := .ok 2
  contents path := .ok (if path = .ofText "/a/f" then [1, 2] else [3, 4])

theorem nested_is_read_back :
    ∃ image, ((Image.build 2 (.ofText "/a")).run nested.respond ()).outcome = .done image ∧
      ∃ reading, Reading.ofBytes image.bytes = .ok reading ∧ reading.header = image.header ∧
        nested.Holds (.ofText "/a") reading.entries ∧
        (∀ g, nested.Holds (.ofText "/a") g → g = reading.entries) ∧
        List.Forall₂ nested.Describes (reading.entries.places (.ofText "/a")) reading.records := by
  have hbuild : ∃ image,
      ((Image.build 2 (.ofText "/a")).run nested.respond ()).outcome = .done image :=
    ⟨_, rfl⟩
  rcases hbuild with ⟨image, himage⟩
  refine ⟨image, himage, build_is_read_back nested.answers_respond ?_ himage⟩
  intro dir listing _ hentries entry hentry
  simp only [nested] at hentries
  split at hentries
  · cases hentries
    rcases List.mem_pair.mp hentry with rfl | rfl
    · exact ⟨⟨by decide, by decide⟩, by decide⟩
    · exact ⟨⟨by decide, by decide⟩, by decide⟩
  · cases hentries
    rw [List.mem_singleton.mp hentry]
    exact ⟨⟨by decide, by decide⟩, by decide⟩

end Source

end TreeImage
