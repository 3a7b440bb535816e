import TreeImage.Proofs.Exactness
import TreeImage.Proofs.RoundTrip

/-!
# Equal images

Two stores can give the same image below two of their directories. This happens just if what is
below these differs in no more than NUL characters at the ends of names: such names are not refused,
and the zeros behind a name in its field cannot be told from them. The names of the roots are in no
image.
-/

namespace TreeImage

/-- `g` is what a build captures below `root`, with the contents of the files. -/
structure Store.Captures (s : Store) (depth : Nat) (root : Path) (g : Forest Bytes) : Prop where
  outcome : ((Tree.capture depth root).run respond s).outcome =
    .done (.directory (root.fileName?.getD "") (g.map fun _ => ()))
  holds : s.source.Holds root g

namespace Store

variable {s : Store} {depth : Nat} {root : Path} {image : Image} {f : Forest (Option Bytes)}

theorem Hierarchical.exists_captures (h : s.Hierarchical)
    (hbuild : ((Image.build depth root).run respond s).outcome = .done image) :
    ∃ g, s.Captures depth root g ∧ image.Holds g := by
  have hrun := (run_respond (Image.readOnly_build depth root) s).1
  obtain ⟨after, hends⟩ := Session.outcome_eq_done_iff.mp (hrun.symm.trans hbuild)
  obtain ⟨g, hholds, himage, hcapture⟩ :=
    Source.holds_of_build s.source.answers_respond (h.names_source root) hends
  have hcaptured := (run_respond (Tree.readOnly_capture depth root) s).1
  exact ⟨g, ⟨hcaptured.trans hcapture, hholds⟩, himage⟩

theorem Captures.unique {g g' : Forest Bytes} {depth' : Nat} (h : s.Captures depth root g)
    (h' : s.Captures depth' root g') : g = g' := h.holds.unique h'.holds

/-- The image of a build holds what the store has below the root. -/
theorem Below.holds (hf : s.Below root.address f) (h : s.Hierarchical) {extra : Nat}
    (hbuild : ((Image.build (s.depth + extra) root).run respond s).outcome = .done image) :
    image.Holds f.filled := by
  obtain ⟨g, hcaptures, himage⟩ := h.exists_captures hbuild
  rcases hf.build_ends h extra with ⟨-, hstorable⟩ | ⟨⟨failure, hfailed, -⟩, -⟩
  · have hnames : ∀ name ∈ f.names, nameDefect? name = none := by
      simpa [Forest.filled] using hstorable.names
    rwa [← hcaptures.holds.unique ((hf.offers h).bears hnames).holds]
  · rw [hbuild] at hfailed
    cases hfailed

/-- Two builds give the same bytes just if what they capture differs in no more than the NUL
characters at the ends of names, so just if it is the same where no name has any. -/
theorem images_eq_iff_trimmed_eq {edits edits' : List Edit} {depth depth' : Nat} {root root' : Path}
    {image image' : Image}
    (h : ((Image.build depth root).run respond (ofEdits edits)).outcome = .done image)
    (h' : ((Image.build depth' root').run respond (ofEdits edits')).outcome = .done image') :
    ∃ g g' : Forest Bytes, (ofEdits edits).Captures depth root g ∧
      (ofEdits edits').Captures depth' root' g' ∧
      (image.bytes = image'.bytes ↔ g.rename Text.trimNul = g'.rename Text.trimNul) ∧
      ((∀ name ∈ g.names ++ g'.names, name.toList.getLast? ≠ some '\x00') →
        (image.bytes = image'.bytes ↔ g = g')) := by
  obtain ⟨g, hcaptures, hholds⟩ := (hierarchical_ofEdits edits).exists_captures h
  obtain ⟨g', hcaptures', hholds'⟩ := (hierarchical_ofEdits edits').exists_captures h'
  have hiff := hholds.bytes_eq_iff hholds'
  refine ⟨g, g', hcaptures, hcaptures', hiff, fun hnames => ?_⟩
  have htrim : g.rename Text.trimNul = g := by
    apply Forest.rename_eq_self
    intro name hname
    exact Text.trimNul_eq_self (hnames name (List.mem_append_left _ hname))
  have htrim' : g'.rename Text.trimNul = g' := by
    apply Forest.rename_eq_self
    intro name hname
    exact Text.trimNul_eq_self (hnames name (List.mem_append_right _ hname))
  rw [hiff, htrim, htrim']

/-- The files `x` and `x` with a NUL character behind it give the same image. -/
theorem trailing_nul_is_lost :
    ∃ image image' g g',
      ((Image.build 1 (.ofText "/a")).run respond
        (ofEdits [.addFile (.ofText "/a/x") [1, 2]])).outcome = .done image ∧
      ((Image.build 1 (.ofText "/b")).run respond
        (ofEdits [.addFile (.ofText "/b/x\x00") [1, 2]])).outcome = .done image' ∧
      (ofEdits [.addFile (.ofText "/a/x") [1, 2]]).Captures 1 (.ofText "/a") g ∧
      (ofEdits [.addFile (.ofText "/b/x\x00") [1, 2]]).Captures 1 (.ofText "/b") g' ∧
      image.bytes = image'.bytes ∧ g ≠ g' := by
  have hbuild : ∃ image, ((Image.build 1 (.ofText "/a")).run respond
      (ofEdits [.addFile (.ofText "/a/x") [1, 2]])).outcome = .done image := ⟨_, rfl⟩
  have hbuild' : ∃ image, ((Image.build 1 (.ofText "/b")).run respond
      (ofEdits [.addFile (.ofText "/b/x\x00") [1, 2]])).outcome = .done image := ⟨_, rfl⟩
  have hcaptures : (ofEdits [.addFile (.ofText "/a/x") [1, 2]]).Captures 1 (.ofText "/a")
      (.file "x" [1, 2] .nil) := ⟨rfl, [("x", .file)], rfl, .file rfl (.nil _)⟩
  have hcaptures' : (ofEdits [.addFile (.ofText "/b/x\x00") [1, 2]]).Captures 1 (.ofText "/b")
      (.file "x\x00" [1, 2] .nil) := ⟨rfl, [("x\x00", .file)], rfl, .file rfl (.nil _)⟩
  rcases hbuild with ⟨image, h⟩
  rcases hbuild' with ⟨image', h'⟩
  obtain ⟨g, g', hg, hg', hiff, -⟩ := images_eq_iff_trimmed_eq h h'
  have hbytes : image.bytes = image'.bytes := by
    rw [hiff, hg.unique hcaptures, hg'.unique hcaptures']
    rfl
  exact ⟨image, image', _, _, h, h', hcaptures, hcaptures', hbytes, by decide⟩

end Store

end TreeImage
