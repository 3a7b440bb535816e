import TreeImage.Store
import TreeImage.Proofs.Planning

/-!
# Reading an image back

Nothing that packing writes into an image can make the reader refuse it, neither names nor offsets
nor totals: what remains is whether the layout was consistent. A build plans its layout, and so an
image of a build is never refused. To ask for it to be read back makes no difference but one event.
-/

namespace TreeImage

namespace Image

variable {layout : Layout} {loads : List Load} {image : Image}

/-- A packed image is read if its layout is consistent, and only then. -/
theorem Packs.readable_iff (h : image.Packs layout loads) :
    (∃ reading, Reading.ofBytes image.bytes = .ok reading) ↔ layout.Consistent := by
  have hfiles : (Load.records 0 loads).countP Record.isFile =
      layout.entries.countP (·.kind = .file) := by
    rw [Load.countP_records, h.entries]
  have hcounts : ((Load.records 0 loads).map (Record.rename Text.untilNul)).map Record.childCount? =
      layout.entries.map Entry.childCount? := by
    rw [← h.entries, List.map_map, List.map_map]
    simpa [Function.comp_def] using Load.map_childCount?_records 0 loads
  constructor
  · intro hreadable
    rcases hreadable with ⟨reading, hreading⟩
    obtain ⟨-, -, hcount, -, f, hlength, hpre, -⟩ := h.assembled.ofBytes_eq_ok_iff.mp hreading
    constructor
    · rw [← h.fileCount, ← hcount, hfiles]
    · refine ⟨f.map fun _ => (), ?_, ?_⟩
      · rw [Forest.length_map, hlength, h.rootEntries]
      · rw [Forest.counts_map, hpre.counts_eq, hcounts]
  · intro hconsistent
    rcases hconsistent with ⟨hcount, g, hlength, hg⟩
    obtain ⟨f, hf, hpre⟩ := Record.exists_preorder (hg.trans hcounts.symm)
    refine ⟨⟨_, _, _⟩, h.assembled.ofBytes_eq_ok_iff.mpr
      ⟨rfl, rfl, ?_, Load.within_data loads, f, ?_, hpre, rfl⟩⟩
    · rw [hfiles, ← hcount, h.fileCount]
    · rw [hf, hlength, h.rootEntries]

section Runs

variable {σ : Type} {respond : (request : Request) → σ → request.Answer × σ}

/-- The image of a build is never refused. -/
theorem exists_reading_of_build {depth : Nat} {root : Path} {before after : σ}
    (h : (build depth root).Ends respond before image after) :
    ∃ reading, Reading.ofBytes image.bytes = .ok reading := by
  obtain ⟨tree, layout, captured, -, hplan, hpack⟩ := planned_of_build h
  obtain ⟨loads, hpacks, -⟩ := packs_of_ends hpack
  exact hpacks.readable_iff.mpr (Tree.consistent_of_plan hplan)

theorem run_verify_agree (respond : (request : Request) → σ → request.Answer × σ) (depth : Nat)
    (config : Config) (state : σ) :
    ((Config.run depth { config with verify := true }).run respond state).Agree
      ((Config.run depth { config with verify := false }).run respond state) := by
  unfold Config.run
  rw [Session.run_bind, Session.run_bind]
  refine .andThen _ fun _ _ => ?_
  rw [Session.run_bind, Session.run_bind]
  refine .andThen _ fun image himage => ?_
  obtain ⟨reading, hreading⟩ := exists_reading_of_build ⟨himage, rfl⟩
  simp only [Config.deliver, verify, hreading]
  exact ⟨rfl, rfl, rfl⟩

end Runs

/-- What was packed is read back just if its layout was consistent. Planned layouts are, and so a
run with verification ends like one without, having made the same requests. -/
theorem verify_accepts_consistent_layouts {σ : Type}
    (respond : (request : Request) → σ → request.Answer × σ) :
    (∀ (root : Path) (layout : Layout) (state : σ) (image : Image),
      ((pack root layout).run respond state).outcome = .done image →
        ((∃ reading, Reading.ofBytes image.bytes = .ok reading) ↔ layout.Consistent)) ∧
    (∀ (tree : Tree Unit) (layout : Layout), tree.plan = .ok layout → layout.Consistent) ∧
    ∀ (depth : Nat) (config : Config) (state : σ),
      ((Config.run depth { config with verify := true }).run respond state).Agree
        ((Config.run depth { config with verify := false }).run respond state) := by
  refine ⟨?_, fun tree layout hplan => Tree.consistent_of_plan hplan, run_verify_agree respond⟩
  intro root layout state image h
  obtain ⟨after, hends⟩ := Session.outcome_eq_done_iff.mp h
  obtain ⟨loads, hpacks, -⟩ := packs_of_ends hends
  exact hpacks.readable_iff

/-- A directory that states a child which no entry is for can be packed, but not read back. -/
theorem childless_directory_is_refused :
    ∃ image, ((pack (.ofText "/a") ⟨[.directory "d/" 1], [("", ⟨0, 1, 1⟩)], 0⟩).run Store.respond
        Store.empty).outcome = .done image ∧
      ¬∃ reading, Reading.ofBytes image.bytes = .ok reading := by
  have hpack : ∃ image, ((pack (.ofText "/a") ⟨[.directory "d/" 1], [("", ⟨0, 1, 1⟩)], 0⟩).run
      Store.respond Store.empty).outcome = .done image := ⟨_, rfl⟩
  rcases hpack with ⟨image, himage⟩
  refine ⟨image, himage, ?_⟩
  rw [(verify_accepts_consistent_layouts Store.respond).1 _ _ _ _ himage]
  intro hconsistent
  rcases hconsistent with ⟨-, f, -, hcounts⟩
  cases f with
  | nil => simp [Forest.counts] at hcounts
  | file => simp [Forest.counts, Entry.childCount?] at hcounts
  | directory name children rest =>
    simp only [Forest.counts, List.map_cons, List.map_nil, List.cons.injEq] at hcounts
    rcases hcounts with ⟨hlength, hnone⟩
    cases children with
    | nil => simp [Forest.length, Entry.childCount?] at hlength
    | file => simp [Forest.counts] at hnone
    | directory => simp [Forest.counts] at hnone

end Image

end TreeImage
