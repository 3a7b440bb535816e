import TreeImage.Proofs.Carrying
import TreeImage.Proofs.History
import Mathlib.Logic.Relation

/-!
# Exactness of stores

What a capture of a store shows is what its listings lead to. Where every node that names lead to
through directories has a text for its name, these are just the nodes so reached, each once and with
its kind; nodes below a path that became a file are not reached. A name that is no text is listed as
another name. A node of that name is missed, and what stands at the other name is shown instead, or
a file, if nothing does. A build of a store ends all the same, and never fails on a question it asks
the store.
-/

namespace TreeImage

namespace Forest

variable {α β : Type}

end Forest

namespace Store

/-- Names lead down from `root` to `address`, and only through directories. -/
structure Leads (s : Store) (root address : Address) : Prop where
  names : ∃ names, names ≠ [] ∧ address = names.map .normal ++ root
  through : ∀ above, root <:+ above → above <:+ address → above ≠ address →
    ∃ listed, s.node? above = some (.directory listed)

/-- Whatever is reached from `root` has a text for its name. -/
def Legible (s : Store) (root : Address) : Prop :=
  ∀ name above, s.Leads root (.normal name :: above) → (s.node? (.normal name :: above)).isSome →
    Text.IsUtf8 name

/-- The directory `above` lists `place`, whether something stands there or not. -/
def Lists (s : Store) (above place : Address) : Prop :=
  ∃ names name, s.node? above = some (.directory names) ∧ name ∈ names ∧
    place = .normal (Text.utf8 name) :: above

variable {s : Store} {above address : Address} {f : Forest (Option Bytes)} {names : List String}
  {name : Bytes}

/-! ## What is reached -/

theorem Leads.suffix (h : s.Leads above address) : above <:+ address ∧ above ≠ address := by
  obtain ⟨names, hne, rfl⟩ := h.names
  refine ⟨List.suffix_append _ _, fun heq => hne ?_⟩
  have hlength := congrArg List.length heq
  rw [List.length_append, List.length_map] at hlength
  exact List.eq_nil_of_length_eq_zero (by omega)

theorem Leads.exists_directory (h : s.Leads above address) :
    ∃ listed, s.node? above = some (.directory listed) :=
  h.through above List.suffix_rfl h.suffix.1 h.suffix.2

theorem leads_below (hnode : s.node? above = some (.directory names)) (name : Bytes) :
    s.Leads above (.normal name :: above) := by
  refine ⟨⟨[name], by simp, rfl⟩, fun place hplace hbelow hother => ?_⟩
  rcases List.suffix_cons_iff.mp hbelow with heq | hbelow
  · exact absurd heq hother
  · rw [hbelow.eq_of_length (Nat.le_antisymm hbelow.length_le hplace.length_le)]
    exact ⟨names, hnode⟩

theorem Leads.from_above (h : s.Leads (.normal name :: above) address)
    (hnode : s.node? above = some (.directory names)) : s.Leads above address := by
  obtain ⟨way, -, haddress⟩ := h.names
  refine ⟨⟨way ++ [name], by simp, by rw [haddress]; simp⟩, fun place hplace hbelow hother => ?_⟩
  rcases List.suffix_or_suffix_of_suffix hbelow h.suffix.1 with hup | hdown
  · rcases List.suffix_cons_iff.mp hup with heq | hup
    · rw [heq]
      exact h.exists_directory
    · rw [hup.eq_of_length (Nat.le_antisymm hup.length_le hplace.length_le)]
      exact ⟨names, hnode⟩
  · exact h.through place hdown hbelow hother

theorem Legible.isUtf8 (h : s.Legible above) (hnode : s.node? above = some (.directory names))
    (name : Bytes) (hstands : (s.node? (.normal name :: above)).isSome) : Text.IsUtf8 name :=
  h name above (leads_below hnode name) hstands

theorem Legible.below (h : s.Legible above) (hnode : s.node? above = some (.directory names)) :
    s.Legible (.normal name :: above) :=
  fun n place hleads => h n place (hleads.from_above hnode)

/-- Where all names are texts, siblings have different names. -/
theorem Hierarchical.distinct (h : s.Hierarchical) (hlegible : s.Legible above)
    (hnode : s.node? above = some (.directory names)) (hcarries : s.Carries above f)
    (hnodup : f.tops.Nodup) : f.Distinct := by
  induction f generalizing above names with
  | nil => trivial
  | file name contents rest ih =>
    obtain ⟨hname, hrest⟩ := List.nodup_cons.mp hnodup
    exact ⟨hname, ih hlegible hnode hcarries.2 hrest⟩
  | directory name children rest ihc ih =>
    obtain ⟨hname, hrest⟩ := List.nodup_cons.mp hnodup
    obtain ⟨hchild, hchildren, hothers⟩ := hcarries
    have hbelow : s.Legible (.normal (Text.utf8 name) :: above) := hlegible.below hnode
    exact ⟨hname, ihc hbelow hchild hchildren (h.nodup (hbelow.isUtf8 hchild) hchild),
      ih hlegible hnode hothers hrest⟩

theorem isDirectory_iff {path : Path} :
    s.isDirectory path = true ↔ ∃ names, s.node? path.address = some (.directory names) := by
  unfold isDirectory
  split
  · next names hnode => simp [hnode]
  · next hnone => exact ⟨by simp, fun ⟨names, hnode⟩ => (hnone names hnode).elim⟩

theorem capture_eq_failed {root : Path} (h : s.isDirectory root = false) (depth : Nat) :
    ((Tree.capture depth root).run respond s).outcome = .failed (.notADirectory root) := by
  show ((if s.isDirectory root then _ else Session.fail (.notADirectory root)).run respond
    s).outcome = _
  rw [h]
  rfl

/-- A build fails where there is nothing to capture. -/
theorem build_eq_failed {root : Path} (h : s.isDirectory root = false) (depth : Nat) :
    ((Image.build depth root).run respond s).outcome = .failed (.notADirectory root) := by
  rw [Image.build, Session.run_bind, Transcript.andThen, capture_eq_failed h]

/-- A build of what is below a directory ends, with an image just if that can be stored. -/
theorem Below.build_ends {root : Path} (hf : s.Below root.address f) (h : s.Hierarchical)
    (extra : Nat) :
    ((∃ image, ((Image.build (s.depth + extra) root).run respond s).outcome = .done image) ∧
        f.filled.Storable) ∨
      ((∃ failure, ((Image.build (s.depth + extra) root).run respond s).outcome =
          .failed failure ∧ failure.Unstorable) ∧ ¬f.filled.Storable) := by
  rw [(run_respond (Image.readOnly_build _ root) s).1]
  exact (hf.offers h).build_ends s.source.answers_respond (hf.isName h)
    (Nat.lt_add_right extra hf.height_lt) ()

end Store

end TreeImage
