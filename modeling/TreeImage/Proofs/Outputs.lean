import TreeImage.Proofs.Reordering
import Mathlib.Data.Finset.Card

/-!
# Stores that are written to

A store can be edited, written to, and run on with itself as source and sink, in any order. What is
written is kept apart from the source: a store with other outputs answers the same and is edited in
the same way. So after any steps the source is that of the edits alone, a run that fails has changed
nothing, and the outputs are those of the writes and of the runs that succeeded, the last one for
each path.
-/

namespace TreeImage

namespace Table

variable {κ ν : Type} [DecidableEq κ]

/-- The table with all the pairs set, one after the other. -/
def setAll (t : Table κ ν) (pairs : List (κ × ν)) : Table κ ν :=
  pairs.foldl (fun t pair => t.set pair.1 pair.2) t

theorem setAll_append (t : Table κ ν) (pairs others : List (κ × ν)) :
    t.setAll (pairs ++ others) = (t.setAll pairs).setAll others := List.foldl_append

theorem setAll_concat (t : Table κ ν) (pairs : List (κ × ν)) (key : κ) (value : ν) :
    t.setAll (pairs ++ [(key, value)]) = (t.setAll pairs).set key value := by
  rw [setAll_append]
  rfl

/-- The last pair for a key counts. -/
theorem get?_setAll (pairs : List (κ × ν)) (key : κ) :
    (setAll [] pairs).get? key = (pairs.reverse.find? (·.1 = key)).map Prod.snd := by
  induction pairs using List.reverseRecOn with
  | nil => rfl
  | append_singleton pairs pair ih =>
    rcases pair with ⟨k, v⟩
    rw [setAll_concat, List.reverse_append, List.reverse_singleton, List.singleton_append,
      List.find?_cons]
    by_cases h : k = key
    · subst h
      rw [get?_set_self]
      simp
    · rw [get?_set_ne _ _ (Ne.symm h), ih]
      simp [h]

theorem nodup_keys_set {t : Table κ ν} (h : t.keys.Nodup) (key : κ) (value : ν) :
    (t.set key value).keys.Nodup := by
  rw [keys_set]
  split
  · exact h
  · next hnew =>
    rw [List.nodup_append]
    refine ⟨h, List.nodup_singleton key, fun k hk other hother => ?_⟩
    rw [List.mem_singleton.mp hother]
    rintro rfl
    exact hnew hk

theorem mem_keys_set {t : Table κ ν} {key other : κ} {value : ν} :
    other ∈ (t.set key value).keys ↔ other ∈ t.keys ∨ other = key := by
  rw [keys_set]
  split
  · next hold =>
    constructor
    · exact .inl
    · rintro (h | rfl)
      · exact h
      · exact hold
  · simp

theorem nodup_keys_setAll (pairs : List (κ × ν)) : (setAll [] pairs).keys.Nodup := by
  induction pairs using List.reverseRecOn with
  | nil => exact List.nodup_nil
  | append_singleton pairs pair ih =>
    rw [setAll_concat]
    exact nodup_keys_set ih _ _

theorem mem_keys_setAll {pairs : List (κ × ν)} {key : κ} :
    key ∈ (setAll [] pairs).keys ↔ key ∈ pairs.map Prod.fst := by
  induction pairs using List.reverseRecOn with
  | nil => rfl
  | append_singleton pairs pair ih =>
    rw [setAll_concat, mem_keys_set, ih, List.map_append, List.mem_append, List.map_singleton,
      List.mem_singleton]

/-- There is one pair for each key. -/
theorem length_setAll (pairs : List (κ × ν)) :
    (setAll [] pairs).length = (pairs.map Prod.fst).toFinset.card := by
  have hsame : (setAll [] pairs).keys.toFinset = (pairs.map Prod.fst).toFinset := by
    ext key
    rw [List.mem_toFinset, List.mem_toFinset, mem_keys_setAll]
  rw [← hsame, List.toFinset_card_of_nodup (nodup_keys_setAll pairs), keys, List.length_map]

end Table

namespace Store

/-- What can happen to a store that is both the source and the sink of runs. -/
inductive Step where
  | edit (change : Edit)
  | write (path : Path) (bytes : Bytes)
  | run (config : Config)

def Step.edit? : Step → Option Edit
  | .edit change => some change
  | _ => none

/-- A run on the store, which can go as deep as anything in it is. -/
def perform (s : Store) (config : Config) : Transcript Store Image :=
  (config.run s.depth).run respond s

def step (s : Store) : Step → Store
  | .edit change => s.apply change
  | .write path bytes => (respond (.write path bytes) s).2
  | .run config => (s.perform config).state

/-- The store that came of the steps, first to last. -/
def ofSteps (steps : List Step) : Store := steps.foldl step empty

/-- What a step writes, and where: what it was given, or the image of a run that succeeded. -/
def output? (s : Store) : Step → Option (Path × Bytes)
  | .edit _ => none
  | .write path bytes => some (path, bytes)
  | .run config =>
    match (s.perform config).outcome with
    | .done image => some (config.output, image.bytes)
    | _ => none

/-- What is written by the steps in turn. -/
def outputs (s : Store) : List Step → List (Path × Bytes)
  | [] => []
  | step :: rest => (s.output? step).toList ++ (s.step step).outputs rest

/-- What was last written to a path with the components of `path`. -/
def lastOutput? (outputs : List (Path × Bytes)) (path : Path) : Option Bytes :=
  (outputs.reverse.find? fun output => output.1.components = path.components).map Prod.snd

/-- The store with other outputs. -/
def withWritten (s : Store) (written : Table Address Bytes) : Store := { s with written }

variable {s : Store}

/-! ## Other outputs -/

section Outputs

variable (s : Store) (t : Table Address Bytes)

@[simp] theorem withWritten_withWritten (u : Table Address Bytes) :
    (s.withWritten t).withWritten u = s.withWritten u := rfl

theorem node?_withWritten (address : Address) : (s.withWritten t).node? address = s.node? address :=
  rfl

theorem setNode_withWritten (address : Address) (node : Node) :
    (s.withWritten t).setNode address node = (s.setNode address node).withWritten t := rfl

theorem appendName_withWritten (address : Address) (name : String) :
    (s.withWritten t).appendName address name = (s.appendName address name).withWritten t := by
  unfold appendName
  rw [node?_withWritten]
  split
  · rfl
  · rfl

theorem link_withWritten (address : Address) :
    (s.withWritten t).link address = (s.link address).withWritten t := by
  induction address with
  | nil => rfl
  | cons last above ih =>
    unfold link
    simp only [node?_withWritten, ih, setNode_withWritten]
    split
    · rfl
    · split
      · rfl
      · split
        · exact appendName_withWritten ..
        · exact appendName_withWritten ..

/-- Edits neither see nor change what was written. -/
theorem apply_withWritten (edit : Edit) :
    (s.withWritten t).apply edit = (s.apply edit).withWritten t := by
  cases edit with
  | addDirectory path =>
    simp only [Store.apply, addDirectory, node?_withWritten, link_withWritten]
    split
    · rfl
    · exact setNode_withWritten ..
  | addFile path contents =>
    simp only [Store.apply, addFile, node?_withWritten, link_withWritten]
    split
    · exact setNode_withWritten ..
    · exact setNode_withWritten ..

theorem built_withWritten (extra : Nat) (root : Path) :
    (s.withWritten t).built extra root = s.built extra root := by
  have hreads := Image.readOnly_build (s.depth + extra) root
  exact (run_respond hreads (s.withWritten t)).1.trans (run_respond hreads s).1.symm

end Outputs

/-! ## Runs -/

theorem deliver_cases (s : Store) (config : Config) (image : Image) :
    (((config.deliver image).run respond s).outcome = .done image ∧
      ((config.deliver image).run respond s).state = s.write config.output image.bytes) ∨
    ∃ failure, ((config.deliver image).run respond s).outcome = .failed failure ∧
      ((config.deliver image).run respond s).state = s := by
  unfold Config.deliver
  split
  · unfold Image.verify
    cases Reading.ofBytes image.bytes with
    | ok reading => exact .inl ⟨rfl, rfl⟩
    | error failure => exact .inr ⟨failure, rfl, rfl⟩
  · exact .inl ⟨rfl, rfl⟩

/-- A run writes the image that it ends with, and nothing if it does not end with one. -/
theorem perform_cases (s : Store) (config : Config) :
    (∃ image, s.built 0 config.source = .done image ∧ (s.perform config).outcome = .done image ∧
      (s.perform config).state = s.write config.output image.bytes) ∨
    (∃ failure, (s.perform config).outcome = .failed failure ∧ (s.perform config).state = s) ∨
    s.built 0 config.source = .unfinished ∧ (s.perform config).outcome = .unfinished ∧
      (s.perform config).state = s := by
  have houtcome : (s.perform config).outcome =
      ((Image.build s.depth config.source >>= config.deliver).run respond s).outcome := rfl
  have hstate : (s.perform config).state =
      ((Image.build s.depth config.source >>= config.deliver).run respond s).state := rfl
  have hsame := (run_respond (Image.readOnly_build s.depth config.source) s).2
  have hbuilt : ((Image.build s.depth config.source).run respond s).outcome =
      s.built 0 config.source := rfl
  rw [houtcome, hstate, Session.run_bind, Transcript.andThen, hsame, hbuilt]
  cases s.built 0 config.source with
  | done image =>
    rcases s.deliver_cases config image with ⟨hdone, hwritten⟩ | ⟨failure, hfailed, hsame⟩
    · exact .inl ⟨image, rfl, hdone, hwritten⟩
    · exact .inr (.inl ⟨failure, hfailed, hsame⟩)
  | failed failure => exact .inr (.inl ⟨failure, rfl, rfl⟩)
  | unfinished => exact .inr (.inr ⟨rfl, rfl, rfl⟩)

/-! ## Steps -/

/-- What is written, by the address of where it is. -/
def addressed (outputs : List (Path × Bytes)) : List (Address × Bytes) :=
  outputs.map fun output => (output.1.address, output.2)

/-- A step does what its edit does, if it is one, and else no more than to write its output. -/
theorem step_eq (s : Store) (step : Step) :
    s.step step = (step.edit?.elim s s.apply).withWritten
      (s.written.setAll (addressed (s.output? step).toList)) := by
  cases step with
  | edit change =>
    -- An edit leaves the outputs of `s` as they are, whatever they are.
    exact apply_withWritten s s.written change
  | write path bytes => rfl
  | run config =>
    rcases s.perform_cases config with ⟨image, -, hdone, hstate⟩ | ⟨failure, hfailed, hstate⟩ |
      ⟨-, hunfinished, hstate⟩
    · simp only [step, output?, hdone, hstate]
      rfl
    · simp only [step, output?, hfailed, hstate]
      rfl
    · simp only [step, output?, hunfinished, hstate]
      rfl

theorem ofSteps_concat (steps : List Step) (last : Step) :
    ofSteps (steps ++ [last]) = (ofSteps steps).step last := by
  rw [ofSteps, List.foldl_append]
  rfl

theorem outputs_append (s : Store) (steps later : List Step) :
    s.outputs (steps ++ later) = s.outputs steps ++ (steps.foldl step s).outputs later := by
  induction steps generalizing s with
  | nil => rfl
  | cons step rest ih =>
    rw [List.cons_append, outputs, ih, outputs, List.append_assoc, List.foldl_cons]

theorem outputs_concat (steps : List Step) (last : Step) :
    empty.outputs (steps ++ [last]) =
      empty.outputs steps ++ ((ofSteps steps).output? last).toList := by
  rw [outputs_append, outputs, outputs, List.append_nil]
  rfl

/-- The edits and the outputs of the steps are all that is left of them. -/
theorem ofSteps_eq (steps : List Step) :
    ofSteps steps = (ofEdits (steps.filterMap Step.edit?)).withWritten
      (Table.setAll [] (addressed (empty.outputs steps))) := by
  induction steps using List.reverseRecOn with
  | nil => rfl
  | append_singleton steps last ih =>
    have hwritten : (ofSteps steps).written = Table.setAll [] (addressed (empty.outputs steps)) :=
      congrArg written ih
    rw [ofSteps_concat, step_eq, hwritten, ← Table.setAll_append, addressed, addressed,
      ← List.map_append, ← outputs_concat, ← addressed, ih, List.filterMap_append]
    cases hedit : last.edit? with
    | none => simp [hedit]
    | some change =>
      simp only [List.filterMap_cons, List.filterMap_nil, hedit, ofEdits_concat, Option.elim_some,
        apply_withWritten, withWritten_withWritten]

/-- Addresses are components read backwards, so that they agree where components do. -/
theorem get?_addressed (outputs : List (Path × Bytes)) (path : Path) :
    (Table.setAll [] (addressed outputs)).get? path.address = lastOutput? outputs path := by
  rw [Table.get?_setAll, lastOutput?, addressed, ← List.map_reverse, List.find?_map,
    Option.map_map]
  simp only [Function.comp_def, Path.address, List.reverse_inj]

theorem card_addressed (outputs : List (Path × Bytes)) :
    ((addressed outputs).map Prod.fst).toFinset.card =
      (outputs.map fun output => output.1.components).toFinset.card := by
  have hreversed : ((addressed outputs).map Prod.fst).toFinset =
      (outputs.map fun output => output.1.components).toFinset.image List.reverse := by
    ext address
    simp [addressed, Path.address]
  rw [hreversed, Finset.card_image_of_injective _ List.reverse_injective]

/-- What a store that came of the steps has kept of them. -/
structure Separates (s : Store) (steps : List Step) : Prop where
  isDirectory : ∀ path, s.isDirectory path = (ofEdits (steps.filterMap Step.edit?)).isDirectory path
  entries : ∀ path, s.entries path = (ofEdits (steps.filterMap Step.edit?)).entries path
  size : ∀ path, s.size path = (ofEdits (steps.filterMap Step.edit?)).size path
  contents : ∀ path, s.contents path = (ofEdits (steps.filterMap Step.edit?)).contents path
  /-- Every build ends, and as it does after the edits alone. -/
  built : ∀ extra root, s.built extra root = (ofEdits (steps.filterMap Step.edit?)).built extra root
    ∧ s.built extra root ≠ .unfinished
  written : ∀ path, s.written? path = lastOutput? (empty.outputs steps) path
  writeCount : s.writeCount =
    ((empty.outputs steps).map fun output => output.1.components).toFinset.card
  /-- A run either ends with an image or fails, and then it changes nothing. -/
  perform : ∀ config, (∃ image, (s.perform config).outcome = .done image) ∨
    ∃ failure, (s.perform config).outcome = .failed failure ∧ (s.perform config).state = s

/-- Writes and runs leave the source as the edits made it, and only what was written last for each
path is kept. -/
theorem ofSteps_separates (steps : List Step) : (ofSteps steps).Separates steps := by
  have heq := ofSteps_eq steps
  have hbuilt : ∀ extra root, (ofSteps steps).built extra root =
      (ofEdits (steps.filterMap Step.edit?)).built extra root := by
    intro extra root
    rw [heq, built_withWritten]
  have hends : ∀ extra root, (ofSteps steps).built extra root ≠ .unfinished := by
    intro extra root
    rw [hbuilt]
    exact built_ne_unfinished _ extra root
  constructor
  · intro path
    rw [heq]
    rfl
  · intro path
    rw [heq]
    rfl
  · intro path
    rw [heq]
    rfl
  · intro path
    rw [heq]
    rfl
  · exact fun extra root => ⟨hbuilt extra root, hends extra root⟩
  · intro path
    rw [heq, ← get?_addressed]
    rfl
  · rw [heq, ← card_addressed, ← Table.length_setAll]
    rfl
  · intro config
    rcases (ofSteps steps).perform_cases config with ⟨image, -, hdone, -⟩ | hfailed |
      ⟨hunfinished, -⟩
    · exact .inl ⟨image, hdone⟩
    · exact .inr hfailed
    · exact absurd hunfinished (hends 0 config.source)

/-- What is written where a file is packed does not replace that file. -/
example :
    let s := ofSteps [.edit (.addFile (.ofText "/a/x") [1]),
      .run { source := .ofText "/a", output := .ofText "/a/x" }, .write (.ofText "/a//x") [7],
      .run { source := .ofText "/b", output := .ofText "/c" }]
    s.contents (.ofText "/a/x") = .ok [1] ∧ s.written? (.ofText "/a/x/.") = some [7] ∧
      s.writeCount = 1 :=
  ⟨rfl, rfl, rfl⟩

end Store

end TreeImage
