import TreeImage.Capture
import TreeImage.Proofs.Course

/-!
# The calls of a capture

A capture asks whether its root is a directory and then lists the directories of the forest that it
gives: each of them once, right after the one that lists it and before that one's later siblings.
When a listing fails, the calls are those of some forest that agrees with what was listed before,
cut short at the call that failed.
-/

namespace TreeImage

namespace Forest

variable {α : Type}

/-- What a directory with these trees in it lists. -/
def listing (f : Forest α) : List (String × Kind) := f.toList.map fun tree => (tree.name, tree.kind)

@[simp] theorem listing_nil : (.nil : Forest α).listing = [] := rfl

@[simp] theorem listing_file (name : String) (content : α) (rest : Forest α) :
    (Forest.file name content rest).listing = (name, .file) :: rest.listing := rfl

@[simp] theorem listing_directory (name : String) (children rest : Forest α) :
    (Forest.directory name children rest).listing = (name, .directory) :: rest.listing := rfl

/-- The calls for what is below `dir`: every directory lists its entries, and what is below it comes
before its later siblings. -/
def walkBelow (dir : Path) : Forest α → List Call
  | .nil => []
  | .file _ _ rest => rest.walkBelow dir
  | .directory name children rest =>
    ⟨.entries (dir.join name), .ok children.listing⟩ ::
      (children.walkBelow (dir.join name) ++ rest.walkBelow dir)

/-- The calls that list `dir` and all directories below it in pre-order, each place once. -/
def walk (dir : Path) (f : Forest α) : List Call :=
  ⟨.entries dir, .ok f.listing⟩ :: f.walkBelow dir

/-- A forest with this listing and nothing in its directories. -/
def bare : List (String × Kind) → Forest Unit
  | [] => .nil
  | (name, .file) :: others => .file name () (bare others)
  | (name, .directory) :: others => .directory name .nil (bare others)

@[simp] theorem listing_bare (entries : List (String × Kind)) :
    (bare entries).listing = entries := by
  induction entries with
  | nil => rfl
  | cons entry others ih =>
    rcases entry with ⟨name, kind⟩
    cases kind <;> simp [bare, ih]

/-- The calls walk a forest, up to where the walk ends without it. Of the forest no more is known
than what was listed so far. -/
inductive Walked (known : Forest Unit → Prop) (walk : Forest Unit → List Call) :
    List Call → Outcome (Forest Unit) → Prop
  | done {f : Forest Unit} : known f → Walked known walk (walk f) (.done f)
  | failed {f : Forest Unit} {calls : List Call} {failure : Failure} : known f →
      Call.Breaks (walk f) calls failure → Walked known walk calls (.failed failure)
  | unfinished {f : Forest Unit} {calls : List Call} : known f → calls <+: walk f →
      Walked known walk calls .unfinished

theorem Walked.map {known known' : Forest Unit → Prop} {walk walk' : Forest Unit → List Call}
    {calls : List Call} {outcome : Outcome (Forest Unit)} (h : Walked known walk calls outcome)
    (g : Forest Unit → Forest Unit) (front : List Call) (hknown : ∀ f, known f → known' (g f))
    (hwalk : ∀ f, known f → walk' (g f) = front ++ walk f) :
    Walked known' walk' (front ++ calls) (outcome.map g) := by
  cases h with
  | @done f hf =>
    rw [← hwalk f hf]
    exact .done (hknown f hf)
  | @failed f calls failure hf hbreaks =>
    refine .failed (hknown f hf) ?_
    rw [hwalk f hf]
    exact hbreaks.behind front
  | @unfinished f calls hf hbegins =>
    refine .unfinished (hknown f hf) ?_
    rw [hwalk f hf]
    exact (List.prefix_append_right_inj front).mpr hbegins

theorem walked_of_ofListing {below : Path → Session (Forest Unit)}
    (hbelow : ∀ {path calls outcome}, (below path).Course calls outcome →
      Walked (fun _ => True) (walk path) calls outcome)
    {parent : Path} {entries : List (String × Kind)} {calls : List Call}
    {outcome : Outcome (Forest Unit)}
    (h : (ofListing below parent entries).Course calls outcome) :
    Walked (fun f => f.listing = entries) (walkBelow parent) calls outcome := by
  induction entries generalizing calls outcome with
  | nil =>
    obtain ⟨rfl, rfl⟩ := Session.Course.of_done h
    exact .done (f := .nil) rfl
  | cons entry others ih =>
    rcases entry with ⟨name, kind⟩
    cases kind with
    | file =>
      obtain ⟨first, hrest, rfl⟩ := Session.Course.of_map h
      refine (ih hrest).map (.file name ()) [] (fun f hf => ?_) fun f _ => rfl
      rw [listing_file, hf]
    | directory =>
      rcases Session.Course.of_bind h with ⟨children, front, later, hchildren, hlater, rfl⟩ |
        ⟨failure, hchildren, rfl⟩ | ⟨hchildren, rfl⟩
      · obtain ⟨first, hrest, rfl⟩ := Session.Course.of_map hlater
        cases hbelow hchildren with
        | done =>
          refine (ih hrest).map (.directory name children) (walk (parent.join name) children)
            (fun f hf => ?_) fun f _ => rfl
          rw [listing_directory, hf]
      · cases hbelow hchildren with
        | @failed f _ _ _ hbreaks =>
          exact .failed (f := .directory name f (bare others)) (by simp) (hbreaks.append _)
      · cases hbelow hchildren with
        | @unfinished f _ _ hbegins =>
          exact .unfinished (f := .directory name f (bare others)) (by simp)
            (hbegins.trans (List.prefix_append _ _))

/-- Capturing lists the directories in pre-order, each place once, until a listing fails. -/
theorem walked_of_capture {depth : Nat} {path : Path} {calls : List Call}
    {outcome : Outcome (Forest Unit)} (h : (capture depth path).Course calls outcome) :
    Walked (fun _ => True) (walk path) calls outcome := by
  induction depth generalizing path calls outcome with
  | zero =>
    cases h
    exact .unfinished (f := .nil) trivial List.nil_prefix
  | succ depth ih =>
    obtain ⟨answer, later, rfl, hlater⟩ := Session.Course.of_ask h
    rcases Session.Course.of_ofExcept_bind hlater with ⟨entries, rfl, hlisted⟩ |
      ⟨failure, rfl, rfl, rfl⟩
    · have hwalked := walked_of_ofListing ih (Session.Course.of_report_bind hlisted)
      rw [← Outcome.map_id outcome]
      refine hwalked.map id [_] (fun _ _ => trivial) fun f hf => ?_
      rw [← hf]
      rfl
    · exact .failed (f := .nil) trivial (.here rfl rfl)

end Forest

theorem Forest.forall_walkBelow {α : Type} (dir : Path) (f : Forest α) :
    ∀ call ∈ f.walkBelow dir, call.failure? = none := by
  induction f generalizing dir with
  | nil => simp [walkBelow]
  | file name content rest ih => exact ih dir
  | directory name children rest ihc ih =>
    intro call hcall
    simp only [walkBelow, List.mem_cons, List.mem_append] at hcall
    rcases hcall with rfl | hcall | hcall
    · rfl
    · exact ihc _ call hcall
    · exact ih dir call hcall

theorem Forest.forall_walk {α : Type} (dir : Path) (f : Forest α) :
    ∀ call ∈ f.walk dir, call.failure? = none := by
  intro call hcall
  rcases List.mem_cons.mp hcall with rfl | hcall
  · rfl
  · exact f.forall_walkBelow dir call hcall

/-- A tree is captured from a directory only; its calls come after the one that asks for that. -/
inductive Tree.Captured (root : Path) : Bool → List Call → Outcome (Tree Unit) → Prop
  | refused : Captured root false [] (.failed (.notADirectory root))
  | walked {calls : List Call} {outcome : Outcome (Forest Unit)} :
      Forest.Walked (fun _ => True) (Forest.walk root) calls outcome →
      Captured root true calls (outcome.map (.directory (root.fileName?.getD "")))

theorem Tree.captured_of_capture {depth : Nat} {root : Path} {calls : List Call}
    {outcome : Outcome (Tree Unit)} (h : (Tree.capture depth root).Course calls outcome) :
    ∃ isDirectory listed, calls = ⟨.isDirectory root, isDirectory⟩ :: listed ∧
      Captured root isDirectory listed outcome := by
  obtain ⟨isDirectory, listed, rfl, hlisted⟩ := Session.Course.of_ask h
  refine ⟨isDirectory, listed, rfl, ?_⟩
  cases isDirectory with
  | false =>
    obtain ⟨rfl, rfl⟩ := Session.Course.of_fail hlisted
    exact .refused
  | true =>
    obtain ⟨first, hwalked, rfl⟩ := Session.Course.of_map hlisted
    exact .walked (Forest.walked_of_capture hwalked)

theorem Tree.Captured.endAtFailure {root : Path} {isDirectory : Bool} {listed : List Call}
    {outcome : Outcome (Tree Unit)} (h : Captured root isDirectory listed outcome) :
    Call.EndAtFailure outcome.failure? (⟨.isDirectory root, isDirectory⟩ :: listed) := by
  cases h with
  | refused => exact Call.endAtFailure_singleton fun failure hfailure => hfailure
  | walked h =>
    refine ⟨fun failure hfailure => (by cases hfailure), ?_⟩
    cases h with
    | @done f _ => exact Call.endAtFailure_of_forall (f.forall_walk root)
    | @failed f _ failure _ hbreaks =>
      obtain ⟨front, call, rfl, hbegins, hfails⟩ := hbreaks.exists_last
      refine Call.endAtFailure_append (fun c hc => f.forall_walk root c (hbegins.subset hc)) ?_
      refine Call.endAtFailure_singleton fun other hother => ?_
      rw [hfails] at hother
      exact hother
    | @unfinished f _ _ hbegins =>
      exact Call.endAtFailure_of_forall fun c hc => f.forall_walk root c (hbegins.subset hc)

end TreeImage
