import TreeImage.Proofs.Transcript

/-!
# Courses of sessions

What a session does depends on the answers it is given. A course is one way it can go: the calls
that it makes, each request with its answer, and how it ends. No surroundings occur here, and so
what holds of every course holds whatever the surroundings are and however they change. A course of
two sessions in sequence is a course of the first one and, if that ends with a result, one of the
second behind it.
-/

namespace TreeImage

/-- The end of a session whose result is changed. -/
def Outcome.map {α β : Type} (f : α → β) : Outcome α → Outcome β
  | .done result => .done (f result)
  | .failed failure => .failed failure
  | .unfinished => .unfinished

@[simp] theorem Outcome.map_id {α : Type} (outcome : Outcome α) : outcome.map id = outcome := by
  cases outcome <;> rfl

/-- The failure that a session ended with, if it did. -/
def Outcome.failure? {α : Type} : Outcome α → Option Failure
  | .failed failure => some failure
  | _ => none

/-- A request with its answer. -/
structure Call where
  request : Request
  answer : request.Answer

namespace Call

/-- What went wrong with a call, if anything. A root that is no directory counts. -/
def failure? : Call → Option Failure
  | ⟨.isDirectory path, isDirectory⟩ => if isDirectory then none else some (.notADirectory path)
  | ⟨.entries _, .error failure⟩ => some failure
  | ⟨.size _, .error failure⟩ => some failure
  | ⟨.contents _, .error failure⟩ => some failure
  | ⟨.write _ _, .error failure⟩ => some failure
  | _ => none

/-- The calls are those of `walk` up to one that fails, which is the last. -/
inductive Breaks : (walk calls : List Call) → Failure → Prop
  | here {expected call : Call} {later : List Call} {failure : Failure} :
      call.request = expected.request → call.failure? = some failure →
      Breaks (expected :: later) [call] failure
  | later (call : Call) {walk calls : List Call} {failure : Failure} : Breaks walk calls failure →
      Breaks (call :: walk) (call :: calls) failure

theorem Breaks.append {walk calls : List Call} {failure : Failure} (h : Breaks walk calls failure)
    (behind : List Call) : Breaks (walk ++ behind) calls failure := by
  induction h with
  | here hrequest hfails => exact .here hrequest hfails
  | later call _ ih => exact .later call ih

theorem Breaks.behind {walk calls : List Call} {failure : Failure} (h : Breaks walk calls failure)
    (front : List Call) : Breaks (front ++ walk) (front ++ calls) failure := by
  induction front with
  | nil => exact h
  | cons call front ih => exact .later call ih

/-- The calls end with the one that failed. -/
theorem Breaks.exists_last {walk calls : List Call} {failure : Failure}
    (h : Breaks walk calls failure) :
    ∃ front call, calls = front ++ [call] ∧ front <+: walk ∧ call.failure? = some failure := by
  induction h with
  | @here expected call later failure _ hfails =>
    exact ⟨[], call, rfl, List.nil_prefix, hfails⟩
  | @later call walk calls failure _ ih =>
    obtain ⟨front, last, rfl, hfront, hfails⟩ := ih
    exact ⟨call :: front, last, rfl, List.prefix_cons_inj call |>.mpr hfront, hfails⟩

/-- A call that failed is the last one, and its failure is what came of it all. -/
def EndAtFailure (failed : Option Failure) : List Call → Prop
  | [] => True
  | call :: later =>
    (∀ failure, call.failure? = some failure → later = [] ∧ failed = some failure) ∧
      EndAtFailure failed later

variable {failed : Option Failure}

theorem endAtFailure_append {front later : List Call}
    (hfront : ∀ call ∈ front, call.failure? = none) (h : EndAtFailure failed later) :
    EndAtFailure failed (front ++ later) := by
  induction front with
  | nil => exact h
  | cons call front ih =>
    refine ⟨fun failure hfailure => ?_, ih fun c hc => hfront c (List.mem_cons_of_mem _ hc)⟩
    rw [hfront call (List.mem_cons_self ..)] at hfailure
    cases hfailure

theorem endAtFailure_of_forall {calls : List Call} (h : ∀ call ∈ calls, call.failure? = none) :
    EndAtFailure failed calls := by
  rw [← List.append_nil calls]
  exact endAtFailure_append h trivial

theorem endAtFailure_singleton {call : Call}
    (h : ∀ failure, call.failure? = some failure → failed = some failure) :
    EndAtFailure failed [call] := ⟨fun failure hfailure => ⟨rfl, h failure hfailure⟩, trivial⟩

/-- Where nothing failed in the end, no call did. -/
theorem EndAtFailure.forall_of_none {calls : List Call} (h : EndAtFailure none calls) :
    ∀ call ∈ calls, call.failure? = none := by
  induction calls with
  | nil => simp
  | cons call later ih =>
    rcases h with ⟨hcall, hlater⟩
    intro c hc
    rcases List.mem_cons.mp hc with rfl | hc
    · cases hfailure : c.failure? with
      | none => rfl
      | some failure => cases (hcall failure hfailure).2
    · exact ih hlater c hc

end Call

namespace Session

variable {σ α β : Type}

/-- The calls that a session makes, with the answers that `respond` gives. -/
def calls (respond : (request : Request) → σ → request.Answer × σ) : Session α → σ → List Call
  | .done _, _ => []
  | .fail _, _ => []
  | .unfinished, _ => []
  | .tell _ next, state => next.calls respond state
  | .ask request next, state =>
    let (answer, state) := respond request state
    ⟨request, answer⟩ :: (next answer).calls respond state

/-- A session can go this way. -/
inductive Course : Session α → List Call → Outcome α → Prop
  | done (result : α) : Course (.done result) [] (.done result)
  | fail (failure : Failure) : Course (.fail failure) [] (.failed failure)
  | unfinished : Course .unfinished [] .unfinished
  | tell (event : Event) {next : Session α} {calls : List Call} {outcome : Outcome α} :
      Course next calls outcome → Course (.tell event next) calls outcome
  | ask {request : Request} {next : request.Answer → Session α} (answer : request.Answer)
      {calls : List Call} {outcome : Outcome α} : Course (next answer) calls outcome →
      Course (.ask request next) (⟨request, answer⟩ :: calls) outcome

section Surroundings

variable (respond : (request : Request) → σ → request.Answer × σ)

theorem requests_run (s : Session α) (state : σ) :
    (s.run respond state).requests = (s.calls respond state).map Call.request := by
  induction s generalizing state with
  | done result => rfl
  | fail failure => rfl
  | unfinished => rfl
  | tell event next ih => exact ih state
  | ask request next ih => simp only [run, calls, List.map_cons, ih]

/-- What a session does in any surroundings is one of its courses. -/
theorem course_run (s : Session α) (state : σ) :
    s.Course (s.calls respond state) (s.run respond state).outcome := by
  induction s generalizing state with
  | done result => exact .done result
  | fail failure => exact .fail failure
  | unfinished => exact .unfinished
  | tell event next ih => exact .tell event (ih state)
  | ask request next ih => exact .ask _ (ih _ _)

/-- Every answer was given at some time. -/
theorem exists_answer_eq (s : Session α) (state : σ) :
    ∀ call ∈ s.calls respond state, ∃ asked, (respond call.request asked).1 = call.answer := by
  induction s generalizing state with
  | done result => simp [calls]
  | fail failure => simp [calls]
  | unfinished => simp [calls]
  | tell event next ih => exact ih state
  | ask request next ih =>
    intro call hcall
    rcases List.mem_cons.mp hcall with rfl | hcall
    · exact ⟨state, rfl⟩
    · exact ih _ _ call hcall

theorem calls_bind (s : Session α) (f : α → Session β) (state : σ) :
    (s >>= f).calls respond state = s.calls respond state ++
      match (s.run respond state).outcome with
      | .done result => (f result).calls respond (s.run respond state).state
      | _ => [] := by
  induction s generalizing state with
  | done result => rfl
  | fail failure => rfl
  | unfinished => rfl
  | tell event next ih => exact ih state
  | ask request next ih => simp only [ask_bind, calls, run, ih, List.cons_append]

/-- What comes of two sessions in sequence, by the end of the first one. -/
theorem bind_cases (s : Session α) (f : α → Session β) (state : σ) :
    (∃ result, (s.run respond state).outcome = .done result ∧
      (s >>= f).calls respond state =
        s.calls respond state ++ (f result).calls respond (s.run respond state).state ∧
      ((s >>= f).run respond state).outcome =
        ((f result).run respond (s.run respond state).state).outcome) ∨
    (∃ failure, (s.run respond state).outcome = .failed failure ∧
      (s >>= f).calls respond state = s.calls respond state ∧
      ((s >>= f).run respond state).outcome = .failed failure) ∨
    ((s.run respond state).outcome = .unfinished ∧
      (s >>= f).calls respond state = s.calls respond state ∧
      ((s >>= f).run respond state).outcome = .unfinished) := by
  rw [calls_bind, run_bind, Transcript.andThen]
  cases (s.run respond state).outcome with
  | done result => exact .inl ⟨result, rfl, rfl, rfl⟩
  | failed failure => exact .inr (.inl ⟨failure, rfl, List.append_nil _, rfl⟩)
  | unfinished => exact .inr (.inr ⟨rfl, List.append_nil _, rfl⟩)

end Surroundings

namespace Course

variable {calls : List Call}

/-- A course of two sessions in sequence. If the first one ends without a result, that is all. -/
theorem of_bind {s : Session α} {f : α → Session β} {outcome : Outcome β}
    (h : (s >>= f).Course calls outcome) :
    (∃ result front later, s.Course front (.done result) ∧ (f result).Course later outcome ∧
      calls = front ++ later) ∨
    (∃ failure, s.Course calls (.failed failure) ∧ outcome = .failed failure) ∨
    (s.Course calls .unfinished ∧ outcome = .unfinished) := by
  induction s generalizing calls with
  | done result => exact .inl ⟨result, [], calls, .done result, h, rfl⟩
  | fail failure =>
    cases h
    exact .inr (.inl ⟨failure, .fail failure, rfl⟩)
  | unfinished =>
    cases h
    exact .inr (.inr ⟨.unfinished, rfl⟩)
  | tell event next ih =>
    rw [tell_bind] at h
    cases h with
    | tell _ h =>
      rcases ih h with ⟨result, front, later, hs, hf, rfl⟩ | ⟨failure, hs, rfl⟩ | ⟨hs, rfl⟩
      · exact .inl ⟨result, front, later, .tell event hs, hf, rfl⟩
      · exact .inr (.inl ⟨failure, .tell event hs, rfl⟩)
      · exact .inr (.inr ⟨.tell event hs, rfl⟩)
  | ask request next ih =>
    rw [ask_bind] at h
    cases h with
    | ask answer h =>
      rcases ih answer h with ⟨result, front, later, hs, hf, rfl⟩ | ⟨failure, hs, rfl⟩ | ⟨hs, rfl⟩
      · exact .inl ⟨result, _, later, .ask answer hs, hf, rfl⟩
      · exact .inr (.inl ⟨failure, .ask answer hs, rfl⟩)
      · exact .inr (.inr ⟨.ask answer hs, rfl⟩)

/-- Where there is a result of both, there is one of the first. -/
theorem of_bind_done {s : Session α} {f : α → Session β} {result : β}
    (h : (s >>= f).Course calls (.done result)) :
    ∃ first front later, s.Course front (.done first) ∧ (f first).Course later (.done result) ∧
      calls = front ++ later := by
  rcases of_bind h with hparts | ⟨failure, -, hfailed⟩ | ⟨-, hunfinished⟩
  · exact hparts
  · cases hfailed
  · cases hunfinished

theorem of_map {s : Session α} {f : α → β} {outcome : Outcome β}
    (h : (s >>= fun result => return f result).Course calls outcome) :
    ∃ first, s.Course calls first ∧ outcome = first.map f := by
  induction s generalizing calls with
  | done result =>
    cases h
    exact ⟨.done result, .done result, rfl⟩
  | fail failure =>
    cases h
    exact ⟨.failed failure, .fail failure, rfl⟩
  | unfinished =>
    cases h
    exact ⟨.unfinished, .unfinished, rfl⟩
  | tell event next ih =>
    rw [tell_bind] at h
    cases h with
    | tell _ h =>
      obtain ⟨first, hs, houtcome⟩ := ih h
      exact ⟨first, .tell event hs, houtcome⟩
  | ask request next ih =>
    rw [ask_bind] at h
    cases h with
    | ask answer h =>
      obtain ⟨first, hs, houtcome⟩ := ih answer h
      exact ⟨first, .ask answer hs, houtcome⟩

theorem of_done {result : α} {outcome : Outcome α}
    (h : (Session.done result).Course calls outcome) :
    calls = [] ∧ outcome = .done result := by
  cases h
  exact ⟨rfl, rfl⟩

theorem eq_of_done {result other : α} (h : (Session.done result).Course calls (.done other)) :
    calls = [] ∧ other = result := by
  cases h
  exact ⟨rfl, rfl⟩

theorem of_fail {failure : Failure} {outcome : Outcome α}
    (h : (Session.fail failure : Session α).Course calls outcome) :
    calls = [] ∧ outcome = .failed failure := by
  cases h
  exact ⟨rfl, rfl⟩

/-- A step that asks nothing and always succeeds takes no part in a course. -/
theorem of_report_bind {event : Event} {f : Unit → Session β} {outcome : Outcome β}
    (h : (report event >>= f).Course calls outcome) : (f ()).Course calls outcome := by
  cases h with
  | tell _ h => exact h

/-- A check that is passed before a session goes on, or that ends it. -/
theorem of_ofExcept_bind {x : Except Failure α} {f : α → Session β} {outcome : Outcome β}
    (h : (ofExcept x >>= f).Course calls outcome) :
    (∃ result, x = .ok result ∧ (f result).Course calls outcome) ∨
      ∃ failure, x = .error failure ∧ calls = [] ∧ outcome = .failed failure := by
  cases x with
  | error failure =>
    obtain ⟨rfl, rfl⟩ := of_fail h
    exact .inr ⟨failure, rfl, rfl, rfl⟩
  | ok result => exact .inl ⟨result, rfl, h⟩

theorem of_ofExcept_bind_done {x : Except Failure α} {f : α → Session β} {result : β}
    (h : (ofExcept x >>= f).Course calls (.done result)) :
    ∃ a, x = .ok a ∧ (f a).Course calls (.done result) := by
  rcases of_ofExcept_bind h with hpassed | ⟨failure, -, -, hfailed⟩
  · exact hpassed
  · cases hfailed

/-- A session that begins with a request begins with that call. -/
theorem of_ask {request : Request} {next : request.Answer → Session α} {outcome : Outcome α}
    (h : (Session.ask request next).Course calls outcome) :
    ∃ answer later, calls = ⟨request, answer⟩ :: later ∧ (next answer).Course later outcome := by
  cases h with
  | ask answer h => exact ⟨answer, _, rfl, h⟩

end Course

end Session

end TreeImage
