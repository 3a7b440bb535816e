import TreeImage.Session

/-!
# Sessions in sequence

A session that consists of two runs the second one from the state in which the first one left the
surroundings. A session that only reads cannot tell its surroundings from answers fixed beforehand,
if these do not change when they are read.
-/

namespace TreeImage

variable {σ α β : Type}

/-- What comes of going on after a transcript, if it ended with a result. -/
def Transcript.andThen (t : Transcript σ α) (next : α → σ → Transcript σ β) : Transcript σ β :=
  match t.outcome with
  | .done result =>
    let later := next result t.state
    ⟨later.outcome, t.requests ++ later.requests, t.events ++ later.events, later.state⟩
  | .failed failure => ⟨.failed failure, t.requests, t.events, t.state⟩
  | .unfinished => ⟨.unfinished, t.requests, t.events, t.state⟩

namespace Session

variable (respond : (request : Request) → σ → request.Answer × σ)

theorem run_bind (s : Session α) (f : α → Session β) (state : σ) :
    (s >>= f).run respond state =
      (s.run respond state).andThen fun result state => (f result).run respond state := by
  induction s generalizing state with
  | done result => rfl
  | fail failure => rfl
  | unfinished => rfl
  | tell event next ih =>
    rw [tell_bind, run, ih, run]
    cases h : (next.run respond state).outcome <;> simp [Transcript.andThen, h]
  | ask request next ih =>
    rw [ask_bind, run, run]
    simp only [ih]
    cases h : ((next (respond request state).1).run respond (respond request state).2).outcome <;>
      simp [Transcript.andThen, h]

/-- The session ends with `result` and leaves its surroundings in the state `after`. -/
def Ends (s : Session α) (before : σ) (result : α) (after : σ) : Prop :=
  (s.run respond before).outcome = .done result ∧ (s.run respond before).state = after

variable {respond} {before after : σ}

theorem outcome_eq_done_iff {s : Session α} {result : α} :
    (s.run respond before).outcome = .done result ↔
      ∃ after, s.Ends respond before result after := by
  constructor
  · intro h
    exact ⟨_, h, rfl⟩
  · intro h
    rcases h with ⟨after, h, -⟩
    exact h

theorem ends_bind_iff {s : Session α} {f : α → Session β} {result : β} :
    (s >>= f).Ends respond before result after ↔
      ∃ a middle, s.Ends respond before a middle ∧ (f a).Ends respond middle result after := by
  unfold Ends
  rw [run_bind, Transcript.andThen]
  cases h : (s.run respond before).outcome with
  | done a =>
    constructor
    · intro hnext
      rcases hnext with ⟨houtcome, hstate⟩
      exact ⟨a, _, ⟨rfl, rfl⟩, houtcome, hstate⟩
    · intro hparts
      rcases hparts with ⟨a', middle, ⟨ha, rfl⟩, hnext⟩
      cases ha
      exact hnext
  | failed failure => simp
  | unfinished => simp

@[simp] theorem ends_done_iff {a result : α} :
    (Session.done a).Ends respond before result after ↔ a = result ∧ before = after := by
  simp [Ends, run]

@[simp] theorem ends_fail_iff {failure : Failure} {result : α} :
    (Session.fail failure).Ends respond before result after ↔ False := by
  simp [Ends, run]

@[simp] theorem ends_ofExcept_iff {x : Except Failure α} {result : α} :
    (ofExcept x).Ends respond before result after ↔ x = .ok result ∧ before = after := by
  cases x with
  | error failure => simp [ofExcept]
  | ok a => simp [ofExcept]

@[simp] theorem ends_report_iff {event : Event} {result : Unit} :
    (report event).Ends respond before result after ↔ before = after := by
  simp [report, Ends, run]

@[simp] theorem ends_ask_iff {request : Request} {next : request.Answer → Session α} {result : α} :
    (Session.ask request next).Ends respond before result after ↔
      (next (respond request before).1).Ends respond (respond request before).2 result after :=
  Iff.rfl

end Session

/-! ## Transcripts that differ in their events only -/

namespace Transcript

/-- The transcripts are the same but for what was told. -/
structure Agree (t u : Transcript σ α) : Prop where
  outcome : t.outcome = u.outcome
  requests : t.requests = u.requests
  state : t.state = u.state

theorem Agree.refl (t : Transcript σ α) : t.Agree t := ⟨rfl, rfl, rfl⟩

theorem Agree.andThen (t : Transcript σ α) {f g : α → σ → Transcript σ β}
    (h : ∀ result, t.outcome = .done result → (f result t.state).Agree (g result t.state)) :
    (t.andThen f).Agree (t.andThen g) := by
  unfold Transcript.andThen
  cases houtcome : t.outcome with
  | done result =>
    obtain ⟨hlater, hrequests, hstate⟩ := h result houtcome
    exact ⟨hlater, congrArg (t.requests ++ ·) hrequests, hstate⟩
  | failed failure => exact .refl _
  | unfinished => exact .refl _

end Transcript

/-! ## Sessions that only read -/

def Request.IsRead : Request → Prop
  | .write _ _ => False
  | _ => True

namespace Session

/-- No request of the session writes, whatever it is answered. -/
inductive ReadOnly : Session α → Prop
  | done (result : α) : ReadOnly (.done result)
  | fail (failure : Failure) : ReadOnly (.fail failure)
  | unfinished : ReadOnly .unfinished
  | tell (event : Event) {next : Session α} : ReadOnly next → ReadOnly (.tell event next)
  | ask {request : Request} {next : request.Answer → Session α} : request.IsRead →
      (∀ answer, ReadOnly (next answer)) → ReadOnly (.ask request next)

theorem ReadOnly.bind {s : Session α} {f : α → Session β} (hs : s.ReadOnly)
    (hf : ∀ result, (f result).ReadOnly) : (s >>= f).ReadOnly := by
  induction hs with
  | done result => exact hf result
  | fail failure => exact .fail failure
  | unfinished => exact .unfinished
  | tell event _ ih => exact .tell event ih
  | ask hread _ ih => exact .ask hread ih

theorem readOnly_ofExcept (x : Except Failure α) : (ofExcept x).ReadOnly := by
  cases x with
  | error failure => exact .fail failure
  | ok a => exact .done a

/-- Where reading changes nothing, a session that only reads ends as it does for the same answers
given without a state, and leaves everything as it was. -/
theorem ReadOnly.run_eq {respond : (request : Request) → σ → request.Answer × σ} {state : σ}
    (answer : (request : Request) → request.Answer)
    (hread : ∀ request, request.IsRead → respond request state = (answer request, state))
    {s : Session α} (hs : s.ReadOnly) :
    s.run respond state =
      let fixed := s.run (fun request (_ : Unit) => (answer request, ())) ()
      ⟨fixed.outcome, fixed.requests, fixed.events, state⟩ := by
  induction hs with
  | done result => rfl
  | fail failure => rfl
  | unfinished => rfl
  | tell event _ ih => simp only [run, ih]
  | @ask request next hrequest _ ih =>
    have hanswer := hread request hrequest
    simp only [run, hanswer, ih]

end Session

end TreeImage
