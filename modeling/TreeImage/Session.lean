import TreeImage.Event
import TreeImage.Failure
import TreeImage.Forest

/-!
# Sessions

A build does not touch files itself. It is a `Session`: a sequence of requests, each of which may
depend on the answers to those before it, that ends with a result or a failure. The surroundings
answer the requests; what a session tells on its way they do not see. `Session.run` lets
surroundings with a state answer and keeps a transcript; `Session.runM` lets any monad answer.

A session can also be `unfinished`: following a source whose directories never end takes more
steps than it was given.
-/

namespace TreeImage

inductive Request where
  | isDirectory (path : Path)
  /-- The entries directly in a directory, in the order of the source. -/
  | entries (path : Path)
  | size (path : Path)
  | contents (path : Path)
  | write (path : Path) (bytes : Bytes)
  deriving DecidableEq, Repr

abbrev Request.Answer : Request → Type
  | .isDirectory _ => Bool
  | .entries _ => Except Failure (List (String × Kind))
  | .size _ => Except Failure Nat
  | .contents _ => Except Failure Bytes
  | .write _ _ => Except Failure Unit

inductive Session (α : Type) where
  | done (result : α)
  | fail (failure : Failure)
  | unfinished
  | tell (event : Event) (next : Session α)
  | ask (request : Request) (next : request.Answer → Session α)

/-- How a session ended. -/
inductive Outcome (α : Type) where
  | done (result : α)
  | failed (failure : Failure)
  | unfinished
  deriving DecidableEq, Repr

/-- What came of a session: its end, its requests and its events in order, and the state that it
left the surroundings in. -/
structure Transcript (σ α : Type) where
  outcome : Outcome α
  requests : List Request
  events : List Event
  state : σ

namespace Session

variable {α β γ : Type}

def bind : Session α → (α → Session β) → Session β
  | .done result, f => f result
  | .fail failure, _ => .fail failure
  | .unfinished, _ => .unfinished
  | .tell event next, f => .tell event (next.bind f)
  | .ask request next, f => .ask request fun answer => (next answer).bind f

instance : Monad Session where
  pure := .done
  bind := bind

def ofExcept : Except Failure α → Session α
  | .ok result => .done result
  | .error failure => .fail failure

/-- Goes on after a failure, with the failure as its result. -/
def attempt : Session α → Session (Except Failure α)
  | .done result => .done (.ok result)
  | .fail failure => .done (.error failure)
  | .unfinished => .unfinished
  | .tell event next => .tell event next.attempt
  | .ask request next => .ask request fun answer => (next answer).attempt

def isDirectory (path : Path) : Session Bool := .ask (.isDirectory path) .done

def entries (path : Path) : Session (List (String × Kind)) := .ask (.entries path) ofExcept

def size (path : Path) : Session Nat := .ask (.size path) ofExcept

def contents (path : Path) : Session Bytes := .ask (.contents path) ofExcept

def write (path : Path) (bytes : Bytes) : Session Unit := .ask (.write path bytes) ofExcept

def report (event : Event) : Session Unit := .tell event (.done ())

/-- The transcript of a session whose requests `respond` answers. -/
def run {σ : Type} (respond : (request : Request) → σ → request.Answer × σ) :
    Session α → σ → Transcript σ α
  | .done result, state => ⟨.done result, [], [], state⟩
  | .fail failure, state => ⟨.failed failure, [], [], state⟩
  | .unfinished, state => ⟨.unfinished, [], [], state⟩
  | .tell event next, state =>
    let later := next.run respond state
    { later with events := event :: later.events }
  | .ask request next, state =>
    let (answer, state) := respond request state
    let later := (next answer).run respond state
    { later with requests := request :: later.requests }

/-- The outcome of a session whose requests are answered, and whose events are taken note of, in the
monad `m`. -/
def runM {m : Type → Type} [Monad m] (respond : (request : Request) → m request.Answer)
    (note : Event → m Unit) : Session α → m (Outcome α)
  | .done result => pure (.done result)
  | .fail failure => pure (.failed failure)
  | .unfinished => pure .unfinished
  | .tell event next => do
    note event
    next.runM respond note
  | .ask request next => do
    let answer ← respond request
    (next answer).runM respond note

@[simp] theorem done_bind (result : α) (f : α → Session β) :
    (Session.done result >>= f) = f result := rfl

@[simp] theorem fail_bind (failure : Failure) (f : α → Session β) :
    (Session.fail failure >>= f) = .fail failure := rfl

@[simp] theorem unfinished_bind (f : α → Session β) :
    (Session.unfinished >>= f) = .unfinished := rfl

@[simp] theorem tell_bind (event : Event) (next : Session α) (f : α → Session β) :
    (Session.tell event next >>= f) = .tell event (next >>= f) := rfl

@[simp] theorem ask_bind (request : Request) (next : request.Answer → Session α)
    (f : α → Session β) :
    (Session.ask request next >>= f) = .ask request fun answer => next answer >>= f := rfl

@[simp] theorem pure_eq_done (result : α) : (pure result : Session α) = .done result := rfl

@[simp] theorem bind_done (s : Session α) : s >>= Session.done = s := by
  induction s with
  | done result => rfl
  | fail failure => rfl
  | unfinished => rfl
  | tell event next ih => simp [ih]
  | ask request next ih => simp [ih]

theorem bind_assoc (s : Session α) (f : α → Session β) (g : β → Session γ) :
    s >>= f >>= g = s >>= fun result => f result >>= g := by
  induction s with
  | done result => rfl
  | fail failure => rfl
  | unfinished => rfl
  | tell event next ih => simp [ih]
  | ask request next ih => simp [ih]

end Session

end TreeImage
