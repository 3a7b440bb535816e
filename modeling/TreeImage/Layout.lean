import TreeImage.Forest
import TreeImage.Failure

/-!
# Flat layouts

A layout lists one entry per node below the root in pre-order, each directory directly before its
whole subtree, and says for every directory where that subtree stands. Paths are relative to the
root and those of directories end with a slash; the path of the root itself is empty.

Layouts are put together from smaller ones: `append` sets one behind another, and
`ofDirectory` sets one below a directory. `flatten` lays out a forest, `plan` a whole tree.
-/

namespace TreeImage

inductive Entry where
  | file (path : String)
  | directory (path : String) (childCount : UInt32)
  deriving DecidableEq, Repr

namespace Entry

def path : Entry → String
  | .file path => path
  | .directory path _ => path

def kind : Entry → Kind
  | .file _ => .file
  | .directory _ _ => .directory

/-- The last part of the path that is not empty. -/
def name (entry : Entry) : String := ((Text.words '/' entry.path).getLast?).getD ""

end Entry

/-- Where the entries below a directory stand: from `first` up to, but not including, `stop`. -/
structure Span where
  first : Nat
  stop : Nat
  childCount : UInt32
  deriving DecidableEq, Repr

def Span.shift (distance : Nat) (span : Span) : Span :=
  ⟨span.first + distance, span.stop + distance, span.childCount⟩

/-- The span of a directory is the first one listed for its path. -/
structure Layout where
  entries : List Entry
  spans : List (String × Span)
  fileCount : Nat
  deriving DecidableEq, Repr

namespace Layout

def span? (l : Layout) (path : String) : Option Span := l.spans.lookup path

def childCount? (l : Layout) (path : String) : Option UInt32 := (l.span? path).map Span.childCount

/-- A layout without a span for the root has no root entries. -/
def rootEntries (l : Layout) : UInt32 := (l.childCount? "").getD 0

/-- Every directory path that has a span, once, with that span. -/
def spanTable (l : Layout) : List (String × Span) := l.spans.eraseDupsBy (·.1 == ·.1)

def empty : Layout := ⟨[], [], 0⟩

/-- The spans as they stand behind `distance` other entries. -/
def shiftedSpans (distance : Nat) (l : Layout) : List (String × Span) :=
  l.spans.map fun (path, span) => (path, span.shift distance)

/-- One layout behind another. Where both have a span for one path, the second one counts. -/
def append (l m : Layout) : Layout :=
  ⟨l.entries ++ m.entries, m.shiftedSpans l.entries.length ++ l.spans, l.fileCount + m.fileCount⟩

instance : Append Layout := ⟨append⟩

def ofFile (path : String) : Layout := ⟨[.file path], [], 1⟩

/-- A directory with `inner` below it. -/
def ofDirectory (path : String) (childCount : UInt32) (inner : Layout) : Layout :=
  ⟨.directory path childCount :: inner.entries,
    (path, ⟨1, 1 + inner.entries.length, childCount⟩) :: inner.shiftedSpans 1,
    inner.fileCount⟩

@[simp] theorem entries_empty : empty.entries = [] := rfl

@[simp] theorem entries_append (l m : Layout) : (l ++ m).entries = l.entries ++ m.entries := rfl

@[simp] theorem spans_append (l m : Layout) :
    (l ++ m).spans = m.shiftedSpans l.entries.length ++ l.spans := rfl

@[simp] theorem fileCount_append (l m : Layout) :
    (l ++ m).fileCount = l.fileCount + m.fileCount := rfl

@[simp] theorem entries_ofDirectory (path : String) (childCount : UInt32) (inner : Layout) :
    (ofDirectory path childCount inner).entries = .directory path childCount :: inner.entries :=
  rfl

/-- The later of two layouts has its spans moved by what stands before both of them. -/
theorem shiftedSpans_append (distance : Nat) (l m : Layout) :
    (l ++ m).shiftedSpans distance =
      m.shiftedSpans (l.entries.length + distance) ++ l.shiftedSpans distance := by
  simp [shiftedSpans, Span.shift, Function.comp_def, Nat.add_assoc]

@[simp] theorem append_empty (l : Layout) : l ++ empty = l := by
  obtain ⟨entries, spans, fileCount⟩ := l
  show append _ _ = _
  simp [append, empty, shiftedSpans]

@[simp] theorem empty_append (l : Layout) : empty ++ l = l := by
  obtain ⟨entries, spans, fileCount⟩ := l
  show append _ _ = _
  simp [append, empty, shiftedSpans, Span.shift]

theorem append_assoc (l m n : Layout) : l ++ m ++ n = l ++ (m ++ n) := by
  have hspans : (l ++ m ++ n).spans = (l ++ (m ++ n)).spans := by
    simp [shiftedSpans_append, Nat.add_comm]
  have hentries : (l ++ m ++ n).entries = (l ++ (m ++ n)).entries := by simp
  have hcount : (l ++ m ++ n).fileCount = (l ++ (m ++ n)).fileCount := by simp [Nat.add_assoc]
  cases hl : l ++ m ++ n
  cases hr : l ++ (m ++ n)
  simp_all

end Layout

/-- The layout of a forest whose paths begin with `base`. -/
def Forest.flatten {α : Type} : Forest α → String → Except Failure Layout
  | .nil, _ => .ok .empty
  | .file name _ rest, base => do
    let others ← rest.flatten base
    return Layout.ofFile (base ++ name) ++ others
  | .directory name children rest, base => do
    let path := base ++ name ++ "/"
    let childCount ← Field.childCount.fit path children.length
    let inner ← children.flatten path
    let others ← rest.flatten base
    return Layout.ofDirectory path childCount inner ++ others

/-- The layout of what is below `root`, which has no entry itself. -/
def Tree.plan {α : Type} (root : Tree α) : Except Failure Layout := do
  let inner ← root.children.flatten ""
  let childCount ← Field.childCount.fit "" root.children.length
  return { inner with spans := ("", ⟨0, inner.entries.length, childCount⟩) :: inner.spans }

/-- Why the direct children of a directory cannot be listed. A planned layout has none of these. -/
inductive WalkDefect where
  | missingEntry (index : Nat)
  | missingSpan (path : String)
  | endless
  deriving DecidableEq, Repr

namespace Layout

/-- The entry after the one at `index` and everything below it. -/
def next (l : Layout) (index : Nat) : Except WalkDefect Nat :=
  match l.entries[index]? with
  | none => .error (.missingEntry index)
  | some (.file _) => .ok (index + 1)
  | some (.directory path _) =>
    match l.span? path with
    | none => .error (.missingSpan path)
    | some span => .ok span.stop

/-- The entries met from `index` up to `stop`, passing over what is below each. No more than
`steps` entries are passed: a walk that passes more of them than there are comes back to one. -/
def walk (l : Layout) (stop : Nat) : Nat → Nat → Except WalkDefect (List Nat)
  | 0, index =>
    if index < stop then
      if index < l.entries.length then .error .endless else .error (.missingEntry index)
    else .ok []
  | steps + 1, index =>
    if index < stop then do
      let following ← l.next index
      let others ← l.walk stop steps following
      return index :: others
    else .ok []

/-- The positions of the entries directly below the directory `path`, none if it has no span. -/
def directChildren (l : Layout) (path : String) : Except WalkDefect (List Nat) :=
  match l.span? path with
  | none => .ok []
  | some span => l.walk span.stop l.entries.length span.first

end Layout

end TreeImage
