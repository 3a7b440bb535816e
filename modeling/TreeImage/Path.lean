import TreeImage.Text.Split
import TreeImage.Text.Utf8.Lemmas

/-!
# Paths

A path is kept as the bytes it was written as, which need not be those of a text; messages show it
as text all the same. What it names is decided by its components: repeated and trailing slashes do
not count, and `.` counts only as the first component of a relative path. A `..` is never resolved
here.
-/

namespace TreeImage

structure Path where
  bytes : Bytes
  deriving DecidableEq, Repr

namespace Path

def slash : UInt8 := 0x2F

def dot : Bytes := [0x2E]

def dotDot : Bytes := [0x2E, 0x2E]

def ofText (text : String) : Path := ⟨Text.utf8 text⟩

/-- What messages show: bytes that are no text are replaced. -/
def text (p : Path) : String := Text.ofUtf8Lossy p.bytes

def IsText (p : Path) : Prop := Text.IsUtf8 p.bytes

instance (p : Path) : Decidable p.IsText := inferInstanceAs (Decidable (Text.IsUtf8 p.bytes))

end Path

inductive Component where
  | root
  | here
  | up
  | normal (name : Bytes)
  deriving DecidableEq, Repr

def Component.ofPart (part : Bytes) : Component :=
  if part = Path.dot then .here else if part = Path.dotDot then .up else .normal part

/-- The name of a component that has one. -/
def Component.name? : Component → Option Bytes
  | .normal name => some name
  | _ => none

namespace Path

def components (p : Path) : List Component :=
  let (first, others) := Text.cut slash p.bytes
  let start :=
    if first ≠ [] then [Component.ofPart first]
    else if others = [] then []
    else [Component.root]
  start ++ (others.filter fun part => part ≠ [] ∧ part ≠ dot).map Component.ofPart

def isAbsolute (p : Path) : Bool := p.bytes.head? == some slash

/-- The bytes that stand before a relative path appended to `p`. -/
def stem (p : Path) : Bytes :=
  if p.bytes = [] ∨ p.bytes.getLast? = some slash then p.bytes else p.bytes ++ [slash]

/-- The path `q` as seen from `p`; an absolute `q` stands for itself. -/
def append (p q : Path) : Path := if q.isAbsolute then q else ⟨p.stem ++ q.bytes⟩

/-- The entry `name` of the directory `p`. -/
def join (p : Path) (name : String) : Path := p.append (ofText name)

/-- The last component as text, if that is a name. -/
def fileName? (p : Path) : Option String :=
  (p.components.getLast?.bind Component.name?).map Text.ofUtf8Lossy

/-- What follows the last dot of the file name, unless that dot is its first character. -/
def extension? (p : Path) : Option String :=
  match p.fileName?.map (Text.split '.') with
  | none => none
  | some (first, others) =>
    if first = "" ∧ others.length ≤ 1 then none else others.getLast?

end Path

end TreeImage
