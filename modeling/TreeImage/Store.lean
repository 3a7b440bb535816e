import TreeImage.Session
import TreeImage.Table

/-!
# Stores

A store holds files and directories in memory and answers a session. What it holds is found by the
components of a path, so that all spellings of one path lead to the same address. Adding something
makes the directories that are missing above it, and a directory lists what was added to it in the
order of its first arrival, by its name as text. What a session writes is kept apart and never
becomes a source.
-/

namespace TreeImage

/-- The components of a path from the last to the first, so that the tail is what is above. -/
abbrev Address := List Component

def Path.address (p : Path) : Address := p.components.reverse

/-- What stands at an address. -/
inductive Store.Node where
  | file (contents : Bytes)
  | directory (names : List String)
  deriving DecidableEq, Repr

def Store.Node.kind : Store.Node → Kind
  | .file _ => .file
  | .directory _ => .directory

structure Store where
  nodes : Table Address Store.Node := []
  written : Table Address Bytes := []
  deriving DecidableEq, Repr

namespace Store

/-- A store without anything in it. -/
def empty : Store := {}

def node? (s : Store) (address : Address) : Option Node := s.nodes.get? address

def setNode (s : Store) (address : Address) (node : Node) : Store :=
  { s with nodes := s.nodes.set address node }

/-- Puts `name` at the end of the listing of the directory at `address`, if there is one. -/
def appendName (s : Store) (address : Address) (name : String) : Store :=
  match s.node? address with
  | some (.directory names) => s.setNode address (.directory (names ++ [name]))
  | _ => s

/-- Lists the name of `address`, where it has one, as text in the directory above it, and makes that
directory first where nothing stands there. Nothing is listed at the empty address. -/
def link (s : Store) : Address → Store
  | [] => s
  | last :: above =>
    match last.name? with
    | none => s
    | some name =>
      if above = [] then s
      else
        let s :=
          if (s.node? above).isSome then s
          else (s.link above).setNode above (.directory [])
        s.appendName above (Text.ofUtf8Lossy name)

/-- Makes sure that something stands at `path`: if nothing does, an empty directory. -/
def addDirectory (s : Store) (path : Path) : Store :=
  let address := path.address
  if (s.node? address).isSome then s else (s.link address).setNode address (.directory [])

/-- Puts a file at `path`, instead of what stands there. -/
def addFile (s : Store) (path : Path) (contents : Bytes) : Store :=
  let address := path.address
  (if (s.node? address).isSome then s else s.link address).setNode address (.file contents)

def isDirectory (s : Store) (path : Path) : Bool :=
  match s.node? path.address with
  | some (.directory _) => true
  | _ => false

/-- What fails where nothing stands. -/
def absent : Fault := ⟨.notFound, "entity not found", []⟩

/-- Reads what stands at `path`. -/
def inspect {α : Type} (s : Store) (path : Path) (view : Node → Except Fault α) :
    Except Failure α :=
  match s.node? path.address with
  | none => .error (.io path absent)
  | some node =>
    match view node with
    | .ok a => .ok a
    | .error fault => .error (.io path fault)

/-- The kind of what stands at `address`; an unknown entry passes for a file. -/
def kindAt (s : Store) (address : Address) : Kind := (s.node? address).elim .file Node.kind

def entries (s : Store) (path : Path) : Except Failure (List (String × Kind)) :=
  s.inspect path fun
    | .directory names =>
      .ok (names.map fun name => (name, s.kindAt (path.join name).address))
    | .file _ => .error ⟨.other, "not a directory", []⟩

def contents (s : Store) (path : Path) : Except Failure Bytes :=
  s.inspect path fun
    | .file contents => .ok contents
    | .directory _ => .error ⟨.other, "is a directory", []⟩

def size (s : Store) (path : Path) : Except Failure Nat := (s.contents path).map List.length

def write (s : Store) (path : Path) (bytes : Bytes) : Store :=
  { s with written := s.written.set path.address bytes }

/-- What was last written to `path`, if anything was. -/
def written? (s : Store) (path : Path) : Option Bytes := s.written.get? path.address

/-- How many addresses were written to. -/
def writeCount (s : Store) : Nat := s.written.length

/-- Answers a session; nothing but a write changes the store. -/
def respond : (request : Request) → Store → request.Answer × Store
  | .isDirectory path, s => (s.isDirectory path, s)
  | .entries path, s => (s.entries path, s)
  | .size path, s => (s.size path, s)
  | .contents path, s => (s.contents path, s)
  | .write path bytes, s => (.ok (), s.write path bytes)

/-- More than the depth of any directory that can be reached. -/
def depth (s : Store) : Nat := (s.nodes.keys.map List.length).foldl max 0 + 1

end Store

end TreeImage
