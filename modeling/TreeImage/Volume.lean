import TreeImage.Session
import TreeImage.Table
import TreeImage.Text.Utf8

/-!
# Volumes

A volume is a file system in memory with directories, files and symbolic links, which finds things
as POSIX asks for: a path is followed name by name, every name but the last must lead to a
directory, links are followed with a limit, and `..` is resolved. It answers a session like a disk
does, with the texts of a Linux system. A listing is in the order of the bytes of the names.
-/

namespace TreeImage

namespace Volume

abbrev Name := Bytes

/-- The names that lead to a place, from the last to the first. -/
abbrev Location := List Name

inductive Item where
  | file (contents : Bytes)
  | directory
  | link (target : Bytes)
  deriving DecidableEq, Repr

/-- Why a path leads nowhere. -/
inductive Obstacle where
  | noEntry
  | notDirectory
  | isDirectory
  | tooManyLinks
  | nameTooLong
  | zeroByte
  deriving DecidableEq, Repr

def Obstacle.kind : Obstacle → FaultKind
  | .noEntry => .notFound
  | .notDirectory => .notADirectory
  | .isDirectory => .isADirectory
  | .tooManyLinks => .linkLoop
  | .nameTooLong => .nameTooLong
  | .zeroByte => .invalidInput

def Obstacle.text : Obstacle → String
  | .noEntry => "No such file or directory (os error 2)"
  | .notDirectory => "Not a directory (os error 20)"
  | .isDirectory => "Is a directory (os error 21)"
  | .tooManyLinks => "Too many levels of symbolic links (os error 40)"
  | .nameTooLong => "File name too long (os error 36)"
  | .zeroByte => "file name contained an unexpected NUL byte"

def Obstacle.fault (obstacle : Obstacle) : Fault := ⟨obstacle.kind, obstacle.text, []⟩

/-- What a path is followed for. -/
inductive Purpose where
  /-- To find what is there, at the end of all links. -/
  | find
  /-- To find what is there, be it a link. -/
  | findLink
  /-- To write a file there, which need not be there yet. -/
  | write
  deriving DecidableEq, Repr

/-- A path is shorter than this, in bytes. -/
def pathLimit : Nat := 4096

def nameLimit : Nat := 255

/-- How many links are followed for one path. -/
def linkLimit : Nat := 40

end Volume

open Volume in
/-- The items by location, and the location that relative paths begin at. -/
structure Volume where
  items : Table Location Item
  home : Location
  deriving DecidableEq, Repr

namespace Volume

/-- A volume with nothing but an empty directory to begin at. -/
def empty : Volume := ⟨[([], .directory), ([Text.utf8 "home"], .directory)], [Text.utf8 "home"]⟩

def item? (v : Volume) (location : Location) : Option Item := v.items.get? location

def isDirectoryAt (v : Volume) (location : Location) : Bool :=
  v.item? location = some .directory

/-- The names of a path in turn. A slash at the end counts as an empty name, which asks for a
directory. -/
def pathNames (path : Bytes) : List Name :=
  let (first, others) := Text.cut Path.slash path
  let names := (first :: others).filter (· ≠ [])
  if others ≠ [] ∧ others.getLast? = some [] then names ++ [[]] else names

def isAbsolute (path : Bytes) : Bool := path.head? == some Path.slash

/-- Follows the names of a path from `here` on, where `links` more links may be followed. -/
def follow (v : Volume) (purpose : Purpose) (links : Nat) (here : Location) (names : List Name) :
    Except Obstacle Location :=
  match names with
  | [] => .ok here
  | name :: rest =>
    if ¬ v.isDirectoryAt here then .error .notDirectory
    else if name = [] ∨ name = Path.dot ∨ name = Path.dotDot then
      if rest = [] ∧ purpose = .write then .error .isDirectory
      else v.follow purpose links (if name = Path.dotDot then here.tail else here) rest
    else if rest = [[]] ∧ purpose = .write then .error .isDirectory
    else if nameLimit < name.length then .error .nameTooLong
    else
      match v.item? (name :: here) with
      | none =>
        if rest = [] ∧ purpose = .write then .ok (name :: here) else .error .noEntry
      | some .directory =>
        if rest = [] ∧ purpose = .write then .error .isDirectory
        else v.follow purpose links (name :: here) rest
      | some (.file _) => v.follow purpose links (name :: here) rest
      | some (.link target) =>
        if rest = [] ∧ purpose = .findLink then .ok (name :: here)
        else
          match links with
          | 0 => .error .tooManyLinks
          | links + 1 =>
            v.follow purpose links (if isAbsolute target then [] else here)
              (pathNames target ++ rest)
termination_by (links, names.length)

/-- The location that a path leads to. -/
def locate (v : Volume) (purpose : Purpose) (path : Bytes) : Except Obstacle Location :=
  if path.contains 0 then .error .zeroByte
  else if path = [] then .error .noEntry
  else if pathLimit ≤ path.length then .error .nameTooLong
  else
    v.follow purpose linkLimit (if isAbsolute path then [] else v.home) (pathNames path)

/-- What stands where a path leads to. -/
def find (v : Volume) (purpose : Purpose) (path : Bytes) : Except Obstacle Item := do
  let location ← v.locate purpose path
  match v.item? location with
  | some item => return item
  | none => .error .noEntry

def isDirectory (v : Volume) (path : Bytes) : Bool := v.find .find path matches .ok .directory

/-- Whether the path leads to anything. -/
def reaches (v : Volume) (path : Bytes) : Bool := v.find .find path matches .ok _

def contents (v : Volume) (path : Bytes) : Except Obstacle Bytes := do
  match ← v.find .find path with
  | .file contents => return contents
  | _ => .error .isDirectory

/-- The size that a directory is said to have. -/
def directorySize : Nat := 4096

def size (v : Volume) (path : Bytes) : Except Obstacle Nat := do
  match ← v.find .find path with
  | .file contents => return contents.length
  | _ => return directorySize

def setItem (v : Volume) (location : Location) (item : Item) : Volume :=
  { v with items := v.items.set location item }

def write (v : Volume) (path : Bytes) (contents : Bytes) : Except Obstacle Volume := do
  let location ← v.locate .write path
  return v.setItem location (.file contents)

/-- Makes a link, where nothing stands yet. -/
def addLink (v : Volume) (path target : Bytes) : Except Obstacle Volume := do
  let location ← v.locate .write path
  return v.setItem location (.link target)

/-- Takes away a file or a link. -/
def remove (v : Volume) (path : Bytes) : Except Obstacle Volume := do
  let location ← v.locate .findLink path
  if v.isDirectoryAt location then .error .isDirectory
  else return { v with items := v.items.erase location }

/-- Makes the directories that `names` lead through from `here` on. -/
def addDirectories (v : Volume) (here : Location) : List Name → Except Obstacle Volume
  | [] => .ok v
  | name :: rest =>
    match v.follow .find linkLimit here [name] with
    | .ok next => v.addDirectories next rest
    | .error .noEntry => do
      let location ← v.follow .write linkLimit here [name]
      (v.setItem location .directory).addDirectories location rest
    | .error obstacle => .error obstacle

/-- Makes a directory and those above it. -/
def addDirectory (v : Volume) (path : Bytes) : Except Obstacle Volume :=
  v.addDirectories (if isAbsolute path then [] else v.home) (pathNames path)

/-- Whether the bytes of one name stand before those of another. -/
def nameLe (a b : Name) : Bool := decide (a ≤ b)

/-- The names in a directory, in the order of their bytes. -/
def namesIn (v : Volume) (location : Location) : List Name :=
  (v.items.keys.filterMap fun
    | [] => none
    | name :: above => if above = location then some name else none).mergeSort nameLe

/-- The entry `name` of a listed directory. Its kind is that of what a link leads to. -/
def entry (v : Volume) (directory : Path) (name : Name) : Except Failure (String × Kind) :=
  let text := Text.ofUtf8Lossy name
  let path := directory.append ⟨name⟩
  if ¬Text.IsUtf8 name then .error (.io path Fault.invalidName)
  else
    match v.find .find path.bytes with
    | .error obstacle => .error (.io path obstacle.fault)
    | .ok .directory => .ok (text, .directory)
    | .ok _ => .ok (text, .file)

/-- The entries of a directory. What is no directory has none, and a path that leads nowhere
fails. -/
def entries (v : Volume) (path : Path) : Except Failure (List (String × Kind)) :=
  let bytes := path.bytes
  let found := do
    let _ ← v.find .findLink bytes
    let location ← v.locate .find bytes
    match v.item? location with
    | some .directory => return v.namesIn location
    | some _ => return []
    | none => .error .noEntry
  match found with
  | .error obstacle => .error (.io path (obstacle.fault.inListing path))
  | .ok names => names.mapM (v.entry path)

/-- The failure of an operation on `path`. -/
def tell {α : Type} (path : Path) : Except Obstacle α → Except Failure α
  | .ok a => .ok a
  | .error obstacle => .error (.io path obstacle.fault)

/-- Answers a session as a disk does. -/
def respond : (request : Request) → Volume → request.Answer × Volume
  | .isDirectory path, v => (v.isDirectory (path.bytes), v)
  | .entries path, v => (v.entries path, v)
  | .size path, v => (tell path (v.size (path.bytes)), v)
  | .contents path, v => (tell path (v.contents (path.bytes)), v)
  | .write path bytes, v =>
    match v.write (path.bytes) bytes with
    | .ok v => (.ok (), v)
    | .error obstacle => (.error (.io path obstacle.fault), v)

/-- More than the depth of any directory: each level takes at least two bytes of a path. -/
def depth : Nat := pathLimit

end Volume

end TreeImage
