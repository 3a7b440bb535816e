import TreeImage.Command
import TreeImage.Command.Options
import TreeImage.Volume

/-!
# The program

Reads the command line, lets the file system answer the session of the command, and prints what it
reports. Events of the level `info` go to the standard error as they come.
-/

namespace TreeImage.Main

/-- More than the depth of any directory that a path can reach. -/
def depth : Nat := 4096

def usage : String :=
  "Pack a directory tree into a ramdisk image\n\n" ++
  "Usage: ramdisk [OPTIONS] [OUTPUT] [DIR]\n\n" ++
  "Options:\n" ++
  "  -m, --manifest <MANIFEST>  Also write a record manifest\n" ++
  "      --verify               Parse the image back before writing it\n" ++
  "  -h, --help                 Print help\n"

/-- What is printed for arguments that are refused. -/
def explain : UsageError → String
  | .helpRequested => usage
  | .unknownArgument => "error: unexpected argument\n\n" ++ usage
  | .invalidValue => "error: a path is missing or empty\n\n" ++ usage
  | .argumentConflict => "error: an option is given twice\n\n" ++ usage
  | .tooManyValues => "error: an option takes no value\n\n" ++ usage

/-- The number and the text of an error of the system, where it has them. -/
def numbered? : IO.Error → Option (UInt32 × String)
  | .noFileOrDirectory _ code text => some (code, text)
  | .permissionDenied _ code text => some (code, text)
  | .resourceExhausted _ code text => some (code, text)
  | .inappropriateType _ code text => some (code, text)
  | .invalidArgument _ code text => some (code, text)
  | .alreadyExists _ code text => some (code, text)
  | .otherError code text => some (code, text)
  | _ => none

/-- The error number of a code, which some operations give as a negative number. -/
def errorNumber (code : UInt32) : Nat := code.toInt32.toInt.natAbs

def faultKind : Nat → FaultKind
  | 1 => .permissionDenied
  | 13 => .permissionDenied
  | 28 => .storageFull
  | _ => .other

/-- The fault for an error of the system. -/
def faultOf (error : IO.Error) : Fault :=
  match numbered? error with
  | none => ⟨.other, toString error, []⟩
  | some (code, text) =>
    let number := errorNumber code
    match number with
    | 2 => Volume.Obstacle.noEntry.fault
    | 20 => Volume.Obstacle.notDirectory.fault
    | 21 => Volume.Obstacle.isDirectory.fault
    | 36 => Volume.Obstacle.nameTooLong.fault
    | 40 => Volume.Obstacle.tooManyLinks.fault
    | _ => ⟨faultKind number, text ++ " (os error " ++ toString number ++ ")", []⟩

/-- Does `action`, with the failure of an operation on `path` as a result. -/
def trying {α : Type} (path : Path) (adjust : Fault → Fault) (action : IO α) :
    IO (Except Failure α) := do
  try return .ok (← action)
  catch error => return .error (.io path (adjust (faultOf error)))

/-- The kind of an entry; that of a link is the kind of what it leads to. -/
def entryKind (path : Path) : IO (Except Failure Kind) :=
  trying path id do
    let file := System.mkFilePath [path.text]
    let _ ← file.metadata
    return if ← file.isDir then .directory else .file

/-- The entries of a directory in the order of the system. What is no directory has none. -/
def entries (path : Path) : IO (Except Failure (List (String × Kind))) := do
  let file := System.mkFilePath [path.text]
  let names ← trying path (Fault.inListing path) do
    let _ ← file.metadata
    if ← file.isDir then
      return (← file.readDir).toList.map (·.fileName)
    else return []
  match names with
  | .error failure => return .error failure
  | .ok names =>
    let kinds ← names.mapM fun name => do
      return (← entryKind (path.join name)).map fun kind => (name, kind)
    return kinds.mapM id

/-- Only what is of the level `info` is shown. -/
def note (event : Event) : IO Unit := do
  if event.level = .info then
    let fields := event.fields.map fun (name, value) => " " ++ name ++ "=" ++ value
    IO.eprintln ("INFO " ++ event.message ++ String.join fields)

/-- Answers a session from the file system. -/
def respond : (request : Request) → IO request.Answer
  | .isDirectory path => (System.mkFilePath [path.text]).isDir
  | .entries path => entries path
  | .size path => trying path id do
    return (← (System.mkFilePath [path.text]).metadata).byteSize.toNat
  | .contents path => trying path id do
    return (← IO.FS.readBinFile path.text).toList
  | .write path bytes => trying path id (IO.FS.writeBinFile path.text bytes.toByteArray)

end TreeImage.Main

open TreeImage in
def main (arguments : List String) : IO UInt32 := do
  match Config.ofArguments arguments with
  | .error .helpRequested =>
    IO.print Main.usage
    return 0
  | .error error =>
    IO.eprint (Main.explain error)
    return 2
  | .ok config =>
    match ← (config.execute Main.depth).runM Main.respond Main.note with
    | .done (.packed text) =>
      IO.print text
      return 0
    | .done (.failed text) =>
      IO.eprintln ("ERROR " ++ text)
      return 1
    | .failed failure =>
      IO.eprintln ("ERROR " ++ failure.message)
      return 1
    | .unfinished =>
      IO.eprintln "ERROR directories without end"
      return 1
