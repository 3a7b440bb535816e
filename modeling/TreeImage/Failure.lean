import TreeImage.Path
import TreeImage.Record

/-!
# Failures

Everything that can go wrong between a source tree and a finished image. A failure is kept as its
cause; `Failure.message` is the one place that words it.
-/

namespace TreeImage

/-- What kind of thing an input or output operation ran into. -/
inductive FaultKind where
  | notFound
  | permissionDenied
  | storageFull
  | invalidData
  | invalidInput
  | notADirectory
  | isADirectory
  | linkLoop
  | nameTooLong
  | other
  deriving DecidableEq, Repr

/-- A failed input or output operation: its text, and the texts of the causes below it. -/
structure Fault where
  kind : FaultKind
  text : String
  causes : List String := []
  deriving DecidableEq, Repr

/-- The fault of listing `path` when the listing cannot begin: the path is told in the text, and the
fault itself is the cause. -/
def Fault.inListing (path : Path) (fault : Fault) : Fault :=
  ⟨fault.kind, "IO error for operation on " ++ path.text ++ ": " ++ fault.text,
    fault.text :: fault.causes⟩

/-- The fault of an entry whose name is no text. -/
def Fault.invalidName : Fault := ⟨.invalidData, "file name is not valid UTF-8", []⟩

/-- The numbers of an image that have to fit in 32 bits. -/
inductive Field where
  | headerRegion
  | fileCount
  | childCount
  | fileLength
  | dataOffset
  | totalSize
  deriving DecidableEq, Repr

def Field.name : Field → String
  | .headerRegion => "header region size"
  | .fileCount => "file count"
  | .childCount => "direct child count"
  | .fileLength => "file length"
  | .dataOffset => "data offset"
  | .totalSize => "total size"

/-- What makes a byte string no image. -/
inductive Defect where
  | truncatedHeader
  | sizeMismatch (stated actual : Nat)
  | headerRegion (stated : Nat)
  | unknownTag
  | missingRecords
  | dataOutOfRange
  | unreachableRecords (count : Nat)
  | fileCountMismatch (stated found : Nat)
  deriving DecidableEq, Repr

def Defect.message : Defect → String
  | .truncatedHeader => "truncated global header"
  | .sizeMismatch stated actual =>
    "total_size is " ++ toString stated ++ " but image is " ++ toString actual ++ " bytes"
  | .headerRegion stated => "bad header region size " ++ toString stated
  | .unknownTag => "unknown record tag"
  | .missingRecords => "directory claims more entries than there are records"
  | .dataOutOfRange => "file data out of range"
  | .unreachableRecords count =>
    toString count ++ " records are not reachable from the root"
  | .fileCountMismatch stated found =>
    "num_files is " ++ toString stated ++ " but " ++ toString found ++ " file records were found"

inductive Failure where
  | notADirectory (path : Path)
  | nameTooLong (path : String) (size : Nat)
  | nameNotAscii (path : String)
  | overflow (field : Field) (path : String)
  | io (path : Path) (fault : Fault)
  | malformed (offset : Nat) (defect : Defect)
  deriving DecidableEq, Repr

namespace Failure

def message : Failure → String
  | .notADirectory path => path.text ++ " is not a directory"
  | .nameTooLong path size =>
    "name of " ++ path ++ " is " ++ toString size ++ " bytes, at most " ++
      toString Record.maxName ++ " allowed"
  | .nameNotAscii path => "name of " ++ path ++ " is not 7-bit ASCII"
  | .overflow field path => field.name ++ " of " ++ path ++ " does not fit in 32 bits"
  | .io path fault => "I/O error on " ++ path.text ++ ": " ++ fault.text
  | .malformed offset defect =>
    "malformed image at offset " ++ toString offset ++ ": " ++ defect.message

/-- The texts below the message: a fault is both part of the message and its cause. -/
def causes : Failure → List String
  | .io _ fault => fault.text :: fault.causes
  | _ => []

end Failure

/-- `n` as a word, or the failure that this field of `path` does not fit. -/
def Field.fit (field : Field) (path : String) (n : Nat) : Except Failure UInt32 :=
  match word? n with
  | some w => .ok w
  | none => .error (.overflow field path)

end TreeImage
