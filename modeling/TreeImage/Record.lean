import TreeImage.Header
import TreeImage.Text.Utf8

/-!
# The records of an image

A record of 80 bytes describes one file or one directory.

| position | file            | directory        |
|----------|-----------------|------------------|
| 0        | tag             | tag              |
| 2        | data offset     | direct children  |
| 6        | name (64 bytes) | name (64 bytes)  |
| 70       | length          | block count      |
| 74       | six zeros       | six zeros        |

A name ends at its first zero byte or fills the whole field. The second word is written after the
name: a name that is too long for its field runs on into the bytes behind it, and loses the four
that the word takes.
-/

namespace TreeImage

inductive Record where
  | file (offset : UInt32) (name : String) (length : UInt32)
  | directory (children : UInt32) (name : String) (blockCount : UInt32)
  deriving DecidableEq, Repr

/-- Why a name is refused. -/
inductive NameDefect where
  | notAscii
  | tooLong (size : Nat)
  deriving DecidableEq, Repr

namespace Record

/-- The bytes that a record takes. -/
def size : Nat := 80

/-- Where the record at `index` begins, which is also where `index` records end. -/
def position (index : Nat) : Nat := Header.size + size * index

/-- The bytes of the name field. -/
def nameField : Nat := 64

/-- The longest name in bytes: one byte of the name field stays zero. -/
def maxName : Nat := nameField - 1

/-- The bytes from the start of the name field to the end of the record. -/
def nameRoom : Nat := 74

def name : Record → String
  | .file _ name _ => name
  | .directory _ name _ => name

def tag : Record → Nat
  | .file _ _ _ => 0xBAE7
  | .directory _ _ _ => 0x7EAB

/-- The word before the name. -/
def firstWord : Record → UInt32
  | .file offset _ _ => offset
  | .directory children _ _ => children

/-- The word after the name. -/
def secondWord : Record → UInt32
  | .file _ _ length => length
  | .directory _ _ blockCount => blockCount

/-- The record with these parts, if the tag is known. -/
def ofParts? (tag : Nat) (first : UInt32) (name : String) (second : UInt32) : Option Record :=
  if tag = 0xBAE7 then some (.file first name second)
  else if tag = 0x7EAB then some (.directory first name second)
  else none

/-- The name padded with zeros up to the end of the record. -/
def paddedName (name : String) : Bytes :=
  let bytes := Text.utf8 name
  bytes ++ List.replicate (nameRoom - bytes.length) 0

def encode (r : Record) : Bytes :=
  let padded := paddedName r.name
  Bytes.ofNat 2 r.tag ++ Bytes.ofWord r.firstWord ++ padded.take nameField ++
    Bytes.ofWord r.secondWord ++ padded.drop (nameField + 4)

/-- The record as bytes, if its name ends before the record does. -/
def encode? (r : Record) : Option Bytes :=
  if (Text.utf8 r.name).length ≤ nameRoom then some r.encode else none

/-- The record that the 80 bytes `bs` hold, if their tag is known. -/
def decode? (bs : Bytes) : Option Record :=
  if bs.length = size then
    ofParts? (Bytes.toNat (Bytes.slice 0 2 bs)) (bs.wordAt 2)
      (Text.ofUtf8Lossy (Bytes.untilZero (Bytes.slice 6 nameField bs))) (bs.wordAt 70)
  else none

end Record

/-- What is wrong with a name, if anything: it must be ASCII and must not be too long. -/
def nameDefect? (name : String) : Option NameDefect :=
  if ¬ name.toList.all (·.toNat < 128) then some .notAscii
  else if Record.maxName < (Text.utf8 name).length then some (.tooLong (Text.utf8 name).length)
  else none

/-- The size of the header region of an image with `count` records, if it fits in a word. -/
def headerRegion? (count : Nat) : Option UInt32 := word? (Record.position count)

end TreeImage
