import TreeImage.Forest
import TreeImage.Failure

/-!
# Reading an image

The records of an image are the pre-order of a forest: a file stands for itself, and a directory is
followed by as many trees as it has direct children. An image is read from these counts alone. It
is refused at the first place where it goes wrong.
-/

namespace TreeImage

/-- An image that was read: its header, the trees of the root, and the records in stored order. -/
structure Reading where
  header : Header
  entries : Forest Bytes
  records : List Record
  deriving DecidableEq, Repr

namespace Record

def isFile : Record → Bool
  | .file _ _ _ => true
  | .directory _ _ _ => false

/-- The next `count` records of `bs`, the first of which has the given index. -/
def decodeMany (index : Nat) : Nat → Bytes → Except Failure (List Record)
  | 0, _ => .ok []
  | count + 1, bs =>
    match decode? (bs.take size) with
    | none => .error (.malformed (position index) .unknownTag)
    | some record => do
      let others ← decodeMany (index + 1) count (bs.drop size)
      return record :: others

end Record

/-- The contents of an image, with their size. -/
structure DataRegion where
  bytes : Bytes
  size : Nat := bytes.length
  size_eq : size = bytes.length := by rfl

/-- The bytes of a range that lies in the region. -/
def DataRegion.range? (data : DataRegion) (offset length : Nat) : Option Bytes :=
  if offset + length ≤ data.size then some (Bytes.slice offset length data.bytes) else none

/-- The first `count` trees that the records begin with, and the records behind them. Of `total`
records in all, those given are the last. -/
def Forest.ofRecords (data : DataRegion) (total : Nat) :
    (count : Nat) → (records : List Record) →
      Except Failure (Forest Bytes × { rest : List Record // rest.length ≤ records.length })
  | 0, records => .ok (.nil, ⟨records, Nat.le_refl _⟩)
  | _ + 1, [] => .error (.malformed (Record.position total) .missingRecords)
  | count + 1, .file offset name length :: records =>
    match data.range? offset.toNat length.toNat with
    | none =>
      .error (.malformed (Record.position (total - (records.length + 1))) .dataOutOfRange)
    | some contents => do
      let (others, ⟨rest, _⟩) ← Forest.ofRecords data total count records
      return (.file name contents others, ⟨rest, by simp; omega⟩)
  | count + 1, .directory children name _ :: records => do
    let (inner, ⟨behind, _⟩) ← Forest.ofRecords data total children.toNat records
    let (others, ⟨rest, _⟩) ← Forest.ofRecords data total count behind
    return (.directory name inner others, ⟨rest, by simp; omega⟩)
termination_by _ records => records.length
decreasing_by all_goals (simp only [List.length_cons]; omega)

/-- The trees of the root, which must take all the records. -/
def Forest.ofAllRecords (data : DataRegion) (header : Header) (records : List Record) :
    Except Failure (Forest Bytes) := do
  let total := records.length
  let (entries, ⟨rest, _⟩) ← Forest.ofRecords data total header.rootEntries.toNat records
  if rest ≠ [] then
    .error (.malformed (Record.position (total - rest.length)) (.unreachableRecords rest.length))
  else if records.countP Record.isFile ≠ header.fileCount.toNat then
    .error (.malformed 4
      (.fileCountMismatch header.fileCount.toNat (records.countP Record.isFile)))
  else .ok entries

/-- Reads a whole image. -/
def Reading.ofBytes (bs : Bytes) : Except Failure Reading :=
  match Header.decode? bs with
  | none => .error (.malformed 0 .truncatedHeader)
  | some header =>
    let length := bs.length
    let headerSize := header.headerSize.toNat
    if header.totalSize.toNat ≠ length then
      .error (.malformed 0 (.sizeMismatch header.totalSize.toNat length))
    else if headerSize < Header.size ∨ (headerSize - Header.size) % Record.size ≠ 0 ∨
        length < headerSize then
      .error (.malformed 8 (.headerRegion headerSize))
    else do
      let count := (headerSize - Header.size) / Record.size
      let records ← Record.decodeMany 0 count (bs.drop Header.size)
      let data : DataRegion := { bytes := bs.drop headerSize }
      let entries ← Forest.ofAllRecords data header records
      return ⟨header, entries, records⟩

end TreeImage
