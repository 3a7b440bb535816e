import TreeImage.Layout
import TreeImage.Manifest
import TreeImage.Session

/-!
# Images

An image is its header, one record per entry of a layout, and the contents of the files in the
order of their entries. `Image.pack` makes one: it first gives every entry its place, asking for
the sizes of the files only, and reads contents when nothing can fail any more but the reading.
-/

namespace TreeImage

/-- An image with its header and its manifest. -/
structure Image where
  bytes : Bytes
  header : Header
  manifest : Manifest
  deriving DecidableEq, Repr

/-- The size of the contents behind the header region. -/
def Image.dataSize (image : Image) : UInt32 := image.header.totalSize - image.header.headerSize

/-- An entry in its place: its record, its row, and for a file where its contents are. -/
structure Placement where
  record : Record
  row : Row
  source : Option Path
  /-- The size of the contents, nothing for a directory. -/
  length : Nat
  deriving DecidableEq, Repr

/-- The size of the contents of all placed files. -/
def Placement.dataSize : List Placement → Nat
  | [] => 0
  | placement :: rest => placement.length + Placement.dataSize rest

/-- An entry needs a name that its record can hold. -/
def Entry.check (entry : Entry) : Except Failure Unit :=
  match nameDefect? entry.name with
  | none => .ok ()
  | some .notAscii => .error (.nameNotAscii entry.path)
  | some (.tooLong size) => .error (.nameTooLong entry.path size)

/-- The entry at `index` in its place, `offset` bytes of contents being before it. -/
def Entry.place (root : Path) (index offset : Nat) (entry : Entry) : Session Placement := do
  Session.ofExcept entry.check
  match entry with
  | .directory path count =>
    return ⟨.directory count entry.name count, .ofDirectory index path count, none, 0⟩
  | .file path =>
    let source := root.append (.ofText path)
    let size ← Session.size source
    let length ← Session.ofExcept (Field.fileLength.fit path size)
    let _ ← Session.ofExcept (Field.dataOffset.fit path (offset + size))
    let start := UInt32.ofNat offset
    return ⟨.file start entry.name length, .ofFile index path start length, some source, size⟩

/-- The entries from `index` on in their places. -/
def Entry.placeAll (root : Path) : Nat → Nat → List Entry → Session (List Placement)
  | _, _, [] => return []
  | index, offset, entry :: rest => do
    let placement ← entry.place root index offset
    Session.report (.placed index entry.path placement.record)
    let others ← Entry.placeAll root (index + 1) (offset + placement.length) rest
    return placement :: others

/-- The contents of a placed file, which must be as long as they were said to be. -/
def Placement.contents (placement : Placement) : Session Bytes :=
  match placement.source with
  | none => return []
  | some source => do
    let bytes ← Session.contents source
    if bytes.length = placement.length then return bytes
    else .fail (.io source ⟨.invalidData, "file changed size during build", []⟩)

/-- The contents of all placed files, one behind the other. -/
def Placement.readAll : List Placement → Session Bytes
  | [] => return []
  | placement :: rest => do
    let bytes ← placement.contents
    let others ← Placement.readAll rest
    return bytes ++ others

/-- The image of a layout whose files are found below `root`. -/
def Image.pack (root : Path) (layout : Layout) : Session Image := do
  let headerSize ← Session.ofExcept
    (Field.headerRegion.fit "" (Record.position layout.entries.length))
  let fileCount ← Session.ofExcept (Field.fileCount.fit "" layout.fileCount)
  let placements ← Entry.placeAll root 0 0 layout.entries
  let totalSize ← Session.ofExcept (Field.totalSize.fit ""
    (headerSize.toNat + Placement.dataSize placements))
  let data ← Placement.readAll placements
  let header : Header := ⟨totalSize, fileCount, headerSize, layout.rootEntries⟩
  return ⟨header.encode ++ placements.flatMap (·.record.encode) ++ data, header,
    placements.map Placement.row⟩

end TreeImage
