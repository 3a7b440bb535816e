import TreeImage.Record
import TreeImage.Path
import TreeImage.Text.Quoted

/-!
# Events

What a build reports while it runs. An event has a level, a message and named fields; every field
is shown as text.
-/

namespace TreeImage

inductive Level where
  | debug
  | info
  deriving DecidableEq, Repr

inductive Event where
  /-- A directory was listed. -/
  | scanned (directory : Path) (entries : Nat)
  | planned (entries files : Nat)
  /-- An entry was given its record. -/
  | placed (index : Nat) (path : String) (record : Record)
  | started (input output : Path)
  | verified (records : Nat)
  | wrote (output : Path) (files directories totalSize : UInt32)
  deriving DecidableEq, Repr

/-- A record with the names of its fields. -/
def Record.description : Record → String
  | .file offset name length =>
    "File \x7b offset: " ++ toString offset.toNat ++ ", name: " ++ Text.quoted name ++
      ", length: " ++ toString length.toNat ++ " \x7d"
  | .directory children name blockCount =>
    "Directory \x7b children: " ++ toString children.toNat ++ ", name: " ++ Text.quoted name ++
      ", block_count: " ++ toString blockCount.toNat ++ " \x7d"

namespace Event

def level : Event → Level
  | .started _ _ => .info
  | .wrote _ _ _ _ => .info
  | _ => .debug

def message : Event → String
  | .scanned _ _ => "scanned directory"
  | .planned _ _ => "planned layout"
  | .placed _ _ _ => "record"
  | .started _ _ => "building ramdisk"
  | .verified _ => "image verified"
  | .wrote output _ _ _ => "wrote " ++ output.text

def fields : Event → List (String × String)
  | .scanned directory entries => [("dir", directory.text), ("entries", toString entries)]
  | .planned entries files => [("entries", toString entries), ("files", toString files)]
  | .placed index path record =>
    [("index", toString index), ("path", path), ("raw", record.description)]
  | .started input output => [("input", input.text), ("output", output.text)]
  | .verified records => [("records", toString records)]
  | .wrote _ files directories totalSize =>
    [("files", toString files.toNat), ("dirs", toString directories.toNat),
      ("total_size", toString totalSize.toNat)]

end Event

end TreeImage
