import TreeImage.Forest

/-!
# Manifests

A manifest has one row per record of an image, in the order of the records. A row of a file has an
offset and a length; a row of a directory has the number of its direct children.
-/

namespace TreeImage

structure Row where
  index : Nat
  path : String
  kind : Kind
  offset : Option UInt32
  length : Option UInt32
  children : Option UInt32
  deriving DecidableEq, Repr

def Row.ofFile (index : Nat) (path : String) (offset length : UInt32) : Row :=
  ⟨index, path, .file, some offset, some length, none⟩

def Row.ofDirectory (index : Nat) (path : String) (children : UInt32) : Row :=
  ⟨index, path, .directory, none, none, some children⟩

abbrev Manifest := List Row

end TreeImage
