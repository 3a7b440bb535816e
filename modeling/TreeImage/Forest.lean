/-!
# Trees of named files and directories

`Forest α` is an ordered list of trees whose files carry an `α`. It is given by its first tree and
the trees after it, so that one induction reaches every node. A captured source carries nothing at
its files; an image that was read carries the contents.
-/

namespace TreeImage

inductive Kind where
  | file
  | directory
  deriving DecidableEq, Repr

/-- The word for a kind in listings and manifests. -/
def Kind.word : Kind → String
  | .file => "file"
  | .directory => "dir"

inductive Forest (α : Type) where
  | nil
  | file (name : String) (content : α) (rest : Forest α)
  | directory (name : String) (children rest : Forest α)
  deriving DecidableEq, Repr

inductive Tree (α : Type) where
  | file (name : String) (content : α)
  | directory (name : String) (children : Forest α)
  deriving DecidableEq, Repr

namespace Tree

variable {α : Type}

def name : Tree α → String
  | .file name _ => name
  | .directory name _ => name

def kind : Tree α → Kind
  | .file _ _ => .file
  | .directory _ _ => .directory

/-- A file has no children. -/
def children : Tree α → Forest α
  | .file _ _ => .nil
  | .directory _ children => children

end Tree

/-- A line of an outline: a node at its depth, with the content if it is a file. -/
structure Outline (α : Type) where
  depth : Nat
  name : String
  content : Option α
  deriving DecidableEq, Repr

def Outline.kind {α : Type} (line : Outline α) : Kind :=
  if line.content.isSome then .file else .directory

namespace Forest

variable {α : Type}

/-- How many trees stand side by side at the top. -/
def length : Forest α → Nat
  | .nil => 0
  | .file _ _ rest => rest.length + 1
  | .directory _ _ rest => rest.length + 1

/-- How many nodes there are at any depth. -/
def size : Forest α → Nat
  | .nil => 0
  | .file _ _ rest => rest.size + 1
  | .directory _ children rest => children.size + rest.size + 1

def append : Forest α → Forest α → Forest α
  | .nil, g => g
  | .file name content rest, g => .file name content (rest.append g)
  | .directory name children rest, g => .directory name children (rest.append g)

instance : Append (Forest α) := ⟨append⟩

/-- A tree in front of a forest. -/
def cons : Tree α → Forest α → Forest α
  | .file name content, rest => .file name content rest
  | .directory name children, rest => .directory name children rest

def toList : Forest α → List (Tree α)
  | .nil => []
  | .file name content rest => .file name content :: rest.toList
  | .directory name children rest => .directory name children :: rest.toList

def ofList : List (Tree α) → Forest α
  | [] => .nil
  | tree :: rest => cons tree (ofList rest)

/-- The nodes in pre-order: each directory directly before what is below it. -/
def outline (depth : Nat) : Forest α → List (Outline α)
  | .nil => []
  | .file name content rest => ⟨depth, name, some content⟩ :: rest.outline depth
  | .directory name children rest =>
    ⟨depth, name, none⟩ :: (children.outline (depth + 1) ++ rest.outline depth)

@[simp] theorem nil_append (g : Forest α) : (.nil : Forest α) ++ g = g := rfl

@[simp] theorem file_append (name : String) (content : α) (rest g : Forest α) :
    Forest.file name content rest ++ g = .file name content (rest ++ g) := rfl

@[simp] theorem directory_append (name : String) (children rest g : Forest α) :
    Forest.directory name children rest ++ g = .directory name children (rest ++ g) := rfl

@[simp] theorem append_nil (f : Forest α) : f ++ .nil = f := by
  induction f with
  | nil => rfl
  | file name content rest ih => simp [ih]
  | directory name children rest _ ih => simp [ih]

@[simp] theorem length_append (f g : Forest α) : (f ++ g).length = f.length + g.length := by
  induction f with
  | nil => simp [length]
  | file name content rest ih => simp [length, ih]; omega
  | directory name children rest _ ih => simp [length, ih]; omega

@[simp] theorem length_toList (f : Forest α) : f.toList.length = f.length := by
  induction f with
  | nil => rfl
  | file name content rest ih => simp [toList, length, ih]
  | directory name children rest _ ih => simp [toList, length, ih]

@[simp] theorem ofList_toList (f : Forest α) : ofList f.toList = f := by
  induction f with
  | nil => rfl
  | file name content rest ih => simp [toList, ofList, cons, ih]
  | directory name children rest _ ih => simp [toList, ofList, cons, ih]

@[simp] theorem length_outline (depth : Nat) (f : Forest α) :
    (f.outline depth).length = f.size := by
  induction f generalizing depth with
  | nil => rfl
  | file name content rest ih => simp [outline, size, ih]
  | directory name children rest ihc ih => simp [outline, size, ihc, ih]

end Forest

/-- A tree in pre-order, itself at depth 0. -/
def Tree.outline {α : Type} (tree : Tree α) : List (Outline α) :=
  (Forest.cons tree .nil).outline 0

end TreeImage
