import TreeImage.Session

/-!
# Capturing a tree

A tree is captured by listing its root and then every directory that was listed, in pre-order and
each before its later siblings. Names are taken as they come. Whether an entry is a directory is
what its listing says; only the root is asked for.
-/

namespace TreeImage

/-- The trees for what a listing of `parent` gave, where `below` captures a directory. -/
def Forest.ofListing (below : Path → Session (Forest Unit)) (parent : Path) :
    List (String × Kind) → Session (Forest Unit)
  | [] => return .nil
  | (name, .file) :: others => do
    let rest ← Forest.ofListing below parent others
    return .file name () rest
  | (name, .directory) :: others => do
    let children ← below (parent.join name)
    let rest ← Forest.ofListing below parent others
    return .directory name children rest

/-- What is below the directory `path`, where directories within directories are followed at most
`depth` deep. -/
def Forest.capture : Nat → Path → Session (Forest Unit)
  | 0, _ => .unfinished
  | depth + 1, path => do
    let listing ← Session.entries path
    Session.report (.scanned path listing.length)
    Forest.ofListing (Forest.capture depth) path listing

/-- The tree at `root`, which must be a directory. -/
def Tree.capture (depth : Nat) (root : Path) : Session (Tree Unit) := do
  if ← Session.isDirectory root then
    let children ← Forest.capture depth root
    return .directory (root.fileName?.getD "") children
  else
    .fail (.notADirectory root)

end TreeImage
