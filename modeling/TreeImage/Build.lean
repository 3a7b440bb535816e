import TreeImage.Capture
import TreeImage.Image
import TreeImage.Image.Reading

/-!
# Builds

A build captures a tree, lays it out and packs it. A run does that as a configuration says and hands
the image over in one write, after reading it back if that was asked for; a run that fails writes
nothing.
-/

namespace TreeImage

/-- What to pack and where to put it. -/
structure Config where
  source : Path := .ofText "./ramdisk"
  output : Path := .ofText "./ramdisk.bin"
  /-- Where the manifest goes, if anywhere. A run leaves it to its caller. -/
  manifest : Option Path := none
  /-- Whether the image is read back before it is written. -/
  verify : Bool := false
  deriving DecidableEq, Repr

/-- The figures of a finished image. -/
structure Summary where
  files : UInt32
  directories : UInt32
  dataSize : UInt32
  totalSize : UInt32
  deriving DecidableEq, Repr

def Image.summary (image : Image) : Summary where
  files := image.header.fileCount
  directories := UInt32.ofNat (image.manifest.countP (·.kind = .directory))
  dataSize := image.dataSize
  totalSize := image.header.totalSize

/-- The image of what is below `root`. Nothing is written. -/
def Image.build (depth : Nat) (root : Path) : Session Image := do
  let tree ← Tree.capture depth root
  let layout ← Session.ofExcept tree.plan
  Session.report (.planned layout.entries.length layout.fileCount)
  Image.pack root layout

/-- Reads an image back and drops it. -/
def Image.verify (image : Image) : Session Unit := do
  let reading ← Session.ofExcept (Reading.ofBytes image.bytes)
  Session.report (.verified reading.records.length)

/-- Writes an image where the configuration wants it. -/
def Config.handOver (config : Config) (image : Image) : Session Image := do
  Session.write config.output image.bytes
  let summary := image.summary
  Session.report (.wrote config.output summary.files summary.directories summary.totalSize)
  return image

/-- Writes an image, after reading it back if that is asked for. -/
def Config.deliver (config : Config) (image : Image) : Session Image := do
  if config.verify then image.verify
  config.handOver image

/-- Builds the image that a configuration asks for and writes it. -/
def Config.run (depth : Nat) (config : Config) : Session Image := do
  Session.report (.started config.source config.output)
  let image ← Image.build depth config.source
  config.deliver image

end TreeImage
