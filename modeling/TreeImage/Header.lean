import TreeImage.Word

/-!
# The header of an image

An image opens with four words: its total size, the number of files in it, the size of the header
region, and the number of entries of the root.
-/

namespace TreeImage

structure Header where
  totalSize : UInt32
  fileCount : UInt32
  headerSize : UInt32
  rootEntries : UInt32
  deriving DecidableEq, Repr

namespace Header

/-- The bytes that a header takes. -/
def size : Nat := 16

def encode (h : Header) : Bytes :=
  Bytes.ofWord h.totalSize ++ Bytes.ofWord h.fileCount ++ Bytes.ofWord h.headerSize ++
    Bytes.ofWord h.rootEntries

/-- The header that `bs` begins with, if it is long enough for one. -/
def decode? (bs : Bytes) : Option Header :=
  if bs.length < size then none
  else some ⟨bs.wordAt 0, bs.wordAt 4, bs.wordAt 8, bs.wordAt 12⟩

@[simp] theorem length_encode (h : Header) : h.encode.length = size := by
  simp [encode, size]

/-- A header is read back from the front of a text that it was written to. -/
theorem decode?_encode (h : Header) (rest : Bytes) : decode? (h.encode ++ rest) = some h := by
  obtain ⟨a, b, c, d⟩ := h
  have ha : Bytes.wordAt 0 (Bytes.ofWord a ++ (Bytes.ofWord b ++ Bytes.ofWord c ++
      Bytes.ofWord d ++ rest)) = a := Bytes.wordAt_append [] _ a
  have hb : Bytes.wordAt 4 (Bytes.ofWord a ++ (Bytes.ofWord b ++ (Bytes.ofWord c ++
      Bytes.ofWord d ++ rest))) = b := Bytes.wordAt_append (Bytes.ofWord a) _ b
  have hc : Bytes.wordAt 8 ((Bytes.ofWord a ++ Bytes.ofWord b) ++ (Bytes.ofWord c ++
      (Bytes.ofWord d ++ rest))) = c := by
    simpa using Bytes.wordAt_append (Bytes.ofWord a ++ Bytes.ofWord b) (Bytes.ofWord d ++ rest) c
  have hd : Bytes.wordAt 12 ((Bytes.ofWord a ++ Bytes.ofWord b ++ Bytes.ofWord c) ++
      (Bytes.ofWord d ++ rest)) = d := by
    simpa using Bytes.wordAt_append (Bytes.ofWord a ++ Bytes.ofWord b ++ Bytes.ofWord c) rest d
  simp only [List.append_assoc] at ha hb hc hd
  simp [decode?, encode, size, ha, hb, hc, hd]
  omega

end Header

end TreeImage
