import TreeImage.Proofs.Contents
import TreeImage.Proofs.LossyText

/-!
# Canonical images

The reader accepts images that no build makes: with bytes behind a name, with contents that overlap
or leave gaps, with names that no entry can have. `Bytes.Canonical` says that an image is free of
all this. Then nothing in it is left open by the forest that is read: its records are those of the
forest, its data region holds the contents one behind the other, and each block is what is written
for its record. So a canonical image is the image of its forest.
-/

namespace TreeImage

namespace Bytes

theorem slice_append_slice (start m n : Nat) (bs : Bytes) :
    slice start m bs ++ slice (start + m) n bs = slice start (m + n) bs := by
  rw [slice, slice, slice, List.take_add, List.drop_drop]

/-- A word is written as it was read. -/
theorem ofWord_wordAt {start : Nat} {bs : Bytes} (h : start + 4 ≤ bs.length) :
    ofWord (bs.wordAt start) = slice start 4 bs := by
  have hlength : (slice start 4 bs).length = 4 := by
    rw [length_slice]
    omega
  have hlt := toNat_lt (slice start 4 bs)
  rw [hlength, capacity_four] at hlt
  rw [ofWord, wordAt, UInt32.toNat_ofNat_of_lt' hlt]
  have hfield := ofNat_toNat (slice start 4 bs)
  rwa [hlength] at hfield

end Bytes

theorem Header.encode_eq_slice {bs : Bytes} (h : Header.size ≤ bs.length) :
    (Header.mk (bs.wordAt 0) (bs.wordAt 4) (bs.wordAt 8) (bs.wordAt 12)).encode =
      Bytes.slice 0 size bs := by
  rw [size] at h
  simp only [encode]
  rw [Bytes.ofWord_wordAt (by omega), Bytes.ofWord_wordAt (by omega),
    Bytes.ofWord_wordAt (by omega), Bytes.ofWord_wordAt (by omega)]
  rw [Bytes.slice_append_slice 0 4 4, Bytes.slice_append_slice 0 8 4,
    Bytes.slice_append_slice 0 12 4, size]

namespace Record

/-- The bytes of the name in a block. -/
def nameBytes (block : Bytes) : Bytes := Bytes.untilZero (Bytes.slice 6 nameField block)

/-- The size of the contents that a record has in the data region. -/
def contentSize : Record → Nat
  | .file _ _ length => length.toNat
  | .directory _ _ _ => 0

def totalSize : List Record → Nat
  | [] => 0
  | r :: rest => r.contentSize + totalSize rest

/-- A name that an entry of a source can have: 1 to 63 ASCII bytes, no slash, not `.` or `..`. -/
structure PlainName (name : Bytes) : Prop where
  ne_nil : name ≠ []
  length_le : name.length ≤ maxName
  ascii : ∀ b ∈ name, b < 0x80
  noSlash : 0x2F ∉ name
  ne_dot : name ≠ [0x2E]
  ne_dots : name ≠ [0x2E, 0x2E]

/-- There are zeros behind the name in its field and at the end of the block. -/
structure Padded (block : Bytes) : Prop where
  field : ∀ b ∈ (Bytes.slice 6 nameField block).drop (nameBytes block).length, b = 0
  reserved : ∀ b ∈ Bytes.slice 74 6 block, b = 0

@[simp] theorem totalSize_append (records others : List Record) :
    totalSize (records ++ others) = totalSize records + totalSize others := by
  induction records with
  | nil => simp [totalSize]
  | cons r rest ih => rw [List.cons_append, totalSize, totalSize, ih, Nat.add_assoc]

/-- The fields of a record are those of its block. -/
theorem parts_of_decode? {block : Bytes} {r : Record} (h : decode? block = some r) :
    block.length = size ∧ Bytes.toNat (Bytes.slice 0 2 block) = r.tag ∧
      r.firstWord = block.wordAt 2 ∧ r.name = Text.ofUtf8Lossy (nameBytes block) ∧
      r.secondWord = block.wordAt 70 := by
  unfold decode? at h
  split at h
  · next hlength =>
    unfold ofParts? at h
    split at h
    · next htag =>
      cases h
      exact ⟨hlength, htag, rfl, rfl, rfl⟩
    · split at h
      · next htag =>
        cases h
        exact ⟨hlength, htag, rfl, rfl, rfl⟩
      · cases h
  · cases h

/-- The name field is the name with zeros behind it. -/
theorem field_eq_slice {block : Bytes} (hlength : block.length = size) (hpadded : Padded block)
    (hascii : ∀ b ∈ nameBytes block, b < 0x80) :
    field (Text.ofUtf8Lossy (nameBytes block)) = Bytes.slice 6 nameField block := by
  have hfront : nameBytes block <+: Bytes.slice 6 nameField block := List.takeWhile_prefix _
  obtain ⟨zeros, hzeros⟩ := hfront
  have hbehind : (Bytes.slice 6 nameField block).drop (nameBytes block).length = zeros := by
    rw [← hzeros, List.drop_left]
  have hroom : zeros.length = nameField - (nameBytes block).length := by
    have htotal := congrArg List.length hzeros
    rw [List.length_append, Bytes.length_slice, hlength] at htotal
    simp only [nameField, size] at htotal ⊢
    omega
  have hreplicate : zeros = List.replicate (nameField - (nameBytes block).length) 0 := by
    rw [List.eq_replicate_iff]
    exact ⟨hroom, hbehind ▸ hpadded.field⟩
  rw [field, Text.utf8_ofUtf8Lossy_ascii hascii, ← hreplicate, hzeros]

/-- A block is cut into its fields. -/
theorem slices_of_block {block : Bytes} (hlength : block.length = size) :
    Bytes.slice 0 2 block ++ (Bytes.slice 2 4 block ++ (Bytes.slice 6 nameField block ++
      (Bytes.slice 70 4 block ++ Bytes.slice 74 6 block))) = block := by
  rw [Bytes.slice_append_slice 70 4 6, nameField, Bytes.slice_append_slice 6 64 10,
    Bytes.slice_append_slice 2 4 74, Bytes.slice_append_slice 0 2 78, Bytes.slice, List.drop_zero]
  exact List.take_of_length_le (Nat.le_of_eq hlength)

/-- A padded block is what is written for its record. -/
theorem encode_of_padded {block : Bytes} {r : Record} (hdecode : decode? block = some r)
    (hpadded : Padded block) (hname : PlainName (nameBytes block)) :
    r.Fits ∧ r.encode = block := by
  obtain ⟨hlength, htag, hfirst, htext, hsecond⟩ := parts_of_decode? hdecode
  have hfits : r.Fits := by
    rw [Fits, htext, Text.utf8_ofUtf8Lossy_ascii hname.ascii]
    exact Nat.le_succ_of_le hname.length_le
  have htagBytes : Bytes.ofNat 2 r.tag = Bytes.slice 0 2 block := by
    have hfield := Bytes.ofNat_toNat (Bytes.slice 0 2 block)
    rw [Bytes.length_slice, hlength, htag] at hfield
    exact hfield
  have hreserved : List.replicate 6 0 = Bytes.slice 74 6 block := by
    rw [eq_comm, List.eq_replicate_iff]
    exact ⟨by rw [Bytes.length_slice, hlength]; rfl, hpadded.reserved⟩
  have hroom : 74 ≤ block.length := by
    rw [hlength]
    decide
  refine ⟨hfits, ?_⟩
  rw [encode_eq_fields hfits, htext, field_eq_slice hlength hpadded hname.ascii, htagBytes, hfirst,
    hsecond, Bytes.ofWord_wordAt (by omega), Bytes.ofWord_wordAt (by omega), hreserved]
  exact slices_of_block hlength

/-- The blocks of the header region, one behind the other. -/
theorem flatMap_block {bs : Bytes} {count : Nat} :
    (List.range count).flatMap (block bs) = Bytes.slice Header.size (size * count) bs := by
  induction count with
  | zero => simp [Bytes.slice]
  | succ count ih =>
    rw [List.range_succ, List.flatMap_append, ih, List.flatMap_singleton, block, position,
      Bytes.slice_append_slice, Nat.mul_succ]

namespace Preorder

variable {records : List Record} {f : Forest Extent}

theorem names_eq (h : Preorder records f) : f.names = records.map Record.name := by
  induction h with
  | nil => rfl
  | file offset name length _ ih => rw [Forest.names, ih, List.map_cons, Record.name]
  | directory count name blockCount _ _ _ ihc ih =>
    rw [Forest.names, ihc, ih, List.map_cons, List.map_append, Record.name]

theorem countable (h : Preorder records f) : f.Countable := by
  induction h with
  | nil => trivial
  | file _ _ _ _ ih => exact ih
  | directory count name blockCount hcount _ _ ihc ih =>
    exact ⟨hcount ▸ count.toNat_lt, ihc, ih⟩

end Preorder

/-- The contents of the records stand one behind the other, and behind `offset` other bytes. -/
def Consecutive (offset : Nat) (records : List Record) : Prop :=
  ∀ front start name length rest, records = front ++ .file start name length :: rest →
    start.toNat = offset + totalSize front

namespace Consecutive

variable {offset : Nat} {r : Record} {records others : List Record}

theorem head {start : UInt32} {name : String} {length : UInt32}
    (h : Consecutive offset (.file start name length :: records)) : start.toNat = offset :=
  h [] start name length records rfl

theorem tail (h : Consecutive offset (r :: records)) :
    Consecutive (offset + r.contentSize) records := by
  intro front start name length rest hcut
  rw [h (r :: front) start name length rest (by rw [hcut]; rfl), totalSize, Nat.add_assoc]

theorem left (h : Consecutive offset (records ++ others)) : Consecutive offset records := by
  intro front start name length rest hcut
  exact h front start name length (rest ++ others) (by rw [hcut]; simp)

theorem right (h : Consecutive offset (records ++ others)) :
    Consecutive (offset + totalSize records) others := by
  intro front start name length rest hcut
  rw [h (records ++ front) start name length rest (by rw [hcut]; simp), totalSize_append,
    Nat.add_assoc]

end Consecutive

namespace Preorder

variable {records : List Record} {f : Forest Extent}

/-- Records whose contents stand one behind the other, and whose block counts are their counts of
children, are those of the forest that is read, and the contents are its data. -/
theorem records_eq (h : Preorder records f) (region : DataRegion) (offset : Nat)
    (hblocks : ∀ children name blockCount, .directory children name blockCount ∈ records →
      blockCount = children)
    (hoffsets : Consecutive offset records)
    (hwithin : offset + totalSize records ≤ region.bytes.length) :
    (f.map region.read).records offset = records ∧
      (f.map region.read).data = Bytes.slice offset (totalSize records) region.bytes := by
  induction h generalizing offset with
  | nil => exact ⟨rfl, by simp [Forest.map, Forest.data, totalSize, Bytes.slice]⟩
  | @file records rest start name length _ ih =>
    rw [totalSize, contentSize] at hwithin
    have hstart := hoffsets.head
    have hread : (region.read ⟨start, length⟩).length = length.toNat := by
      rw [DataRegion.read, Bytes.length_slice, hstart]
      dsimp only
      omega
    obtain ⟨hrecords, hdata⟩ := ih (offset + length.toNat)
      (fun c n b hmem => hblocks c n b (List.mem_cons_of_mem _ hmem)) hoffsets.tail (by omega)
    constructor
    · rw [Forest.map, Forest.records, hread, hrecords, ← hstart, UInt32.ofNat_toNat,
        UInt32.ofNat_toNat]
    · rw [Forest.map, Forest.data, hdata, DataRegion.read, hstart, Bytes.slice_append_slice,
        totalSize, contentSize]
  | @directory inner outer children rest count name blockCount hcount _ _ ihc ih =>
    have hsize : totalSize (.directory count name blockCount :: (inner ++ outer)) =
        totalSize inner + totalSize outer := by
      rw [totalSize, contentSize, Nat.zero_add, totalSize_append]
    rw [hsize] at hwithin
    have hblock := hblocks count name blockCount (List.mem_cons_self ..)
    have hbehind : Consecutive offset (inner ++ outer) := hoffsets.tail
    obtain ⟨hchildren, hinside⟩ := ihc offset
      (fun c n b hmem => hblocks c n b (List.mem_cons_of_mem _ (List.mem_append_left _ hmem)))
      hbehind.left (by omega)
    obtain ⟨hrest, houtside⟩ := ih (offset + totalSize inner)
      (fun c n b hmem => hblocks c n b (List.mem_cons_of_mem _ (List.mem_append_right _ hmem)))
      hbehind.right (by omega)
    have hlength : (children.map region.read).data.length = totalSize inner := by
      rw [hinside, Bytes.length_slice]
      omega
    constructor
    · rw [Forest.map, Forest.records, hlength, hchildren, hrest, Forest.length_map, hcount,
        UInt32.ofNat_toNat, hblock]
    · rw [Forest.map, Forest.data, hinside, houtside, Bytes.slice_append_slice, hsize]

end Preorder

end Record

/-- Nothing in the image is left open by what is read from it. -/
structure Bytes.Canonical (bs : Bytes) (reading : Reading) : Prop where
  padded : ∀ index < reading.records.length, Record.Padded (Record.block bs index)
  blockCounts : ∀ children name blockCount,
    .directory children name blockCount ∈ reading.records → blockCount = children
  /-- The offset of a file is the size of the contents of the files before it. -/
  offsets : ∀ front offset name length rest,
    reading.records = front ++ .file offset name length :: rest →
      offset.toNat = Record.totalSize front
  dataSize : Record.totalSize reading.records = bs.length - reading.header.headerSize.toNat
  names : ∀ index < reading.records.length,
    Record.PlainName (Record.nameBytes (Record.block bs index))
  siblings : reading.entries.Distinct

namespace Bytes.Canonical

variable {bs : Bytes} {reading : Reading}

/-- What is read of an image: its header, a record for each block, and a region behind them. -/
theorem region_of_ofBytes (hread : Reading.ofBytes bs = .ok reading) :
    reading.header.headerSize.toNat = Record.position reading.records.length ∧
      Record.position reading.records.length ≤ bs.length ∧
      (List.range reading.records.length).map
          (fun index => Record.decode? (Record.block bs index)) = reading.records.map some := by
  obtain ⟨himage, hheader, hrecords, -⟩ := Reading.ofBytes_eq_ok_iff.mp hread
  have hdecoded := himage.map_decode?
  rw [← hrecords] at hdecoded
  have hcount : Record.blockCount bs = reading.records.length := by
    simpa using congrArg List.length hdecoded
  have hstart := himage.regionStart
  have hend := himage.regionEnd
  have hblocks := Nat.div_mul_cancel himage.regionBlocks
  rw [← Record.blockCount, hcount] at hblocks
  rw [hcount] at hdecoded
  rw [hheader, Record.position, Nat.mul_comm]
  exact ⟨by dsimp only; omega, by omega, hdecoded⟩

theorem decode?_block (hread : Reading.ofBytes bs = .ok reading) {index : Nat}
    (hindex : index < reading.records.length) :
    Record.decode? (Record.block bs index) = some reading.records[index] := by
  obtain ⟨-, -, hdecoded⟩ := region_of_ofBytes hread
  have hget := congrArg (fun decoded => decoded[index]?) hdecoded
  simpa [hindex] using hget

/-- Every block is what is written for its record. -/
theorem encode_eq_block (h : bs.Canonical reading) (hread : Reading.ofBytes bs = .ok reading)
    {index : Nat} (hindex : index < reading.records.length) :
    reading.records[index].Fits ∧ reading.records[index].encode = Record.block bs index :=
  Record.encode_of_padded (decode?_block hread hindex) (h.padded index hindex)
    (h.names index hindex)

/-- A canonical image is put together from what is read. -/
theorem assembled (h : bs.Canonical reading) (hread : Reading.ofBytes bs = .ok reading) :
    Assembled reading.header reading.records (bs.drop reading.header.headerSize.toNat) bs := by
  obtain ⟨himage, hheader, -⟩ := Reading.ofBytes_eq_ok_iff.mp hread
  obtain ⟨hregion, hend, -⟩ := region_of_ofBytes hread
  have hblocks : reading.records.flatMap Record.encode =
      slice Header.size (Record.size * reading.records.length) bs := by
    have hmap : reading.records.map Record.encode =
        (List.range reading.records.length).map (Record.block bs) := by
      apply List.ext_getElem (by simp)
      intro index hindex _
      rw [List.length_map] at hindex
      rw [List.getElem_map, List.getElem_map, List.getElem_range]
      exact (h.encode_eq_block hread hindex).2
    rw [← Record.flatMap_block, List.flatMap_def, List.flatMap_def, hmap]
  have hheaderBytes : reading.header.encode = slice 0 Header.size bs := by
    rw [hheader]
    exact Header.encode_eq_slice himage.header
  constructor
  · intro r hr
    obtain ⟨index, hindex, rfl⟩ := List.mem_iff_getElem.mp hr
    exact (h.encode_eq_block hread hindex).1
  · exact hregion
  · have htotal : reading.header.totalSize.toNat = bs.length := by
      rw [hheader]
      exact himage.totalSize
    rw [List.length_drop, hregion, htotal]
    omega
  · have hfront := slice_append_slice 0 Header.size (Record.size * reading.records.length) bs
    rw [Nat.zero_add] at hfront
    rw [hheaderBytes, hblocks, hfront, hregion, slice, List.drop_zero]
    exact (List.take_append_drop _ bs).symm

/-- A canonical image is that of the forest that is read. -/
theorem holds (h : bs.Canonical reading) (hread : Reading.ofBytes bs = .ok reading)
    (manifest : Manifest) : (Image.mk bs reading.header manifest).Holds reading.entries := by
  have hassembled := h.assembled hread
  obtain ⟨-, hrename, hfileCount, hwithin, f, hlength, hpre, hentries⟩ :=
    hassembled.ofBytes_eq_ok_iff.mp hread
  rw [← hrename] at hpre
  have hsize : Record.totalSize reading.records =
      (bs.drop reading.header.headerSize.toNat).length := by
    rw [h.dataSize, List.length_drop]
  have hoffsets : Record.Consecutive 0 reading.records := by
    intro front start name length rest hcut
    rw [Nat.zero_add]
    exact h.offsets front start name length rest hcut
  obtain ⟨hrecords, hdata⟩ := hpre.records_eq { bytes := bs.drop reading.header.headerSize.toNat } 0
    h.blockCounts hoffsets (Nat.le_of_eq (by rw [hsize, Nat.zero_add]))
  rw [← hentries] at hrecords hdata
  rw [hsize, slice, List.drop_zero, List.take_length] at hdata
  have hcountable := hpre.countable
  rw [← Forest.countable_map (DataRegion.read { bytes := bs.drop reading.header.headerSize.toNat }),
    ← hentries] at hcountable
  constructor
  · exact hcountable
  · rw [hentries, Forest.length_map, hlength]
  · rw [hrecords, hfileCount]
  · rw [hrecords, hdata]
    exact hwithin
  · rw [hrecords, hdata]
    exact hassembled

/-- The names that are read are those in the blocks. -/
theorem exists_plainName (h : bs.Canonical reading) (hread : Reading.ofBytes bs = .ok reading)
    {name : String} (hname : name ∈ reading.entries.names) :
    ∃ bytes, Record.PlainName bytes ∧ name = Text.ofUtf8Lossy bytes := by
  obtain ⟨-, -, hrecords, f, -, hpre, hentries⟩ := Reading.ofBytes_eq_ok_iff.mp hread
  rw [hentries, Forest.names_map, hpre.names_eq, ← hrecords] at hname
  obtain ⟨r, hr, rfl⟩ := List.mem_map.mp hname
  obtain ⟨index, hindex, rfl⟩ := List.mem_iff_getElem.mp hr
  obtain ⟨-, -, -, htext, -⟩ := Record.parts_of_decode? (decode?_block hread hindex)
  exact ⟨_, h.names index hindex, htext⟩

end Bytes.Canonical

end TreeImage
