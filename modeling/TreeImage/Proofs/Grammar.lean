import TreeImage.Image.Reading
import TreeImage.Proofs.Preorder

/-!
# The grammar of images

`Bytes.IsImage` says which byte strings are images, without reading them: the four words of the
header, the tags of the blocks, and that the records are the pre-order of a forest which leaves
nothing over. The reader accepts these and no others, and what it gives is that forest.

The walk over the records is related to the grammar in both directions. Every pre-order whose
extents lie in the data region is taken from the front of the records, whatever stands behind it;
and what is taken is such a pre-order.
-/

namespace TreeImage

namespace Except

variable {ε α β : Type}

/-- A chain succeeds when both of its parts do. -/
theorem bind_eq_ok_iff {x : Except ε α} {f : α → Except ε β} {b : β} :
    (x >>= f) = .ok b ↔ ∃ a, x = .ok a ∧ f a = .ok b := by
  cases x with
  | error e => simp [bind, Except.bind]
  | ok a => simp [bind, Except.bind]

end Except

/-! ## Blocks and their records -/

namespace Record

/-- The block at `index` of the header region. -/
def block (bs : Bytes) (index : Nat) : Bytes := Bytes.slice (position index) size bs

/-- How many blocks the header region has, by what the header says. -/
def blockCount (bs : Bytes) : Nat := ((bs.wordAt 8).toNat - Header.size) / size

/-- The records of the blocks that have a known tag. -/
def ofBlocks (bs : Bytes) : List Record :=
  (List.range (blockCount bs)).filterMap fun index => decode? (block bs index)

/-- Whether the contents of a file end within a data region of the given size. -/
def Within (dataSize : Nat) : Record → Prop
  | .file offset _ length => offset.toNat + length.toNat ≤ dataSize
  | .directory _ _ _ => True

theorem decode?_isSome_iff {bs : Bytes} (h : bs.length = size) :
    (∃ record, decode? bs = some record) ↔
      Bytes.toNat (Bytes.slice 0 2 bs) = 0xBAE7 ∨ Bytes.toNat (Bytes.slice 0 2 bs) = 0x7EAB := by
  rw [decode?, if_pos h, ofParts?]
  split
  · next hfile => simp [hfile]
  · next hfile =>
    split
    · next hdirectory => simp [hdirectory]
    · next hdirectory => simp [hfile, hdirectory]

/-- Records are decoded one after the other, each from its own 80 bytes. -/
theorem decodeMany_eq_ok_iff {index count : Nat} {bs : Bytes} {records : List Record} :
    decodeMany index count bs = .ok records ↔
      (List.range count).map (fun i => decode? (Bytes.slice (size * i) size bs)) =
        records.map some := by
  induction count generalizing index bs records with
  | zero =>
    cases records with
    | nil => simp [decodeMany]
    | cons => simp [decodeMany]
  | succ count ih =>
    have hfirst : Bytes.slice (size * 0) size bs = bs.take size := by simp [Bytes.slice]
    have hlater : ∀ i, Bytes.slice (size * (i + 1)) size bs =
        Bytes.slice (size * i) size (bs.drop size) := by
      intro i
      rw [Bytes.slice, Bytes.slice, List.drop_drop, Nat.mul_succ, Nat.add_comm]
    rw [List.range_succ_eq_map, List.map_cons, List.map_map, hfirst, decodeMany]
    simp only [Function.comp_def, hlater]
    cases hdecode : decode? (bs.take size) with
    | none => cases records <;> simp
    | some record =>
      simp only [Except.bind_eq_ok_iff, ih]
      constructor
      · intro h
        rcases h with ⟨others, hothers, hrecords⟩
        cases hrecords
        simp [hothers]
      · intro h
        cases records with
        | nil => simp at h
        | cons record' others =>
          simp only [List.map_cons, List.cons.injEq, Option.some.injEq] at h
          exact ⟨others, h.2, by rw [h.1]; rfl⟩

theorem map_eq_map_some_iff {α β : Type} {f : α → Option β} {l : List α} {r : List β} :
    l.map f = r.map some ↔ (∀ a ∈ l, ∃ b, f a = some b) ∧ l.filterMap f = r := by
  induction l generalizing r with
  | nil => cases r <;> simp
  | cons a l ih =>
    cases hf : f a with
    | none => cases r <;> simp [hf]
    | some b =>
      cases r with
      | nil => simp [hf]
      | cons c r =>
        simp only [List.map_cons, List.cons.injEq, hf, Option.some.injEq, ih, List.mem_cons,
          forall_eq_or_imp, List.filterMap_cons, exists_eq', true_and]
        exact and_left_comm

end Record

/-! ## The walk over the records -/

/-- The contents of a file in the data region. -/
def DataRegion.read (data : DataRegion) (extent : Extent) : Bytes :=
  Bytes.slice extent.offset.toNat extent.length.toNat data.bytes

theorem DataRegion.range?_eq_some_iff (data : DataRegion) {offset length : Nat} {contents : Bytes} :
    data.range? offset length = some contents ↔
      offset + length ≤ data.size ∧ contents = Bytes.slice offset length data.bytes := by
  unfold range?
  split
  · next h => simp [h, eq_comm]
  · next h => simp [h]

namespace Forest

variable (data : DataRegion) (total : Nat)

/-- The walk over the records, without the bound on what it leaves. -/
def read (count : Nat) (records : List Record) : Except Failure (Forest Bytes × List Record) := do
  let (f, ⟨rest, _⟩) ← ofRecords data total count records
  return (f, rest)

theorem read_zero (records : List Record) : read data total 0 records = .ok (.nil, records) := by
  rw [read, ofRecords]
  rfl

theorem read_nil (count : Nat) : read data total (count + 1) [] =
    .error (.malformed (Record.position total) .missingRecords) := by
  rw [read, ofRecords]
  rfl

theorem read_file (count : Nat) (offset : UInt32) (name : String) (length : UInt32)
    (records : List Record) :
    read data total (count + 1) (.file offset name length :: records) =
      match data.range? offset.toNat length.toNat with
      | none =>
        .error (.malformed (Record.position (total - (records.length + 1))) .dataOutOfRange)
      | some contents => do
        let (others, rest) ← read data total count records
        return (.file name contents others, rest) := by
  rw [read, ofRecords]
  cases data.range? offset.toNat length.toNat with
  | none => rfl
  | some contents =>
    simp only [read]
    cases ofRecords data total count records with
    | error failure => rfl
    | ok result => rfl

theorem read_directory (count : Nat) (children : UInt32) (name : String) (blockCount : UInt32)
    (records : List Record) :
    read data total (count + 1) (.directory children name blockCount :: records) = do
      let (inner, behind) ← read data total children.toNat records
      let (others, rest) ← read data total count behind
      return (.directory name inner others, rest) := by
  rw [read, ofRecords]
  simp only [read]
  cases ofRecords data total children.toNat records with
  | error failure => rfl
  | ok result =>
    rcases result with ⟨inner, behind, hbehind⟩
    cases hrest : ofRecords data total count behind with
    | error failure => simp [bind, Except.bind, pure, Except.pure, hrest]
    | ok result => simp [bind, Except.bind, pure, Except.pure, hrest]

/-- A pre-order whose extents lie in the data region is taken from the front of the records. -/
theorem read_of_preorder {front : List Record} {f : Forest Extent}
    (h : Record.Preorder front f) (hwithin : ∀ r ∈ front, r.Within data.size)
    (rest : List Record) :
    read data total f.length (front ++ rest) = .ok (f.map data.read, rest) := by
  induction h generalizing rest with
  | nil => exact read_zero data total rest
  | @file records others offset name length _ ih =>
    have hfits : offset.toNat + length.toNat ≤ data.size := hwithin _ (List.mem_cons_self ..)
    have hrange := data.range?_eq_some_iff.mpr ⟨hfits, rfl⟩
    have hothers := ih (fun r hr => hwithin r (List.mem_cons_of_mem _ hr)) rest
    rw [List.cons_append, Forest.length, read_file, hrange]
    simp only [hothers]
    rfl
  | @directory inner outer children others count name blockCount hcount _ _ ihc ih =>
    have hinner := ihc
      (fun r hr => hwithin r (List.mem_cons_of_mem _ (List.mem_append_left _ hr))) (outer ++ rest)
    have houter := ih
      (fun r hr => hwithin r (List.mem_cons_of_mem _ (List.mem_append_right _ hr))) rest
    rw [List.cons_append, Forest.length, read_directory, ← hcount, List.append_assoc, hinner]
    show (read data total others.length (outer ++ rest) >>= _) = _
    rw [houter]
    rfl

/-- What is taken from the front of the records is such a pre-order. -/
theorem preorder_of_read {count : Nat} {records rest : List Record} {g : Forest Bytes}
    (h : read data total count records = .ok (g, rest)) :
    ∃ front f, records = front ++ rest ∧ Record.Preorder front f ∧ f.length = count ∧
      (∀ r ∈ front, r.Within data.size) ∧ g = f.map data.read := by
  -- The cases are those of the walk. A directory takes it twice, below and behind itself.
  induction count, records using ofRecords.induct data generalizing g rest with
  | case1 records =>
    rw [read_zero] at h
    cases h
    exact ⟨[], .nil, rfl, .nil, rfl, by simp, rfl⟩
  | case2 count =>
    rw [read_nil] at h
    cases h
  | case3 count offset name length records hrange =>
    rw [read_file, hrange] at h
    cases h
  | case4 count offset name length records contents hrange ih =>
    rw [read_file, hrange, Except.bind_eq_ok_iff] at h
    rcases h with ⟨⟨others, rest'⟩, hothers, hresult⟩
    cases hresult
    obtain ⟨front, f, rfl, hpre, hlength, hwithin, rfl⟩ := ih hothers
    obtain ⟨hfits, rfl⟩ := data.range?_eq_some_iff.mp hrange
    refine ⟨_, _, rfl, .file offset name length hpre, by rw [Forest.length, hlength], ?_, rfl⟩
    simpa using ⟨hfits, hwithin⟩
  | case5 count children name blockCount records ihc ih =>
    rw [read_directory, Except.bind_eq_ok_iff] at h
    rcases h with ⟨⟨inner, behind⟩, hinner, h⟩
    obtain ⟨⟨others, rest'⟩, hothers, hresult⟩ := Except.bind_eq_ok_iff.mp h
    cases hresult
    obtain ⟨front, f, rfl, hpre, hlength, hwithin, rfl⟩ := ihc hinner
    obtain ⟨front', f', rfl, hpre', hlength', hwithin', rfl⟩ := ih behind (by simp) hothers
    refine ⟨.directory children name blockCount :: (front ++ front'), .directory name f f',
      by simp, .directory children name blockCount hlength hpre hpre',
      by rw [Forest.length, hlength'], ?_, rfl⟩
    intro r hr
    rcases List.mem_cons.mp hr with rfl | hr
    · trivial
    · rcases List.mem_append.mp hr with hr | hr
      · exact hwithin r hr
      · exact hwithin' r hr

theorem ofAllRecords_eq_read (header : Header) (records : List Record) :
    ofAllRecords data header records = (do
      let (entries, rest) ← read data records.length header.rootEntries.toNat records
      if rest ≠ [] then
        .error (.malformed (Record.position (records.length - rest.length))
          (.unreachableRecords rest.length))
      else if records.countP Record.isFile ≠ header.fileCount.toNat then
        .error (.malformed 4
          (.fileCountMismatch header.fileCount.toNat (records.countP Record.isFile)))
      else .ok entries) := by
  rw [ofAllRecords]
  simp only [read]
  cases ofRecords data records.length header.rootEntries.toNat records with
  | error failure => rfl
  | ok result => rfl

/-- All records together are taken just if they are a pre-order within the data region and hold as
many files as the header says. -/
theorem ofAllRecords_eq_ok_iff (header : Header) {records : List Record} {g : Forest Bytes} :
    ofAllRecords data header records = .ok g ↔
      records.countP Record.isFile = header.fileCount.toNat ∧
        (∀ r ∈ records, r.Within data.size) ∧
        ∃ f, f.length = header.rootEntries.toNat ∧ Record.Preorder records f ∧
          g = f.map data.read := by
  rw [ofAllRecords_eq_read, Except.bind_eq_ok_iff]
  constructor
  · intro h
    rcases h with ⟨⟨entries, rest⟩, hread, h⟩
    obtain ⟨front, f, hfront, hpre, hlength, hwithin, rfl⟩ := preorder_of_read data _ hread
    dsimp only at h
    split at h
    · cases h
    · next hrest =>
      split at h
      · cases h
      · next hcount =>
        cases h
        rw [Decidable.not_not] at hrest hcount
        subst hrest
        rw [List.append_nil] at hfront
        subst hfront
        exact ⟨hcount, hwithin, f, hlength, hpre, rfl⟩
  · intro h
    rcases h with ⟨hcount, hwithin, f, hlength, hpre, rfl⟩
    have hread := read_of_preorder data records.length hpre hwithin []
    rw [List.append_nil, hlength] at hread
    refine ⟨_, hread, ?_⟩
    simp [hcount]

end Forest

/-! ## Whole images -/

namespace Bytes

/-- The byte strings that are images. -/
structure IsImage (bs : Bytes) : Prop where
  header : Header.size ≤ bs.length
  totalSize : (bs.wordAt 0).toNat = bs.length
  regionStart : Header.size ≤ (bs.wordAt 8).toNat
  regionEnd : (bs.wordAt 8).toNat ≤ bs.length
  regionBlocks : Record.size ∣ (bs.wordAt 8).toNat - Header.size
  tags : ∀ index < Record.blockCount bs,
    toNat (slice 0 2 (Record.block bs index)) = 0xBAE7 ∨
      toNat (slice 0 2 (Record.block bs index)) = 0x7EAB
  forest : ∃ f, f.length = (bs.wordAt 12).toNat ∧ Record.Preorder (Record.ofBlocks bs) f
  extents : ∀ r ∈ Record.ofBlocks bs, r.Within (bs.length - (bs.wordAt 8).toNat)
  fileCount : (Record.ofBlocks bs).countP Record.isFile = (bs.wordAt 4).toNat

/-- The bytes of an extent in the data region of `bs`, which begins where the header says. -/
def extent (bs : Bytes) (extent : Extent) : Bytes :=
  slice ((bs.wordAt 8).toNat + extent.offset.toNat) extent.length.toNat bs

end Bytes

theorem Header.decode?_eq_some_iff {bs : Bytes} {header : Header} :
    decode? bs = some header ↔ size ≤ bs.length ∧
      header = ⟨bs.wordAt 0, bs.wordAt 4, bs.wordAt 8, bs.wordAt 12⟩ := by
  unfold decode?
  split
  · next h => simpa using fun hle => absurd hle (by omega)
  · next h => simp [eq_comm, Nat.le_of_not_lt h]

theorem Record.decode?_block_isSome_iff {bs : Bytes} {index : Nat}
    (hstart : Header.size ≤ (bs.wordAt 8).toNat) (hend : (bs.wordAt 8).toNat ≤ bs.length)
    (h : index < blockCount bs) :
    (∃ record, decode? (block bs index) = some record) ↔
      Bytes.toNat (Bytes.slice 0 2 (block bs index)) = 0xBAE7 ∨
        Bytes.toNat (Bytes.slice 0 2 (block bs index)) = 0x7EAB := by
  apply decode?_isSome_iff
  have hmul := Nat.div_mul_le_self ((bs.wordAt 8).toNat - Header.size) size
  simp only [blockCount, size, Header.size] at h hmul hstart
  simp only [block, Bytes.length_slice, position, size, Header.size]
  omega

/-- In an image every block has its record. -/
theorem Bytes.IsImage.map_decode? {bs : Bytes} (h : bs.IsImage) :
    (List.range (Record.blockCount bs)).map (fun index => Record.decode? (Record.block bs index)) =
      (Record.ofBlocks bs).map some := by
  rw [Record.map_eq_map_some_iff]
  refine ⟨fun index hindex => ?_, rfl⟩
  rw [List.mem_range] at hindex
  rw [Record.decode?_block_isSome_iff h.regionStart h.regionEnd hindex]
  exact h.tags index hindex

namespace Reading

/-- The records are decoded just if every block has a known tag. -/
theorem decodeMany_blocks_eq_ok_iff {bs : Bytes} {records : List Record}
    (hstart : Header.size ≤ (bs.wordAt 8).toNat) (hend : (bs.wordAt 8).toNat ≤ bs.length) :
    Record.decodeMany 0 (Record.blockCount bs) (bs.drop Header.size) = .ok records ↔
      (∀ index < Record.blockCount bs,
        Bytes.toNat (Bytes.slice 0 2 (Record.block bs index)) = 0xBAE7 ∨
          Bytes.toNat (Bytes.slice 0 2 (Record.block bs index)) = 0x7EAB) ∧
        records = Record.ofBlocks bs := by
  have hblock : ∀ index, Bytes.slice (Record.size * index) Record.size (bs.drop Header.size) =
      Record.block bs index := by
    intro index
    rw [Record.block, Record.position, Bytes.slice, Bytes.slice, List.drop_drop]
  simp only [Record.decodeMany_eq_ok_iff, hblock, Record.map_eq_map_some_iff, List.mem_range]
  refine and_congr (forall₂_congr fun index hindex => ?_) eq_comm
  exact Record.decode?_block_isSome_iff hstart hend hindex

theorem read_region (bs : Bytes) :
    DataRegion.read { bytes := bs.drop (bs.wordAt 8).toNat } = bs.extent := by
  funext extent
  simp [DataRegion.read, Bytes.extent, Bytes.slice, List.drop_drop]

/-- What is read is in an image. -/
theorem isImage_of_ofBytes {bs : Bytes} {reading : Reading} (h : Reading.ofBytes bs = .ok reading) :
    bs.IsImage ∧ reading.header = ⟨bs.wordAt 0, bs.wordAt 4, bs.wordAt 8, bs.wordAt 12⟩ ∧
      reading.records = Record.ofBlocks bs ∧
      ∃ f, f.length = (bs.wordAt 12).toNat ∧ Record.Preorder (Record.ofBlocks bs) f ∧
        reading.entries = f.map bs.extent := by
  unfold Reading.ofBytes at h
  split at h
  · cases h
  · next header hheader =>
    obtain ⟨hsize, rfl⟩ := Header.decode?_eq_some_iff.mp hheader
    dsimp only at h
    split at h
    · cases h
    · next htotal =>
      split at h
      · cases h
      · next hregion =>
        simp only [not_or, Nat.not_lt, Decidable.not_not] at htotal hregion
        rcases hregion with ⟨hstart, hblocks, hend⟩
        obtain ⟨records, hrecords, h⟩ := Except.bind_eq_ok_iff.mp h
        obtain ⟨entries, hentries, h⟩ := Except.bind_eq_ok_iff.mp h
        cases h
        obtain ⟨htags, rfl⟩ := (decodeMany_blocks_eq_ok_iff hstart hend).mp hrecords
        obtain ⟨hcount, hwithin, f, hlength, hpre, rfl⟩ :=
          (Forest.ofAllRecords_eq_ok_iff _ _).mp hentries
        have himage : bs.IsImage :=
          ⟨hsize, htotal, hstart, hend, Nat.dvd_of_mod_eq_zero hblocks, htags,
            ⟨f, hlength, hpre⟩, by simpa using hwithin, hcount⟩
        exact ⟨himage, rfl, rfl, f, hlength, hpre, by rw [read_region]⟩

/-- An image is read. -/
theorem ofBytes_of_isImage {bs : Bytes} (himage : bs.IsImage) {f : Forest Extent}
    (hlength : f.length = (bs.wordAt 12).toNat) (hpre : Record.Preorder (Record.ofBlocks bs) f) :
    Reading.ofBytes bs = .ok ⟨⟨bs.wordAt 0, bs.wordAt 4, bs.wordAt 8, bs.wordAt 12⟩,
      f.map bs.extent, Record.ofBlocks bs⟩ := by
  have hdecode := Header.decode?_eq_some_iff.mpr ⟨himage.header, rfl⟩
  have hblocks := (decodeMany_blocks_eq_ok_iff himage.regionStart himage.regionEnd).mpr
    ⟨himage.tags, rfl⟩
  have hforest := (Forest.ofAllRecords_eq_ok_iff
    { bytes := bs.drop (bs.wordAt 8).toNat : DataRegion }
    ⟨bs.wordAt 0, bs.wordAt 4, bs.wordAt 8, bs.wordAt 12⟩).mpr
    ⟨himage.fileCount, by simpa using himage.extents, f, hlength, hpre, rfl⟩
  have htotal : ¬(bs.wordAt 0).toNat ≠ bs.length := by simpa using himage.totalSize
  have hregion : ¬((bs.wordAt 8).toNat < Header.size ∨
      ((bs.wordAt 8).toNat - Header.size) % Record.size ≠ 0 ∨
        bs.length < (bs.wordAt 8).toNat) := by
    have hmod := Nat.mod_eq_zero_of_dvd himage.regionBlocks
    have hstart := himage.regionStart
    have hend := himage.regionEnd
    omega
  rw [Reading.ofBytes, hdecode]
  dsimp only
  rw [if_neg htotal, if_neg hregion]
  rw [Record.blockCount] at hblocks
  rw [hblocks]
  show (Forest.ofAllRecords _ _ _ >>= _) = _
  rw [hforest, read_region]
  rfl

/-- What is read, and when, in terms of the grammar alone. -/
theorem ofBytes_eq_ok_iff {bs : Bytes} {reading : Reading} :
    Reading.ofBytes bs = .ok reading ↔ bs.IsImage ∧
      reading.header = ⟨bs.wordAt 0, bs.wordAt 4, bs.wordAt 8, bs.wordAt 12⟩ ∧
      reading.records = Record.ofBlocks bs ∧
      ∃ f, f.length = (bs.wordAt 12).toNat ∧ Record.Preorder (Record.ofBlocks bs) f ∧
        reading.entries = f.map bs.extent := by
  constructor
  · intro h
    exact isImage_of_ofBytes h
  · intro h
    rcases h with ⟨himage, hheader, hrecords, f, hlength, hpre, hentries⟩
    rcases reading with ⟨header, entries, records⟩
    dsimp only at hheader hrecords hentries
    rw [ofBytes_of_isImage himage hlength hpre, hheader, hrecords, hentries]

/-- The reader accepts exactly the images. It gives the one forest whose pre-order the records are,
with the bytes that the extents of its files name. -/
theorem ofBytes_accepts_images (bs : Bytes) :
    ((∃ reading, Reading.ofBytes bs = .ok reading) ↔ bs.IsImage) ∧
      ∀ reading, Reading.ofBytes bs = .ok reading →
        reading.header = ⟨bs.wordAt 0, bs.wordAt 4, bs.wordAt 8, bs.wordAt 12⟩ ∧
        reading.records.map some = (List.range (Record.blockCount bs)).map
          (fun index => Record.decode? (Record.block bs index)) ∧
        ∃ f, (f.length = (bs.wordAt 12).toNat ∧ Record.Preorder reading.records f) ∧
          (∀ g, g.length = (bs.wordAt 12).toNat ∧ Record.Preorder reading.records g → g = f) ∧
          reading.entries = f.map bs.extent := by
  constructor
  · constructor
    · intro hreading
      rcases hreading with ⟨reading, h⟩
      exact (ofBytes_eq_ok_iff.mp h).1
    · intro himage
      obtain ⟨f, hlength, hpre⟩ := himage.forest
      exact ⟨⟨_, _, _⟩, ofBytes_eq_ok_iff.mpr ⟨himage, rfl, rfl, f, hlength, hpre, rfl⟩⟩
  · intro reading h
    obtain ⟨himage, hheader, hrecords, f, hlength, hpre, hentries⟩ := ofBytes_eq_ok_iff.mp h
    rw [hrecords]
    refine ⟨hheader, himage.map_decode?.symm, f, ⟨hlength, hpre⟩, ?_, hentries⟩
    intro g hg
    rcases hg with ⟨hlength', hpre'⟩
    exact hpre'.eq_of_length_eq hpre (hlength'.trans hlength.symm)

end Reading

end TreeImage
