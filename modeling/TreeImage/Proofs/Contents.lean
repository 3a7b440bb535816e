import TreeImage.Proofs.Planning

/-!
# Forests in an image

The data region and the records that a forest with contents has in an image. Every offset is the
size of what was written before, so that all of them are laid out with a running offset. An image
holds its forest up to the NUL characters of its names: read back, the names are cut at the first
one, and two images are equal just if their forests are, the NUL characters at the ends left out.
-/

namespace TreeImage

namespace Forest

variable {α β : Type}

/-- The forest with other names. -/
def rename (f : String → String) : Forest α → Forest α
  | .nil => .nil
  | .file name content rest => .file (f name) content (rest.rename f)
  | .directory name children rest => .directory (f name) (children.rename f) (rest.rename f)

/-- The names in pre-order. -/
def names : Forest α → List String
  | .nil => []
  | .file name _ rest => name :: rest.names
  | .directory name children rest => name :: (children.names ++ rest.names)

/-- The names that stand side by side at the top. -/
def tops : Forest α → List String
  | .nil => []
  | .file name _ rest => name :: rest.tops
  | .directory name _ rest => name :: rest.tops

/-- No two siblings have the same name. -/
def Distinct : Forest α → Prop
  | .nil => True
  | .file name _ rest => name ∉ rest.tops ∧ rest.Distinct
  | .directory name children rest => name ∉ rest.tops ∧ children.Distinct ∧ rest.Distinct

/-- The contents of the files, one behind the other. -/
def data : Forest Bytes → Bytes
  | .nil => []
  | .file _ contents rest => contents ++ rest.data
  | .directory _ children rest => children.data ++ rest.data

/-- The records of a forest that has `offset` bytes of contents before it. -/
def records (offset : Nat) : Forest Bytes → List Record
  | .nil => []
  | .file name contents rest =>
    .file (UInt32.ofNat offset) name (UInt32.ofNat contents.length) ::
      rest.records (offset + contents.length)
  | .directory name children rest =>
    .directory (UInt32.ofNat children.length) name (UInt32.ofNat children.length) ::
      (children.records offset ++ rest.records (offset + children.data.length))

/-- Where the contents lie, with `offset` bytes before them. -/
def extents (offset : Nat) : Forest Bytes → Forest Extent
  | .nil => .nil
  | .file name contents rest =>
    .file name ⟨UInt32.ofNat offset, UInt32.ofNat contents.length⟩
      (rest.extents (offset + contents.length))
  | .directory name children rest =>
    .directory name (children.extents offset) (rest.extents (offset + children.data.length))

@[simp] theorem tops_map (f : α → β) (g : Forest α) : (g.map f).tops = g.tops := by
  induction g with
  | nil => rfl
  | file name content rest ih => simp [map, tops, ih]
  | directory name children rest _ ih => simp [map, tops, ih]

@[simp] theorem names_map (f : α → β) (g : Forest α) : (g.map f).names = g.names := by
  induction g with
  | nil => rfl
  | file name content rest ih => simp [map, names, ih]
  | directory name children rest ihc ih => simp [map, names, ihc, ih]

@[simp] theorem length_rename (f : String → String) (g : Forest α) :
    (g.rename f).length = g.length := by
  induction g with
  | nil => rfl
  | file name content rest ih => simp [rename, length, ih]
  | directory name children rest _ ih => simp [rename, length, ih]

@[simp] theorem size_rename (f : String → String) (g : Forest α) : (g.rename f).size = g.size := by
  induction g with
  | nil => rfl
  | file name content rest ih => simp [rename, size, ih]
  | directory name children rest ihc ih => simp [rename, size, ihc, ih]

@[simp] theorem fileCount_rename (f : String → String) (g : Forest α) :
    (g.rename f).fileCount = g.fileCount := by
  induction g with
  | nil => rfl
  | file name content rest ih => simp [rename, fileCount, ih]
  | directory name children rest ihc ih => simp [rename, fileCount, ihc, ih]

@[simp] theorem data_rename (f : String → String) (g : Forest Bytes) :
    (g.rename f).data = g.data := by
  induction g with
  | nil => rfl
  | file name contents rest ih => simp [rename, data, ih]
  | directory name children rest ihc ih => simp [rename, data, ihc, ih]

@[simp] theorem countable_rename (f : String → String) (g : Forest α) :
    (g.rename f).Countable ↔ g.Countable := by
  induction g with
  | nil => rfl
  | file name content rest ih => exact ih
  | directory name children rest ihc ih => simp [rename, Countable, ihc, ih]

@[simp] theorem length_records (g : Forest Bytes) (offset : Nat) :
    (g.records offset).length = g.size := by
  induction g generalizing offset with
  | nil => rfl
  | file name contents rest ih => simp [records, size, ih]
  | directory name children rest ihc ih => simp [records, size, ihc, ih]

@[simp] theorem countP_records (g : Forest Bytes) (offset : Nat) :
    (g.records offset).countP Record.isFile = g.fileCount := by
  induction g generalizing offset with
  | nil => rfl
  | file name contents rest ih => simp [records, fileCount, List.countP_cons, Record.isFile, ih]
  | directory name children rest ihc ih => simp [records, fileCount, Record.isFile, ihc, ih]

theorem records_rename (f : String → String) (g : Forest Bytes) (offset : Nat) :
    (g.rename f).records offset = (g.records offset).map (Record.rename f) := by
  induction g generalizing offset with
  | nil => rfl
  | file name contents rest ih => simp [rename, records, Record.rename, ih]
  | directory name children rest ihc ih => simp [rename, records, Record.rename, ihc, ih]

theorem rename_eq_self {f : String → String} {g : Forest α} (h : ∀ name ∈ g.names, f name = name) :
    g.rename f = g := by
  induction g with
  | nil => rfl
  | file name content rest ih =>
    have hname := h name (List.mem_cons_self ..)
    have hrest := ih fun n hn => h n (List.mem_cons_of_mem _ hn)
    rw [rename, hname, hrest]
  | directory name children rest ihc ih =>
    have hname := h name (List.mem_cons_self ..)
    have hchildren := ihc fun n hn => h n (List.mem_cons_of_mem _ (List.mem_append_left _ hn))
    have hrest := ih fun n hn => h n (List.mem_cons_of_mem _ (List.mem_append_right _ hn))
    rw [rename, hname, hchildren, hrest]

@[simp] theorem length_extents (offset : Nat) (g : Forest Bytes) :
    (g.extents offset).length = g.length := by
  induction g generalizing offset with
  | nil => rfl
  | file name contents rest ih => simp [extents, length, ih]
  | directory name children rest _ ih => simp [extents, length, ih]

theorem preorder_records {g : Forest Bytes} (h : g.Countable) (offset : Nat) :
    Record.Preorder (g.records offset) (g.extents offset) := by
  induction g generalizing offset with
  | nil => exact .nil
  | file name contents rest ih => exact .file _ name _ (ih h _)
  | directory name children rest ihc ih =>
    rcases h with ⟨hlength, hchildren, hrest⟩
    refine .directory _ name _ ?_ (ihc hchildren _) (ih hrest _)
    rw [length_extents, UInt32.toNat_ofNat']
    exact (Nat.mod_eq_of_lt hlength).symm

/-- The contents stand where the extents say, whatever stands before and behind them. -/
theorem map_read_extents {g : Forest Bytes} {region : DataRegion} (front rest : Bytes)
    (hregion : region.bytes = front ++ (g.data ++ rest))
    (h : front.length + g.data.length < UInt32.size) :
    (g.extents front.length).map region.read = g := by
  induction g generalizing front rest with
  | nil => rfl
  | file name contents others ih =>
    simp only [data, List.length_append, List.append_assoc] at h hregion
    have hoffset : (UInt32.ofNat front.length).toNat = front.length :=
      UInt32.toNat_ofNat_of_lt' (by omega)
    have hlength : (UInt32.ofNat contents.length).toNat = contents.length :=
      UInt32.toNat_ofNat_of_lt' (by omega)
    have hread := Bytes.slice_append front contents (others.data ++ rest)
    have hothers := ih (front ++ contents) rest (by rw [hregion, List.append_assoc])
      (by rw [List.length_append]; omega)
    rw [List.length_append] at hothers
    rw [extents, map, hothers, DataRegion.read, hoffset, hlength, hregion, hread]
  | directory name children others ihc ih =>
    simp only [data, List.length_append, List.append_assoc] at h hregion
    have hchildren := ihc front (others.data ++ rest) hregion (by omega)
    have hothers := ih (front ++ children.data) rest (by rw [hregion, List.append_assoc])
      (by rw [List.length_append]; omega)
    rw [List.length_append] at hothers
    rw [extents, map, hchildren, hothers]

end Forest

/-- The image is that of the forest. -/
structure Image.Holds (image : Image) (g : Forest Bytes) : Prop where
  countable : g.Countable
  rootEntries : image.header.rootEntries.toNat = g.length
  fileCount : (g.records 0).countP Record.isFile = image.header.fileCount.toNat
  within : ∀ r ∈ g.records 0, r.Within g.data.length
  assembled : Bytes.Assembled image.header (g.records 0) g.data image.bytes

namespace Image.Holds

variable {image image' : Image} {g g' : Forest Bytes}

theorem length_data_lt (h : image.Holds g) : g.data.length < UInt32.size := by
  have htotal := h.assembled.totalSize
  calc
    g.data.length ≤ image.header.totalSize.toNat := by omega
    _ < UInt32.size := image.header.totalSize.toNat_lt

theorem map_read (h : image.Holds g) (f : String → String) :
    ((g.rename f).extents 0).map (DataRegion.read { bytes := g.data }) = g.rename f := by
  have hlength := h.length_data_lt
  apply Forest.map_read_extents [] []
  · simp
  · simpa using hlength

theorem preorder (h : image.Holds g) (f : String → String) :
    Record.Preorder ((g.records 0).map (Record.rename f)) ((g.rename f).extents 0) := by
  rw [← Forest.records_rename]
  exact Forest.preorder_records ((Forest.countable_rename f g).mpr h.countable) 0

/-- The forest is read back with its names cut at the first NUL character. -/
theorem ofBytes_eq (h : image.Holds g) :
    Reading.ofBytes image.bytes =
      .ok ⟨image.header, g.rename Text.untilNul, (g.rename Text.untilNul).records 0⟩ := by
  rw [h.assembled.ofBytes_eq_ok_iff]
  refine ⟨rfl, Forest.records_rename _ _ _, h.fileCount, h.within,
    (g.rename Text.untilNul).extents 0, ?_, h.preorder _, (h.map_read _).symm⟩
  rw [Forest.length_extents, Forest.length_rename, h.rootEntries]

theorem length_records_eq (h : image.Holds g) (h' : image'.Holds g')
    (hbytes : image.bytes = image'.bytes) : (g.records 0).length = (g'.records 0).length := by
  have hregion := h.assembled.region
  have hregion' := h'.assembled.region
  rw [← hbytes, hregion] at hregion'
  simp only [Record.position, Record.size] at hregion'
  omega

/-- Equal images have equal records, but for the NUL characters at the ends of names. -/
theorem records_eq (h : image.Holds g) (h' : image'.Holds g')
    (hbytes : image.bytes = image'.bytes) :
    (g.records 0).map (Record.rename Text.trimNul) =
      (g'.records 0).map (Record.rename Text.trimNul) := by
  have hlength := length_records_eq h h' hbytes
  have hfront : image.header.encode ++ (g.records 0).flatMap Record.encode =
      image'.header.encode ++ (g'.records 0).flatMap Record.encode := by
    have hassembled := h.assembled.bytes
    rw [hbytes, h'.assembled.bytes] at hassembled
    refine (List.append_inj hassembled.symm ?_).1
    rw [h.assembled.length_front, h'.assembled.length_front, hlength]
  have hencoded := (List.append_inj hfront (by simp)).2
  exact Record.flatMap_encode_inj h.assembled.fits h'.assembled.fits |>.mp hencoded

theorem data_eq (h : image.Holds g) (h' : image'.Holds g')
    (hbytes : image.bytes = image'.bytes) : g.data = g'.data := by
  rw [← h.assembled.drop_region, ← h'.assembled.drop_region, hbytes]

/-- The header of an image says no more of its forest than these four numbers. -/
theorem header_eq_of_figures (h : image.Holds g) (h' : image'.Holds g') (hsize : g.size = g'.size)
    (hfiles : g.fileCount = g'.fileCount) (hdata : g.data.length = g'.data.length)
    (hroots : g.length = g'.length) : image.header = image'.header := by
  have htotalSize : image.header.totalSize = image'.header.totalSize := by
    apply UInt32.toNat.inj
    rw [h.assembled.totalSize, h'.assembled.totalSize, Forest.length_records,
      Forest.length_records, hsize, hdata]
  have hfileCount : image.header.fileCount = image'.header.fileCount := by
    apply UInt32.toNat.inj
    rw [← h.fileCount, ← h'.fileCount, Forest.countP_records, Forest.countP_records, hfiles]
  have hheaderSize : image.header.headerSize = image'.header.headerSize := by
    apply UInt32.toNat.inj
    rw [h.assembled.headerSize, h'.assembled.headerSize, Forest.length_records,
      Forest.length_records, hsize]
  have hrootEntries : image.header.rootEntries = image'.header.rootEntries := by
    apply UInt32.toNat.inj
    rw [h.rootEntries, h'.rootEntries, hroots]
  cases hheader : image.header with
  | mk totalSize fileCount headerSize rootEntries =>
    cases hheader' : image'.header with
    | mk totalSize' fileCount' headerSize' rootEntries' => simp_all

theorem header_eq (h : image.Holds g) (h' : image'.Holds g')
    (htrim : g.rename Text.trimNul = g'.rename Text.trimNul) : image.header = image'.header := by
  apply h.header_eq_of_figures h'
  · simpa using congrArg Forest.size htrim
  · simpa using congrArg Forest.fileCount htrim
  · simpa using congrArg (fun forest => forest.data.length) htrim
  · simpa using congrArg Forest.length htrim

/-- Two images are equal just if their forests differ in no more than the NUL characters at the ends
of names. -/
theorem bytes_eq_iff (h : image.Holds g) (h' : image'.Holds g') :
    image.bytes = image'.bytes ↔ g.rename Text.trimNul = g'.rename Text.trimNul := by
  constructor
  · intro hbytes
    -- Equal records are cut up in one way only. So the extents agree, and what is read there does.
    have hrecords := records_eq h h' hbytes
    have hdata := data_eq h h' hbytes
    have hpre := h.preorder Text.trimNul
    have hpre' := h'.preorder Text.trimNul
    have hroots : g.length = g'.length := by
      have hheader := h.assembled.header_eq
      rw [hbytes, ← h'.assembled.header_eq] at hheader
      rw [← h.rootEntries, hheader, h'.rootEntries]
    rw [← hrecords] at hpre'
    have hextents := hpre.eq_of_length_eq hpre' (by simpa using hroots)
    rw [← h.map_read, hextents, hdata, h'.map_read]
  · intro htrim
    have hrecords := congrArg (Forest.records 0) htrim
    have hdata := congrArg Forest.data htrim
    rw [Forest.records_rename, Forest.records_rename] at hrecords
    rw [Forest.data_rename, Forest.data_rename] at hdata
    have hencoded := (Record.flatMap_encode_inj h.assembled.fits h'.assembled.fits).mpr hrecords
    rw [h.assembled.bytes, h'.assembled.bytes, header_eq h h' htrim, hencoded, hdata]

end Image.Holds

end TreeImage
