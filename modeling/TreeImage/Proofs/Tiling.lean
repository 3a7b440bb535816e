import TreeImage.Build
import TreeImage.Store
import TreeImage.Proofs.Planning
import Mathlib.Algebra.GroupWithZero.Nat

/-!
# The descriptions of an image

An image is described by its header, by its records, by its manifest and by its summary, and all of
them agree. Offsets are handed out from the sizes that were reported and contents are read
afterwards, one behind the other. Since contents of another size are refused, every offset is the
size of what was read before, and the extents of the files tile the data region.
-/

namespace TreeImage

/-! ## Tilings -/

/-- The extents lie one behind the other from `start` up to `stop`. -/
def Tiles : Nat → List Extent → Nat → Prop
  | start, [], stop => start = stop
  | start, extent :: rest, stop =>
    extent.offset.toNat = start ∧ Tiles (start + extent.length.toNat) rest stop

namespace Tiles

variable {start stop position : Nat} {extents : List Extent}

theorem stop_eq (h : Tiles start extents stop) :
    stop = start + (extents.map fun extent => extent.length.toNat).sum := by
  induction extents generalizing start with
  | nil => exact h.symm
  | cons extent rest ih => rw [ih h.2, List.map_cons, List.sum_cons, Nat.add_assoc]

theorem start_le (h : Tiles start extents stop) :
    ∀ extent ∈ extents, start ≤ extent.offset.toNat := by
  induction extents generalizing start with
  | nil => simp
  | cons extent rest ih =>
    intro other hother
    rcases List.mem_cons.mp hother with rfl | hother
    · exact Nat.le_of_eq h.1.symm
    · have hle := ih h.2 other hother
      omega

theorem pairwise (h : Tiles start extents stop) :
    extents.Pairwise fun extent later =>
      extent.offset.toNat + extent.length.toNat ≤ later.offset.toNat := by
  induction extents generalizing start with
  | nil => exact .nil
  | cons extent rest ih =>
    refine .cons (fun later hlater => ?_) (ih h.2)
    rw [h.1]
    exact start_le h.2 later hlater

theorem exists_mem (h : Tiles start extents stop) (hstart : start ≤ position)
    (hstop : position < stop) : ∃ extent ∈ extents, extent.offset.toNat ≤ position ∧
      position < extent.offset.toNat + extent.length.toNat := by
  induction extents generalizing start with
  | nil =>
    have hempty : start = stop := h
    omega
  | cons extent rest ih =>
    by_cases hlater : start + extent.length.toNat ≤ position
    · obtain ⟨found, hfound, hplace⟩ := ih h.2 hlater
      exact ⟨found, List.mem_cons_of_mem _ hfound, hplace⟩
    · refine ⟨extent, List.mem_cons_self .., ?_⟩
      rw [h.1]
      omega

end Tiles

/-! ## Rows and records -/

namespace Row

/-- Where the contents of the file of a row lie. -/
def extent? (row : Row) : Option Extent :=
  match row.offset, row.length with
  | some offset, some length => some ⟨offset, length⟩
  | _, _ => none

/-- The row has the kind and the numbers of the record. A directory states its children twice. -/
inductive Describes (row : Row) : Record → Prop
  | file {offset length : UInt32} {name : String} : row.kind = .file → row.offset = some offset →
      row.length = some length → row.children = none → Describes row (.file offset name length)
  | directory {children : UInt32} {name : String} : row.kind = .directory → row.offset = none →
      row.length = none → row.children = some children →
      Describes row (.directory children name children)

theorem Describes.rename {row : Row} {r : Record} (h : row.Describes r) (f : String → String) :
    row.Describes (r.rename f) := by
  cases h with
  | file hkind hoffset hlength hchildren => exact .file hkind hoffset hlength hchildren
  | directory hkind hoffset hlength hchildren => exact .directory hkind hoffset hlength hchildren

theorem Describes.children_eq {row : Row} {r : Record} (h : row.Describes r) :
    row.children.map UInt32.toNat = r.childCount? := by
  cases h with
  | file hkind hoffset hlength hchildren => rw [hchildren]; rfl
  | directory hkind hoffset hlength hchildren => rw [hchildren]; rfl

end Row

/-- The block of a record holds what the record was written as. -/
theorem Bytes.Assembled.block_eq {header : Header} {before behind : List Record} {r : Record}
    {data bs : Bytes} (h : Assembled header (before ++ r :: behind) data bs) :
    Record.block bs before.length = r.encode := by
  have hbefore : ∀ s ∈ before, s.Fits := fun s hs => h.fits s (List.mem_append_left _ hs)
  have hr : r.Fits := h.fits r (List.mem_append_right _ (List.mem_cons_self ..))
  have hfront : (header.encode ++ before.flatMap Record.encode).length =
      Record.position before.length := by
    rw [List.length_append, Header.length_encode, Record.length_flatMap_encode hbefore,
      Record.position]
  have hbytes : bs = (header.encode ++ before.flatMap Record.encode) ++
      (r.encode ++ (behind.flatMap Record.encode ++ data)) := by
    rw [h.bytes, List.flatMap_append, List.flatMap_cons]
    simp only [List.append_assoc]
  rw [Record.block, ← Record.length_encode_of_fits hr, ← hfront, hbytes, slice_append]

namespace Load

theorem index_row (index offset : Nat) (load : Load) : (load.row index offset).index = index := by
  rcases load with ⟨entry, contents⟩
  cases entry <;> rfl

theorem path_row (index offset : Nat) (load : Load) :
    (load.row index offset).path = load.entry.path := by
  rcases load with ⟨entry, contents⟩
  cases entry <;> rfl

theorem kind_row (index offset : Nat) (load : Load) :
    (load.row index offset).kind = load.entry.kind := by
  rcases load with ⟨entry, contents⟩
  cases entry <;> rfl

theorem describes_row (index offset : Nat) (load : Load) :
    (load.row index offset).Describes (load.record offset) := by
  rcases load with ⟨entry, contents⟩
  cases entry with
  | file path => exact .file rfl rfl rfl rfl
  | directory path count => exact .directory rfl rfl rfl rfl

theorem describes_rows (index offset : Nat) (loads : List Load) :
    List.Forall₂ Row.Describes (rows index offset loads) (records offset loads) := by
  induction loads generalizing index offset with
  | nil => exact .nil
  | cons load rest ih => exact .cons (load.describes_row index offset) (ih _ _)

theorem map_name_records (offset : Nat) (loads : List Load) :
    (records offset loads).map Record.name = loads.map fun load => load.entry.name := by
  induction loads generalizing offset with
  | nil => rfl
  | cons load rest ih => simp only [records, List.map_cons, name_record, ih]

theorem map_kind_rows (index offset : Nat) (loads : List Load) :
    (rows index offset loads).map Row.kind = (loads.map Load.entry).map Entry.kind := by
  induction loads generalizing index offset with
  | nil => rfl
  | cons load rest ih => simp only [rows, List.map_cons, kind_row, ih]

theorem length_data (loads : List Load) :
    (data loads).length = (loads.map fun load => load.contents.length).sum := List.length_flatMap

/-- The extent of a file has its own words, if what lies up to its end fits in one. -/
theorem Proper.extent?_row {offset : Nat} {load : Load} (hproper : load.Proper) (index : Nat)
    (h : offset + load.contents.length < UInt32.size) :
    (∃ extent, (load.row index offset).extent? = some extent ∧ extent.offset.toNat = offset ∧
        extent.length.toNat = load.contents.length) ∨
      (load.entry.kind = .directory ∧ (load.row index offset).extent? = none ∧
        load.contents = []) := by
  rcases load with ⟨entry, contents⟩
  cases entry with
  | file path =>
    exact .inl ⟨_, rfl, UInt32.toNat_ofNat_of_lt' (Nat.lt_of_le_of_lt (Nat.le_add_right ..) h),
      UInt32.toNat_ofNat_of_lt' (Nat.lt_of_le_of_lt (Nat.le_add_left ..) h)⟩
  | directory path count => exact .inr ⟨rfl, rfl, hproper rfl⟩

/-- The extents of the files are laid out without a gap. -/
theorem tiles_rows {index offset : Nat} {loads : List Load}
    (hproper : ∀ load ∈ loads, load.Proper) (h : offset + (data loads).length < UInt32.size) :
    Tiles offset ((rows index offset loads).filterMap Row.extent?)
      (offset + (data loads).length) := by
  induction loads generalizing index offset with
  | nil => rfl
  | cons load rest ih =>
    rw [data_cons, List.length_append] at h
    have hfirst : load.Proper := hproper load (List.mem_cons_self ..)
    have hrest : ∀ load ∈ rest, load.Proper :=
      fun load hload => hproper load (List.mem_cons_of_mem _ hload)
    have hend : offset + load.contents.length < UInt32.size := by omega
    have hothers := @ih (index + 1) (offset + load.contents.length) hrest (by omega)
    rw [data_cons, List.length_append, ← Nat.add_assoc, rows, List.filterMap_cons]
    rcases hfirst.extent?_row index hend with
      ⟨extent, hextent, hoffset, hlength⟩ | ⟨-, hnone, hempty⟩
    · rw [hextent]
      refine ⟨hoffset, ?_⟩
      rw [hlength]
      exact hothers
    · rw [hnone]
      rw [hempty] at hothers ⊢
      exact hothers

end Load

/-! ## The whole image -/

/-- The load that has `before` before it has this row and, read from its block, this record. The
contents of a file lie behind those of all before it. -/
structure Image.Enters (image : Image) (before : List Load) (load : Load) (row : Row)
    (record : Record) : Prop where
  listed : image.manifest[before.length]? = some row
  index : row.index = before.length
  path : row.path = load.entry.path
  kind : row.kind = load.entry.kind
  children : row.children.map UInt32.toNat = load.entry.childCount?
  block : Record.decode? (Bytes.slice (16 + 80 * before.length) 80 image.bytes) = some record
  describes : row.Describes record
  extent : load.entry.kind = .file → ∃ extent, row.extent? = some extent ∧
    extent.offset.toNat = (before.map fun load => load.contents.length).sum ∧
    extent.length.toNat = load.contents.length ∧
    Bytes.slice (image.header.headerSize.toNat + extent.offset.toNat) extent.length.toNat
      image.bytes = load.contents

/-- The image is put together from the loads in every one of its descriptions. -/
structure Image.Composed (image : Image) (loads : List Load) (records : List Record) : Prop where
  bytes : image.bytes = image.header.encode ++ records.flatMap Record.encode ++
    loads.flatMap Load.contents
  recordSizes : ∀ r ∈ records, r.encode.length = 80
  recordNames : records.map Record.name = loads.map fun load => load.entry.name
  recordCounts : records.map Record.childCount? = loads.map fun load => load.entry.childCount?
  headerSize : image.header.headerSize.toNat = 16 + 80 * loads.length
  totalSize : image.header.totalSize.toNat =
    16 + 80 * loads.length + (loads.map fun load => load.contents.length).sum
  length : image.bytes.length = image.header.totalSize.toNat
  described : List.Forall₂ Row.Describes image.manifest records
  rows : image.manifest.length = loads.length
  enters : ∀ before load behind, loads = before ++ load :: behind →
    ∃ row record, image.Enters before load row record
  tiles : Tiles 0 (image.manifest.filterMap Row.extent?) image.dataSize.toNat
  disjoint : (image.manifest.filterMap Row.extent?).Pairwise fun extent later =>
    extent.offset.toNat + extent.length.toNat ≤ later.offset.toNat
  covered : ∀ position < image.dataSize.toNat, ∃ extent ∈ image.manifest.filterMap Row.extent?,
    extent.offset.toNat ≤ position ∧ position < extent.offset.toNat + extent.length.toNat

/-- The summary counts what is in the image. -/
structure Image.Summarized (image : Image) : Prop where
  files : image.summary.files.toNat = image.manifest.countP (·.kind = .file)
  directories : image.summary.directories.toNat = image.manifest.countP (·.kind = .directory)
  entries : image.summary.files.toNat + image.summary.directories.toNat = image.manifest.length
  dataSize : image.summary.dataSize.toNat =
    ((image.manifest.filterMap Row.extent?).map fun extent => extent.length.toNat).sum
  totalSize : image.summary.totalSize.toNat = image.bytes.length

namespace Image

variable {layout : Layout} {loads : List Load} {image : Image}

theorem Packs.length_loads (h : image.Packs layout loads) :
    layout.entries.length = loads.length := by
  rw [← h.entries, List.length_map]

theorem Packs.toNat_dataSize (h : image.Packs layout loads) :
    image.dataSize.toNat = (Load.data loads).length := Image.toNat_dataSize h.assembled

theorem Packs.tiles (h : image.Packs layout loads) (hproper : ∀ load ∈ loads, load.Proper) :
    Tiles 0 (image.manifest.filterMap Row.extent?) image.dataSize.toNat := by
  have hsize : 0 + (Load.data loads).length < UInt32.size := by
    rw [Nat.zero_add, ← h.toNat_dataSize]
    exact image.dataSize.toNat_lt
  rw [h.toNat_dataSize, h.manifest, ← Nat.zero_add (Load.data loads).length]
  exact Load.tiles_rows hproper hsize

/-- The contents of a load stand where those before it end. -/
theorem Packs.slice_eq {before behind : List Load} {load : Load}
    (h : image.Packs layout (before ++ load :: behind)) :
    Bytes.slice (image.header.headerSize.toNat + (Load.data before).length) load.contents.length
      image.bytes = load.contents := by
  have hassembled := h.assembled
  have hbytes : image.bytes = (image.header.encode ++
      (Load.records 0 (before ++ load :: behind)).flatMap Record.encode ++ Load.data before) ++
        (load.contents ++ Load.data behind) := by
    rw [h.bytes, Load.data_append, Load.data_cons]
    simp only [List.append_assoc]
  rw [hassembled.headerSize, ← hassembled.length_front, ← List.length_append, hbytes,
    Bytes.slice_append]

theorem Packs.exists_enters (hproper : ∀ load ∈ loads, load.Proper) {before behind : List Load}
    {load : Load} (hloads : loads = before ++ load :: behind) (h : image.Packs layout loads) :
    ∃ row record, image.Enters before load row record := by
  subst hloads
  have hassembled := h.assembled
  have hslice := h.slice_eq
  have hload : load.Proper := hproper load (List.mem_append_right _ (List.mem_cons_self ..))
  have hmanifest := h.manifest
  rw [Load.rows_append, Load.rows, Nat.zero_add, Nat.zero_add] at hmanifest
  rw [Load.records_append, Load.records, Nat.zero_add] at hassembled
  have hblock := hassembled.block_eq
  rw [Load.length_records] at hblock
  have hfits : (load.record (Load.data before).length).Fits :=
    hassembled.fits _ (List.mem_append_right _ (List.mem_cons_self ..))
  have hend : (Load.data before).length + load.contents.length < UInt32.size := by
    have hsize := image.dataSize.toNat_lt
    rw [h.toNat_dataSize, Load.data_append, Load.data_cons, List.length_append,
      List.length_append] at hsize
    exact Nat.lt_of_le_of_lt (by omega) hsize
  exact ⟨load.row before.length (Load.data before).length,
    (load.record (Load.data before).length).rename Text.untilNul, {
      listed := by
        rw [hmanifest, List.getElem?_append_right (by simp), Load.length_rows, Nat.sub_self]
        rfl
      index := load.index_row _ _
      path := load.path_row _ _
      kind := load.kind_row _ _
      children := by rw [(load.describes_row _ _).children_eq, load.childCount?_record]
      block := by
        rw [← Record.decode?_encode_of_fits hfits, ← hblock]
        rfl
      describes := (load.describes_row _ _).rename _
      extent := by
        intro hfile
        rcases hload.extent?_row before.length hend with
          ⟨extent, hextent, hoffset, hlength⟩ | ⟨hdirectory, -, -⟩
        · refine ⟨extent, hextent, ?_⟩
          rw [hoffset, hlength, ← Load.length_data]
          exact ⟨rfl, rfl, hslice⟩
        · rw [hfile] at hdirectory
          cases hdirectory }⟩

theorem Packs.composed (h : image.Packs layout loads) (hproper : ∀ load ∈ loads, load.Proper) :
    image.Composed loads (Load.records 0 loads) where
  bytes := h.bytes
  recordSizes r hr := Record.length_encode_of_fits (h.assembled.fits r hr)
  recordNames := Load.map_name_records 0 loads
  recordCounts := Load.map_childCount?_records 0 loads
  headerSize := by
    rw [h.headerSize, h.length_loads]
    rfl
  totalSize := by
    rw [h.totalSize, h.length_loads, Load.length_data]
    rfl
  length := by rw [h.assembled.length_eq, h.assembled.totalSize]
  described := by
    rw [h.manifest]
    exact Load.describes_rows 0 0 loads
  rows := by rw [h.manifest, Load.length_rows]
  enters before load behind hloads := h.exists_enters hproper hloads
  tiles := h.tiles hproper
  disjoint := (h.tiles hproper).pairwise
  covered position hposition := (h.tiles hproper).exists_mem (Nat.zero_le _) hposition

/-- The summary is right if the layout is right about the number of its files. -/
theorem Packs.summarized (h : image.Packs layout loads) (hproper : ∀ load ∈ loads, load.Proper)
    (hcount : layout.fileCount = layout.entries.countP (·.kind = .file)) : image.Summarized := by
  have hkinds : image.manifest.map Row.kind = layout.entries.map Entry.kind := by
    rw [h.manifest, Load.map_kind_rows, h.entries]
  have hcountP : ∀ kind, image.manifest.countP (·.kind = kind) =
      layout.entries.countP (·.kind = kind) := by
    intro kind
    have hsame := congrArg (List.countP (· = kind)) hkinds
    rwa [List.countP_map, List.countP_map] at hsame
  have hlength : image.manifest.length = layout.entries.length := by
    simpa using congrArg List.length hkinds
  have hfiles : image.summary.files.toNat = image.manifest.countP (·.kind = .file) := by
    rw [hcountP, ← hcount, ← h.fileCount]
    rfl
  have hsmall : image.manifest.length < UInt32.size := by
    have hsize := image.header.headerSize.toNat_lt
    rw [h.headerSize, ← hlength, Record.position, Record.size] at hsize
    exact Nat.lt_of_le_of_lt (by omega) hsize
  have hdirectories : image.summary.directories.toNat =
      image.manifest.countP (·.kind = .directory) := by
    have hle := List.countP_le_length (p := (·.kind = .directory)) (l := image.manifest)
    exact UInt32.toNat_ofNat_of_lt' (Nat.lt_of_le_of_lt hle hsmall)
  constructor
  · exact hfiles
  · exact hdirectories
  · rw [hfiles, hdirectories, List.length_eq_countP_add_countP fun row => row.kind = .file]
    congr 2
    funext row
    cases row.kind <;> rfl
  · have hstop := (h.tiles hproper).stop_eq
    rwa [Nat.zero_add] at hstop
  · rw [h.assembled.length_eq, ← h.assembled.totalSize]
    rfl

/-- Whatever the surroundings answer: an image that was packed is put together, in every one of its
descriptions, from the entries of its layout and the contents that were read for them, and if the
layout was planned, its summary counts them. -/
theorem pack_composes {σ : Type} {respond : (request : Request) → σ → request.Answer × σ}
    {root : Path} {layout : Layout} {state : σ} {image : Image}
    (h : ((pack root layout).run respond state).outcome = .done image) :
    (∃ loads records, loads.map Load.entry = layout.entries ∧ (∀ load ∈ loads, load.Proper) ∧
      (pack root layout).calls respond state =
        ((loads.filterMap (Load.file? root)).map measure).map Call.ofSize ++
          (loads.filterMap (Load.file? root)).map Call.ofContents ∧
      image.Composed loads records) ∧
    ∀ (α : Type) (tree : Tree α), tree.plan = .ok layout → image.Summarized := by
  have hcourse := (pack root layout).course_run respond state
  rw [h] at hcourse
  obtain ⟨loads, hpacks, hproper, hcalls⟩ := packs_of_course hcourse
  refine ⟨⟨loads, _, hpacks.entries, hproper, hcalls, hpacks.composed hproper⟩, ?_⟩
  intro α tree hplan
  exact hpacks.summarized hproper (Tree.consistent_of_plan hplan).fileCount

/-- A directory with a file of two bytes in it, and a file of one byte behind it. -/
theorem small_image_is_composed :
    ∃ layout image loads records,
      (Tree.directory "a" (.directory "d" (.file "g" () .nil) (.file "f" () .nil))).plan =
        .ok layout ∧
      ((pack (.ofText "/a") layout).run Store.respond
        ((Store.empty.addFile (.ofText "/a/d/g") [3, 4]).addFile (.ofText "/a/f") [1])).outcome =
          .done image ∧
      image.Composed loads records ∧ image.Summarized ∧ image.summary = ⟨2, 1, 3, 259⟩ := by
  have hpack : ∃ layout image,
      (Tree.directory "a" (.directory "d" (.file "g" () .nil) (.file "f" () .nil))).plan =
        .ok layout ∧
      ((pack (.ofText "/a") layout).run Store.respond
        ((Store.empty.addFile (.ofText "/a/d/g") [3, 4]).addFile (.ofText "/a/f") [1])).outcome =
          .done image ∧
      image.summary = ⟨2, 1, 3, 259⟩ := ⟨_, _, rfl, rfl, rfl⟩
  obtain ⟨layout, image, hplan, himage, hsummary⟩ := hpack
  obtain ⟨⟨loads, records, -, -, -, hcomposed⟩, hsummarized⟩ := pack_composes himage
  exact ⟨layout, image, loads, records, hplan, himage, hcomposed, hsummarized _ _ hplan, hsummary⟩

end Image

end TreeImage
