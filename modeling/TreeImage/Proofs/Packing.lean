import TreeImage.Image
import TreeImage.Proofs.Assembly
import TreeImage.Proofs.Course

/-!
# What is packed

Packing asks for sizes first and for contents afterwards, and refuses contents of another size. So
an image that was packed is described by its entries together with their contents: `Load` is such a
pair, and the records, the rows and the data region are functions of the loads. The surroundings may
answer as they like, and differently each time. Packing has one of a few courses, and only one of
these ends with an image.
-/

namespace TreeImage

/-- Where the contents of an entry are found, if it is a file. -/
def Entry.source? (root : Path) : Entry → Option Path
  | .file path => some (root.append (.ofText path))
  | .directory _ _ => none

/-- The call that finds a file to have this size. -/
def Call.ofSize (file : Path × Nat) : Call := ⟨.size file.1, .ok file.2⟩

/-- The call that finds a file to have these contents. -/
def Call.ofContents (file : Path × Bytes) : Call := ⟨.contents file.1, .ok file.2⟩

/-- A file with the size of its contents. -/
def measure (file : Path × Bytes) : Path × Nat := (file.1, file.2.length)

/-- An entry with its contents. A directory has none. -/
structure Load where
  entry : Entry
  contents : Bytes
  deriving DecidableEq, Repr

namespace Load

/-- The record of a load that has `offset` bytes of contents before it. -/
def record (offset : Nat) (load : Load) : Record :=
  match load.entry with
  | .file _ => .file (UInt32.ofNat offset) load.entry.name (UInt32.ofNat load.contents.length)
  | .directory _ count => .directory count load.entry.name count

def row (index offset : Nat) (load : Load) : Row :=
  match load.entry with
  | .file path =>
    .ofFile index path (UInt32.ofNat offset) (UInt32.ofNat load.contents.length)
  | .directory path count => .ofDirectory index path count

def records : Nat → List Load → List Record
  | _, [] => []
  | offset, load :: rest => load.record offset :: records (offset + load.contents.length) rest

def rows : Nat → Nat → List Load → Manifest
  | _, _, [] => []
  | index, offset, load :: rest =>
    load.row index offset :: rows (index + 1) (offset + load.contents.length) rest

def data (loads : List Load) : Bytes := loads.flatMap Load.contents

/-- A directory has no contents. -/
def Proper (load : Load) : Prop := load.entry.kind = .directory → load.contents = []

/-- The file with its contents, if the load is one. -/
def file? (root : Path) (load : Load) : Option (Path × Bytes) :=
  (load.entry.source? root).map fun source => (source, load.contents)

/-- Whether the contents are what the surroundings answered at some time. -/
def Answered {σ : Type} (respond : (request : Request) → σ → request.Answer × σ) (root : Path)
    (load : Load) : Prop :=
  match load.entry with
  | .file path =>
    ∃ state, (respond (.contents (root.append (.ofText path))) state).1 = .ok load.contents
  | .directory _ _ => load.contents = []

@[simp] theorem length_records (offset : Nat) (loads : List Load) :
    (records offset loads).length = loads.length := by
  induction loads generalizing offset with
  | nil => rfl
  | cons load rest ih => simp [records, ih]

@[simp] theorem data_cons (load : Load) (rest : List Load) :
    data (load :: rest) = load.contents ++ data rest := by
  simp [data]

theorem data_append (loads others : List Load) :
    data (loads ++ others) = data loads ++ data others := by
  simp [data]

theorem records_append (offset : Nat) (loads others : List Load) :
    records offset (loads ++ others) =
      records offset loads ++ records (offset + (data loads).length) others := by
  induction loads generalizing offset with
  | nil => rfl
  | cons load rest ih =>
    rw [List.cons_append, records, ih, records, data_cons, List.length_append, Nat.add_assoc,
      List.cons_append]

@[simp] theorem length_rows (index offset : Nat) (loads : List Load) :
    (rows index offset loads).length = loads.length := by
  induction loads generalizing index offset with
  | nil => rfl
  | cons load rest ih => simp [rows, ih]

theorem rows_append (index offset : Nat) (loads others : List Load) :
    rows index offset (loads ++ others) =
      rows index offset loads ++
        rows (index + loads.length) (offset + (data loads).length) others := by
  induction loads generalizing index offset with
  | nil => rfl
  | cons load rest ih =>
    rw [List.cons_append, rows, ih, rows, data_cons, List.length_append, List.length_cons,
      Nat.add_assoc, Nat.add_assoc, Nat.add_comm 1, List.cons_append]

end Load

section Packing

theorem Entry.check_eq_ok_iff {entry : Entry} :
    entry.check = .ok () ↔ nameDefect? entry.name = none := by
  unfold Entry.check
  split <;> simp_all

theorem Field.fit_eq_ok_iff {field : Field} {path : String} {n : Nat} {w : UInt32} :
    field.fit path n = .ok w ↔ w.toNat = n := by
  rw [← word?_eq_some_iff, fit]
  split <;> simp_all

theorem Field.eq_ofNat_of_fit {field : Field} {path : String} {n : Nat} {w : UInt32}
    (h : field.fit path n = .ok w) : w = UInt32.ofNat n := by
  rw [← Field.fit_eq_ok_iff.mp h, UInt32.ofNat_toNat]

/-- A name that is not refused leaves a byte of its field free. -/
theorem length_utf8_of_nameDefect?_eq_none {name : String} (h : nameDefect? name = none) :
    (Text.utf8 name).length ≤ Record.maxName := by
  unfold nameDefect? at h
  split at h
  · cases h
  · split at h
    · cases h
    · next hlength => exact Nat.le_of_not_lt hlength

theorem ascii_of_nameDefect?_eq_none {name : String} (h : nameDefect? name = none) :
    ∀ c ∈ name.toList, c.toNat < 0x80 := by
  unfold nameDefect? at h
  split at h
  · cases h
  · next hascii => simpa using hascii

/-- The placements are those of the loads, and what was asked for are the sizes and the contents of
the files among these. -/
structure Load.Placed (root : Path) (index offset : Nat) (loads : List Load)
    (placements : List Placement) (sized read : List Call) : Prop where
  names : ∀ load ∈ loads, nameDefect? load.entry.name = none
  proper : ∀ load ∈ loads, load.Proper
  sized : sized = ((loads.filterMap (Load.file? root)).map measure).map Call.ofSize
  read : read = (loads.filterMap (Load.file? root)).map Call.ofContents
  records : placements.map Placement.record = Load.records offset loads
  rows : placements.map Placement.row = Load.rows index offset loads
  dataSize : Placement.dataSize placements = (Load.data loads).length

variable {root : Path} {sized read sized' read' : List Call}

theorem Load.Placed.cons {index offset : Nat} {load : Load} {loads : List Load}
    {placement : Placement} {placements : List Placement}
    (hfirst : Load.Placed root index offset [load] [placement] sized read)
    (hrest : Load.Placed root (index + 1) (offset + placement.length) loads placements sized'
      read') :
    Load.Placed root index offset (load :: loads) (placement :: placements) (sized ++ sized')
      (read ++ read') := by
  have hlength : placement.length = load.contents.length := by
    simpa [Placement.dataSize, Load.data] using hfirst.dataSize
  have hfiles : (load :: loads).filterMap (Load.file? root) =
      [load].filterMap (Load.file? root) ++ loads.filterMap (Load.file? root) :=
    List.filterMap_append (l := [load])
  rw [hlength] at hrest
  constructor
  · exact List.forall_mem_cons.mpr ⟨hfirst.names load (List.mem_singleton_self _), hrest.names⟩
  · exact List.forall_mem_cons.mpr ⟨hfirst.proper load (List.mem_singleton_self _), hrest.proper⟩
  · rw [hfirst.sized, hrest.sized, hfiles, List.map_append, List.map_append]
  · rw [hfirst.read, hrest.read, hfiles, List.map_append]
  · have hrecord := hfirst.records
    simp only [List.map_cons, List.map_nil, Load.records, List.cons.injEq, and_true] at hrecord
    rw [List.map_cons, hrecord, hrest.records, Load.records]
  · have hrow := hfirst.rows
    simp only [List.map_cons, List.map_nil, Load.rows, List.cons.injEq, and_true] at hrow
    rw [List.map_cons, hrow, hrest.rows, Load.rows]
  · rw [Placement.dataSize, hrest.dataSize, hlength, Load.data_cons, List.length_append]

/-- One entry that is placed and then read is the load of what was read. -/
theorem load_of_place {index offset : Nat} {entry : Entry} {placement : Placement}
    {contents : Bytes} (hplace : (entry.place root index offset).Course sized (.done placement))
    (hread : placement.contents.Course read (.done contents)) :
    Load.Placed root index offset [⟨entry, contents⟩] [placement] sized read := by
  rw [Entry.place.eq_def] at hplace
  obtain ⟨⟨⟩, hcheck, hchecked⟩ := Session.Course.of_ofExcept_bind_done hplace
  rw [Entry.check_eq_ok_iff] at hcheck
  cases entry with
  | directory path count =>
    obtain ⟨rfl, rfl⟩ := Session.Course.eq_of_done hchecked
    obtain ⟨rfl, rfl⟩ := Session.Course.eq_of_done hread
    exact ⟨by simpa using hcheck, by simp [Load.Proper], rfl, rfl, rfl, rfl, rfl⟩
  | file path =>
    obtain ⟨answer, later, rfl, hanswer⟩ := Session.Course.of_ask hchecked
    obtain ⟨size, rfl, hsized⟩ := Session.Course.of_ofExcept_bind_done hanswer
    obtain ⟨length, hlength, hbound⟩ := Session.Course.of_ofExcept_bind_done hsized
    obtain ⟨bound, -, hplaced⟩ := Session.Course.of_ofExcept_bind_done hbound
    obtain ⟨rfl, rfl⟩ := Session.Course.eq_of_done hplaced
    obtain ⟨answer, later, rfl, hanswer⟩ := Session.Course.of_ask hread
    obtain ⟨bytes, rfl, hbytes⟩ := Session.Course.of_ofExcept_bind_done hanswer
    split at hbytes
    · next hsize =>
      obtain ⟨rfl, rfl⟩ := Session.Course.eq_of_done hbytes
      have hsame : contents.length = size := hsize
      have hword : length = UInt32.ofNat contents.length := by
        rw [hsame]
        exact Field.eq_ofNat_of_fit hlength
      subst hsame hword
      exact ⟨by simpa using hcheck, by simp [Load.Proper, Entry.kind], rfl, rfl, rfl, rfl,
        by simp [Placement.dataSize, Load.data]⟩
    · cases (Session.Course.of_fail hbytes).2

/-- What is placed and then read agrees with loads of the same entries. -/
theorem exists_loads {index offset : Nat} {entries : List Entry} {placements : List Placement}
    {data : Bytes}
    (hplace : (Entry.placeAll root index offset entries).Course sized (.done placements))
    (hread : (Placement.readAll placements).Course read (.done data)) :
    ∃ loads : List Load, loads.map Load.entry = entries ∧
      Load.Placed root index offset loads placements sized read ∧ data = Load.data loads := by
  -- Sizes and contents are asked for in two walks over the entries. Only both give a load, so that
  -- the walks are taken together, entry by entry.
  induction entries generalizing index offset placements data sized read with
  | nil =>
    obtain ⟨rfl, rfl⟩ := Session.Course.eq_of_done hplace
    obtain ⟨rfl, rfl⟩ := Session.Course.eq_of_done hread
    exact ⟨[], rfl, ⟨by simp, by simp, rfl, rfl, rfl, rfl, rfl⟩, rfl⟩
  | cons entry rest ih =>
    obtain ⟨placement, front, later, hfirst, hnext, rfl⟩ := Session.Course.of_bind_done hplace
    obtain ⟨others, back, last, hrest, hplaced, rfl⟩ :=
      Session.Course.of_bind_done (Session.Course.of_report_bind hnext)
    obtain ⟨rfl, rfl⟩ := Session.Course.eq_of_done hplaced
    obtain ⟨contents, front', later', hcontents, hbehind, rfl⟩ :=
      Session.Course.of_bind_done hread
    obtain ⟨behind, back', last', hothers, hall, rfl⟩ := Session.Course.of_bind_done hbehind
    obtain ⟨rfl, rfl⟩ := Session.Course.eq_of_done hall
    obtain ⟨loads, rfl, hloads, rfl⟩ := ih hrest hothers
    rw [List.append_nil, List.append_nil]
    exact ⟨⟨entry, contents⟩ :: loads, rfl, (load_of_place hfirst hcontents).cons hloads,
      by rw [Load.data_cons]⟩

end Packing

/-- The image of a layout with the given loads. -/
structure Image.Packs (layout : Layout) (loads : List Load) (image : Image) : Prop where
  entries : loads.map Load.entry = layout.entries
  names : ∀ load ∈ loads, nameDefect? load.entry.name = none
  headerSize : image.header.headerSize.toNat = Record.position layout.entries.length
  fileCount : image.header.fileCount.toNat = layout.fileCount
  rootEntries : image.header.rootEntries = layout.rootEntries
  totalSize : image.header.totalSize.toNat =
    Record.position layout.entries.length + (Load.data loads).length
  bytes : image.bytes = image.header.encode ++ (Load.records 0 loads).flatMap Record.encode ++
    Load.data loads
  manifest : image.manifest = Load.rows 0 0 loads

/-! ## The course of packing -/

/-- The layout has these words for the size of its header region and the number of its files. -/
structure Layout.Counted (layout : Layout) (headerSize fileCount : UInt32) : Prop where
  headerSize : Field.headerRegion.fit "" (Record.position layout.entries.length) = .ok headerSize
  fileCount : Field.fileCount.fit "" layout.fileCount = .ok fileCount

/-- How packing goes: the calls for sizes, those for contents, and the end. -/
inductive Image.Course (root : Path) (layout : Layout) :
    List Call → List Call → Outcome Image → Prop
  | headerRegion {failure : Failure} :
      Field.headerRegion.fit "" (Record.position layout.entries.length) = .error failure →
      Course root layout [] [] (.failed failure)
  | fileCount {headerSize : UInt32} {failure : Failure} :
      Field.headerRegion.fit "" (Record.position layout.entries.length) = .ok headerSize →
      Field.fileCount.fit "" layout.fileCount = .error failure →
      Course root layout [] [] (.failed failure)
  | unplaced {headerSize fileCount : UInt32} {sized : List Call} {failure : Failure} :
      layout.Counted headerSize fileCount →
      (Entry.placeAll root 0 0 layout.entries).Course sized (.failed failure) →
      Course root layout sized [] (.failed failure)
  | placing {sized : List Call} :
      (Entry.placeAll root 0 0 layout.entries).Course sized .unfinished →
      Course root layout sized [] .unfinished
  | totalSize {headerSize fileCount : UInt32} {placements : List Placement} {sized : List Call}
      {failure : Failure} : layout.Counted headerSize fileCount →
      (Entry.placeAll root 0 0 layout.entries).Course sized (.done placements) →
      Field.totalSize.fit "" (headerSize.toNat + Placement.dataSize placements) = .error failure →
      Course root layout sized [] (.failed failure)
  | unread {headerSize fileCount totalSize : UInt32} {placements : List Placement}
      {sized read : List Call} {failure : Failure} : layout.Counted headerSize fileCount →
      (Entry.placeAll root 0 0 layout.entries).Course sized (.done placements) →
      Field.totalSize.fit "" (headerSize.toNat + Placement.dataSize placements) = .ok totalSize →
      (Placement.readAll placements).Course read (.failed failure) →
      Course root layout sized read (.failed failure)
  | reading {placements : List Placement} {sized read : List Call} :
      (Placement.readAll placements).Course read .unfinished →
      Course root layout sized read .unfinished
  | done {headerSize fileCount totalSize : UInt32} {placements : List Placement}
      {sized read : List Call} {data : Bytes} : layout.Counted headerSize fileCount →
      (Entry.placeAll root 0 0 layout.entries).Course sized (.done placements) →
      Field.totalSize.fit "" (headerSize.toNat + Placement.dataSize placements) = .ok totalSize →
      (Placement.readAll placements).Course read (.done data) →
      Course root layout sized read (.done
        ⟨Header.encode ⟨totalSize, fileCount, headerSize, layout.rootEntries⟩ ++
            placements.flatMap (·.record.encode) ++ data,
          ⟨totalSize, fileCount, headerSize, layout.rootEntries⟩, placements.map Placement.row⟩)

theorem Image.course_of_pack {root : Path} {layout : Layout} {calls : List Call}
    {outcome : Outcome Image} (h : (Image.pack root layout).Course calls outcome) :
    ∃ sized read, calls = sized ++ read ∧ Image.Course root layout sized read outcome := by
  rcases Session.Course.of_ofExcept_bind h with ⟨headerSize, hregion, hnext⟩ |
    ⟨failure, hregion, rfl, rfl⟩
  · rcases Session.Course.of_ofExcept_bind hnext with ⟨fileCount, hcount, hcounted⟩ |
      ⟨failure, hcount, rfl, rfl⟩
    · have hwords : layout.Counted headerSize fileCount := ⟨hregion, hcount⟩
      rcases Session.Course.of_bind hcounted with
        ⟨placements, sized, later, hplace, hplaced, rfl⟩ | ⟨failure, hplace, rfl⟩ | ⟨hplace, rfl⟩
      · rcases Session.Course.of_ofExcept_bind hplaced with ⟨totalSize, htotal, hsized⟩ |
          ⟨failure, htotal, rfl, rfl⟩
        · obtain ⟨first, hread, rfl⟩ := Session.Course.of_map hsized
          refine ⟨sized, later, rfl, ?_⟩
          cases first with
          | done data => exact .done hwords hplace htotal hread
          | failed failure => exact .unread hwords hplace htotal hread
          | unfinished => exact .reading hread
        · exact ⟨sized, [], rfl, .totalSize hwords hplace htotal⟩
      · exact ⟨calls, [], (List.append_nil _).symm, .unplaced hwords hplace⟩
      · exact ⟨calls, [], (List.append_nil _).symm, .placing hplace⟩
    · exact ⟨[], [], rfl, .fileCount hregion hcount⟩
  · exact ⟨[], [], rfl, .headerRegion hregion⟩

/-- An image that comes of packing is that of its layout and of the contents that were answered. The
sizes of all files were asked for before. -/
theorem Image.packs_of_course {root : Path} {layout : Layout} {image : Image} {calls : List Call}
    (h : (Image.pack root layout).Course calls (.done image)) :
    ∃ loads, image.Packs layout loads ∧ (∀ load ∈ loads, load.Proper) ∧
      calls = ((loads.filterMap (Load.file? root)).map measure).map Call.ofSize ++
        (loads.filterMap (Load.file? root)).map Call.ofContents := by
  obtain ⟨sized, read, rfl, hcourse⟩ := course_of_pack h
  cases hcourse with
  | @done headerSize fileCount totalSize placements _ _ data hwords hplace htotal hread =>
    obtain ⟨loads, hentries, hloads, rfl⟩ := exists_loads hplace hread
    have hheader := Field.fit_eq_ok_iff.mp hwords.headerSize
    have hcount := Field.fit_eq_ok_iff.mp hwords.fileCount
    rw [Field.fit_eq_ok_iff] at htotal
    refine ⟨loads, ⟨hentries, hloads.names, hheader, hcount, rfl, ?_, ?_, hloads.rows⟩,
      hloads.proper, by rw [hloads.sized, hloads.read]⟩
    · rw [htotal, hheader, hloads.dataSize]
    · rw [← hloads.records, List.flatMap_map]

/-- Whatever the surroundings answer, what was packed was answered. -/
theorem Image.packs_of_ends {σ : Type} {respond : (request : Request) → σ → request.Answer × σ}
    {root : Path} {layout : Layout} {image : Image} {before after : σ}
    (h : (Image.pack root layout).Ends respond before image after) :
    ∃ loads, image.Packs layout loads ∧ ∀ load ∈ loads, load.Answered respond root := by
  have hcourse := (Image.pack root layout).course_run respond before
  have hanswers := (Image.pack root layout).exists_answer_eq respond before
  rw [h.1] at hcourse
  obtain ⟨loads, hpacks, hproper, hcalls⟩ := packs_of_course hcourse
  refine ⟨loads, hpacks, fun load hload => ?_⟩
  rcases load with ⟨entry, contents⟩
  cases entry with
  | directory path count => exact hproper _ hload rfl
  | file path =>
    apply hanswers (Call.ofContents (root.append (.ofText path), contents))
    rw [hcalls]
    apply List.mem_append_right
    apply List.mem_map_of_mem
    exact List.mem_filterMap.mpr ⟨_, hload, rfl⟩

/-! ## The records of loads -/

namespace Load

theorem isFile_record (offset : Nat) (load : Load) :
    (load.record offset).isFile = decide (load.entry.kind = .file) := by
  rcases load with ⟨entry, contents⟩
  cases entry <;> rfl

theorem name_record (offset : Nat) (load : Load) : (load.record offset).name = load.entry.name := by
  rcases load with ⟨entry, contents⟩
  cases entry <;> rfl

theorem countP_records (offset : Nat) (loads : List Load) :
    (records offset loads).countP Record.isFile =
      (loads.map Load.entry).countP (·.kind = .file) := by
  induction loads generalizing offset with
  | nil => rfl
  | cons load rest ih => simp only [records, List.map_cons, List.countP_cons, isFile_record, ih]

theorem fits_of_mem_records {offset : Nat} {loads : List Load}
    (hnames : ∀ load ∈ loads, nameDefect? load.entry.name = none) :
    ∀ r ∈ records offset loads, r.Fits := by
  induction loads generalizing offset with
  | nil => simp [records]
  | cons load rest ih =>
    intro r hr
    rcases List.mem_cons.mp hr with rfl | hr
    · have hname := hnames load (List.mem_cons_self ..)
      have hlength := length_utf8_of_nameDefect?_eq_none hname
      rw [Record.Fits, name_record]
      exact Nat.le_succ_of_le hlength
    · exact ih (fun load hload => hnames load (List.mem_cons_of_mem _ hload)) r hr

/-- A word never states more than the number that it was made of, so that no extent ends behind the
data. -/
theorem within_of_mem_records {offset dataSize : Nat} {loads : List Load}
    (h : offset + (data loads).length ≤ dataSize) :
    ∀ r ∈ records offset loads, r.Within dataSize := by
  induction loads generalizing offset with
  | nil => simp [records]
  | cons load rest ih =>
    rw [data_cons, List.length_append] at h
    intro r hr
    rcases List.mem_cons.mp hr with rfl | hr
    · rcases load with ⟨entry, contents⟩
      cases entry with
      | directory path count => trivial
      | file path =>
        have hoffset := Nat.mod_le offset UInt32.size
        have hlength := Nat.mod_le contents.length UInt32.size
        show (UInt32.ofNat offset).toNat + (UInt32.ofNat contents.length).toNat ≤ dataSize
        rw [UInt32.toNat_ofNat', UInt32.toNat_ofNat']
        dsimp only at h
        omega
    · exact ih (by omega) r hr

theorem within_data (loads : List Load) : ∀ r ∈ records 0 loads, r.Within (data loads).length := by
  apply within_of_mem_records
  omega

end Load

namespace Image

/-- What stands behind the header region. -/
def data (image : Image) : Bytes := image.bytes.drop image.header.headerSize.toNat

variable {image : Image} {records : List Record} {data : Bytes}

theorem data_eq (h : Bytes.Assembled image.header records data image.bytes) :
    image.data = data := by
  rw [Image.data, h.headerSize, ← h.region, h.drop_region]

theorem toNat_dataSize (h : Bytes.Assembled image.header records data image.bytes) :
    image.dataSize.toNat = data.length := by
  have htotal := h.totalSize
  rw [← h.headerSize] at htotal
  have hle : image.header.headerSize ≤ image.header.totalSize := by
    rw [UInt32.le_iff_toNat_le]
    omega
  rw [dataSize, UInt32.toNat_sub_of_le _ _ hle]
  omega

end Image

namespace Image.Packs

variable {layout : Layout} {loads : List Load} {image : Image}

/-- What was packed is a header, records and data that agree. -/
theorem assembled (h : image.Packs layout loads) :
    Bytes.Assembled image.header (Load.records 0 loads) (Load.data loads) image.bytes := by
  have hlength : layout.entries.length = (Load.records 0 loads).length := by
    rw [← h.entries, List.length_map, Load.length_records]
  exact {
    fits := Load.fits_of_mem_records h.names
    headerSize := by rw [h.headerSize, hlength]
    totalSize := by rw [h.totalSize, hlength]
    bytes := h.bytes }

end Image.Packs

end TreeImage
