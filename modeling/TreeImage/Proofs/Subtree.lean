import TreeImage.Proofs.Canonical
import TreeImage.Proofs.Descent
import TreeImage.Proofs.RoundTrip

/-!
# Packing a part of a tree

A directory below the root of a build can be built on its own. What it has is in the image of the
whole as one piece: the records in the same order behind the record of the directory, the contents
behind those of all files before it. In the larger image the offsets are larger by the size of what
stands before, and the rows of the manifest say where the directory is.
-/

namespace TreeImage

/-- The same record, with `distance` more bytes of contents before it. -/
inductive Record.Moved (distance : Nat) : Record → Record → Prop
  | file {offset moved : UInt32} (name : String) (length : UInt32) :
      moved.toNat = offset.toNat + distance →
      Moved distance (.file offset name length) (.file moved name length)
  | directory (children : UInt32) (name : String) (blockCount : UInt32) :
      Moved distance (.directory children name blockCount) (.directory children name blockCount)

/-- The same row, with `count` more rows and `distance` more bytes of contents before it, and `base`
before its path. -/
structure Row.Moved (base : String) (count distance : Nat) (row moved : Row) : Prop where
  index : moved.index = row.index + count
  path : moved.path = base ++ row.path
  kind : moved.kind = row.kind
  offset : moved.offset.map UInt32.toNat = row.offset.map fun offset => offset.toNat + distance
  length : moved.length = row.length
  children : moved.children = row.children

/-- How many bytes of contents the records before `position` have. -/
def Record.sizeBefore (position : Nat) (records : List Record) : Nat :=
  totalSize (records.take position)

/-- Whether the row at `position` is that of a directory with this path. -/
def Manifest.HasDirectory (manifest : Manifest) (position : Nat) (path : String) : Prop :=
  ∃ row, manifest[position]? = some row ∧ row.path = path ∧ row.kind = .directory

/-- `part` is what `image` has below its directory at `position`, whose path is `base`. The two have
the records `records` and `inner`. -/
structure Image.Part (image part : Image) (position : Nat) (base : String)
    (records inner : List Record) : Prop where
  assembled : Bytes.Assembled image.header records image.data image.bytes
  partAssembled : Bytes.Assembled part.header inner part.data part.bytes
  entries : part.manifest.length = inner.length
  directory : records[position]? = some (.directory part.header.rootEntries
    (Entry.directory base part.header.rootEntries).name part.header.rootEntries)
  row : image.manifest[position]? = some (.ofDirectory position base part.header.rootEntries)
  moved : List.Forall₂ (Record.Moved (Record.sizeBefore position records)) inner
    ((records.drop (position + 1)).take inner.length)
  rows : List.Forall₂ (Row.Moved base (position + 1) (Record.sizeBefore position records))
    part.manifest ((image.manifest.drop (position + 1)).take part.manifest.length)
  data : part.data =
    Bytes.slice (Record.sizeBefore position records) part.dataSize.toNat image.data

/-! ## Moving -/

namespace Load

/-- The load with `base` before its path. -/
def under (base : String) (load : Load) : Load :=
  match load.entry with
  | .file path => ⟨.file (base ++ path), load.contents⟩
  | .directory path count => ⟨.directory (base ++ path) count, load.contents⟩

@[simp] theorem contents_under (base : String) (load : Load) :
    (load.under base).contents = load.contents := by
  rcases load with ⟨entry, contents⟩
  cases entry <;> rfl

theorem row_under (base : String) (load : Load) (index count : Nat) {offset distance : Nat}
    (h : offset + distance < UInt32.size) :
    Row.Moved base count distance (load.row index offset)
      ((load.under base).row (index + count) (offset + distance)) := by
  rcases load with ⟨entry, contents⟩
  cases entry with
  | directory path childCount => exact ⟨rfl, rfl, rfl, rfl, rfl, rfl⟩
  | file path =>
    refine ⟨rfl, rfl, rfl, ?_, rfl, rfl⟩
    show some (UInt32.ofNat (offset + distance)).toNat =
      some ((UInt32.ofNat offset).toNat + distance)
    rw [UInt32.toNat_ofNat_of_lt' h, UInt32.toNat_ofNat_of_lt' (by omega)]

theorem rows_under (base : String) (loads : List Load) (index offset count distance : Nat)
    (h : offset + distance + (data loads).length < UInt32.size) :
    List.Forall₂ (Row.Moved base count distance) (rows index offset loads)
      (rows (index + count) (offset + distance) (loads.map (under base))) := by
  induction loads generalizing index offset with
  | nil => exact .nil
  | cons load rest ih =>
    rw [data_cons, List.length_append] at h
    have hrest := ih (index + 1) (offset + load.contents.length) (by omega)
    rw [Nat.add_right_comm, Nat.add_right_comm offset] at hrest
    rw [List.map_cons, rows, rows, contents_under]
    exact .cons (row_under base load index count (by omega)) hrest

theorem contentSize_record (offset : Nat) {load : Load} (h : load.contents.length < UInt32.size)
    (hempty : load.entry.kind = .directory → load.contents = []) :
    (load.record offset).contentSize = load.contents.length := by
  rcases load with ⟨entry, contents⟩
  cases entry with
  | file path => exact UInt32.toNat_ofNat_of_lt' h
  | directory path count =>
    rw [hempty rfl]
    rfl

/-- The records state the size of all contents, as long as it fits in a word. -/
theorem totalSize_records (offset : Nat) {loads : List Load}
    (h : (data loads).length < UInt32.size)
    (hempty : ∀ load ∈ loads, load.entry.kind = .directory → load.contents = []) :
    Record.totalSize (records offset loads) = (data loads).length := by
  induction loads generalizing offset with
  | nil => rfl
  | cons load rest ih =>
    rw [data_cons, List.length_append] at h
    have hfirst := contentSize_record offset (by omega) (hempty load (List.mem_cons_self ..))
    have hrest := ih (offset + load.contents.length) (by omega)
      fun other hother => hempty other (List.mem_cons_of_mem _ hother)
    rw [records, Record.totalSize, hfirst, hrest, data_cons, List.length_append]

end Load

namespace Forest

theorem loads_append (base path : String) (g : Forest Bytes) :
    g.loads (base ++ path) = (g.loads path).map (Load.under base) := by
  induction g generalizing path with
  | nil => rfl
  | file name contents rest ih =>
    rw [loads, loads, List.map_cons, ih, Load.under, String.append_assoc]
  | directory name children rest ihc ih =>
    have hpath : base ++ path ++ name ++ "/" = base ++ (path ++ name ++ "/") := by
      rw [String.append_assoc, String.append_assoc, String.append_assoc]
    rw [loads, loads, hpath, ihc, ih, List.map_cons, List.map_append, Load.under]

theorem contents_eq_nil (g : Forest Bytes) (base : String) :
    ∀ load ∈ g.loads base, load.entry.kind = .directory → load.contents = [] := by
  induction g generalizing base with
  | nil => simp [loads]
  | file name contents rest ih =>
    intro load hload hkind
    rcases List.mem_cons.mp hload with rfl | hload
    · cases hkind
    · exact ih base load hload hkind
  | directory name children rest ihc ih =>
    intro load hload hkind
    rcases List.mem_cons.mp hload with rfl | hload
    · rfl
    · rcases List.mem_append.mp hload with hload | hload
      · exact ihc _ load hload hkind
      · exact ih base load hload hkind

theorem records_moved (g : Forest Bytes) (offset distance : Nat)
    (h : offset + distance + g.data.length < UInt32.size) :
    List.Forall₂ (Record.Moved distance) (g.records offset) (g.records (offset + distance)) := by
  induction g generalizing offset with
  | nil => exact .nil
  | file name contents rest ih =>
    rw [data, List.length_append] at h
    have hrest := ih (offset + contents.length) (by omega)
    rw [Nat.add_right_comm] at hrest
    refine .cons (.file name _ ?_) hrest
    rw [UInt32.toNat_ofNat_of_lt' (by omega), UInt32.toNat_ofNat_of_lt' (by omega)]
  | directory name children rest ihc ih =>
    rw [data, List.length_append] at h
    have hchildren := ihc offset (by omega)
    have hrest := ih (offset + children.data.length) (by omega)
    rw [Nat.add_right_comm] at hrest
    exact .cons (.directory _ name _) (List.rel_append hchildren hrest)

end Forest

/-! ## The part and the whole -/

namespace Image

variable {image part : Image}

/-- A list that stands behind another one and a divider. -/
theorem take_drop_succ {α : Type} (before : List α) (divider : α) (inner after : List α) :
    ((before ++ divider :: (inner ++ after)).drop (before.length + 1)).take inner.length =
      inner := by
  rw [← List.drop_drop, List.drop_left, List.drop_succ_cons, List.drop_zero, List.take_left]

/-- The records, the rows and the data of an image each have a part cut out of them. -/
theorem Part.of_cut {name base : String} {before moved inner after : List Record}
    {front contents rear : Bytes} {rowsBefore rowsMoved rowsAfter : Manifest}
    (hname : name = (Entry.directory base part.header.rootEntries).name)
    (hassembled : Bytes.Assembled image.header
      (before ++ .directory part.header.rootEntries name part.header.rootEntries ::
        (moved ++ after)) (front ++ (contents ++ rear)) image.bytes)
    (hmanifest : image.manifest = rowsBefore ++
      .ofDirectory before.length base part.header.rootEntries :: (rowsMoved ++ rowsAfter))
    (hpart : Bytes.Assembled part.header inner contents part.bytes)
    (hbefore : rowsBefore.length = before.length) (hentries : part.manifest.length = inner.length)
    (hfront : Record.totalSize before = front.length)
    (hmoved : List.Forall₂ (Record.Moved front.length) inner moved)
    (hrows : List.Forall₂ (Row.Moved base (before.length + 1) front.length) part.manifest
      rowsMoved) :
    image.Part part before.length base
      (before ++ .directory part.header.rootEntries name part.header.rootEntries ::
        (moved ++ after)) inner := by
  have hsize : Record.sizeBefore before.length (before ++
      .directory part.header.rootEntries name part.header.rootEntries :: (moved ++ after)) =
      front.length := by
    rw [Record.sizeBefore, List.take_left, hfront]
  constructor
  · rw [data_eq hassembled]
    exact hassembled
  · rw [data_eq hpart]
    exact hpart
  · exact hentries
  · rw [List.getElem?_append_right (Nat.le_refl _), Nat.sub_self, hname]
    rfl
  · rw [hmanifest, ← hbefore, List.getElem?_append_right (Nat.le_refl _), Nat.sub_self]
    rfl
  · rw [hsize, hmoved.length_eq, take_drop_succ]
    exact hmoved
  · rw [hsize, hmanifest, hrows.length_eq, ← hbefore, take_drop_succ, hbefore]
    exact hrows
  · rw [hsize, data_eq hassembled, data_eq hpart, toNat_dataSize hpart, Bytes.slice_append]

/-- An image of the loads below a directory is a part of every image with more loads around them. -/
theorem Packs.exists_part {layout inside : Layout} {before after : List Load}
    {below : Forest Bytes} {root dir : Path} {base : String} (hleads : root.Leads base dir)
    (hnames : ∀ name ∈ below.names, IsName name)
    (h : image.Packs layout (before ++ ⟨.directory base part.header.rootEntries, []⟩ ::
      (below.loads base ++ after)))
    (hempty : ∀ load ∈ before, load.entry.kind = .directory → load.contents = [])
    (hpart : part.Packs inside (below.loads "")) :
    ∃ records inner, image.Part part before.length base records inner := by
  have hmiddle := below.data_loads base
  have hassembled := h.assembled
  have hmanifest := h.manifest
  have hinner := hpart.assembled
  have hdataSize := toNat_dataSize hassembled
  have hdata : (Load.data before).length + below.data.length < UInt32.size := by
    have hword : image.dataSize.toNat < UInt32.size := image.dataSize.toNat_lt
    rw [hdataSize, Load.data_append, Load.data_cons, Load.data_append, hmiddle] at hword
    simp only [List.length_append, List.length_nil] at hword
    omega
  rw [Load.records_append, Load.records, Load.records_append, Nat.zero_add, List.length_nil,
    Nat.add_zero, hmiddle, Forest.records_loads hleads hnames, Load.data_append, Load.data_cons,
    Load.data_append, hmiddle, List.nil_append] at hassembled
  rw [Load.rows_append, Load.rows, Load.rows_append, Nat.zero_add, Nat.zero_add,
    List.length_nil, Nat.add_zero, hmiddle] at hmanifest
  rw [Forest.records_loads (Path.Leads.self dir) hnames, below.data_loads] at hinner
  have hentries : part.manifest.length = (below.records 0).length := by
    rw [hpart.manifest, Load.length_rows, ← Forest.records_loads (Path.Leads.self dir) hnames,
      Load.length_records]
  have hmoved := below.records_moved 0 (Load.data before).length (by omega)
  have hrows := Load.rows_under base (below.loads "") 0 0 (before.length + 1)
    (Load.data before).length (by rw [below.data_loads]; omega)
  rw [Nat.zero_add] at hmoved
  rw [Nat.zero_add, Nat.zero_add, ← Forest.loads_append, String.append_empty,
    ← hpart.manifest] at hrows
  have hcut := Part.of_cut rfl hassembled (by rw [hmanifest, Load.length_records]; rfl) hinner
    (by rw [Load.length_rows, Load.length_records]) hentries
    (Load.totalSize_records 0 (by omega) hempty) hmoved
    (by rw [Load.length_records]; exact hrows)
  rw [Load.length_records] at hcut
  exact ⟨_, _, hcut⟩

end Image

theorem Load.split_of_row {loads : List Load} {index offset position : Nat} {row : Row}
    (h : (rows index offset loads)[position]? = some row) :
    ∃ before load behind, loads = before ++ load :: behind ∧ before.length = position ∧
      row.path = load.entry.path ∧ row.kind = load.entry.kind := by
  induction loads generalizing index offset position with
  | nil => simp [rows] at h
  | cons load rest ih =>
    cases position with
    | zero =>
      rw [rows, List.getElem?_cons_zero, Option.some.injEq] at h
      subst h
      rcases load with ⟨entry, contents⟩
      cases entry <;> exact ⟨[], _, rest, rfl, rfl, rfl, rfl⟩
    | succ position =>
      rw [rows, List.getElem?_cons_succ] at h
      obtain ⟨before, other, behind, rfl, rfl, hrow⟩ := ih h
      exact ⟨load :: before, other, behind, rfl, rfl, hrow⟩

namespace Source

variable {s : Source} {root : Path} {names : List String}

/-- What was built below a directory is a part of what was built around it. -/
theorem Built.exists_part {dir : Path} {base : String} {depth steps : Nat} {image part : Image}
    {g below : Forest Bytes} {before after : List Load} (h : s.Built depth root image g)
    (hpart : s.Built steps dir part below) (hleads : root.Leads base dir)
    (hloads : g.loads "" = before ++ ⟨.directory base (UInt32.ofNat below.length), []⟩ ::
      (below.loads base ++ after)) :
    ∃ records inner, image.Part part before.length base records inner := by
  obtain ⟨layout, hpacks⟩ := h.packs
  obtain ⟨inside, hinside⟩ := hpart.packs
  have hempty : ∀ load ∈ before, load.entry.kind = .directory → load.contents = [] := by
    intro load hload
    apply g.contents_eq_nil ""
    rw [hloads]
    exact List.mem_append_left _ hload
  have hcount : part.header.rootEntries = UInt32.ofNat below.length := by
    rw [← hpart.rootEntries, UInt32.ofNat_toNat]
  rw [hloads, ← hcount] at hpacks
  exact hpacks.exists_part hleads hpart.names hempty hinside

/-- A row of a directory stands where names lead to the directory. -/
theorem Built.exists_leads {depth position : Nat} {image : Image} {g : Forest Bytes}
    {path : String} (h : s.Built depth root image g)
    (hrow : image.manifest.HasDirectory position path) :
    ∃ names below before after, g.Leads names below ∧ path = Entry.base names ∧
      before.length = position ∧
      g.loads "" = before ++ ⟨.directory path (UInt32.ofNat below.length), []⟩ ::
        (below.loads path ++ after) := by
  obtain ⟨layout, hpacks⟩ := h.packs
  obtain ⟨row, hrow, rfl, hkind⟩ := hrow
  rw [hpacks.manifest] at hrow
  obtain ⟨before, ⟨entry, contents⟩, behind, hloads, hposition, hpath, hkind'⟩ :=
    Load.split_of_row hrow
  rw [hkind] at hkind'
  cases entry with
  | file path => cases hkind'
  | directory path count =>
    obtain ⟨names, below, after, -, hleads, hbase, rfl, rfl, rfl⟩ :=
      Forest.exists_leads_of_loads hloads
    rw [String.empty_append] at hbase
    rw [hpath]
    exact ⟨names, below, before, after, hleads, hbase, hposition, hloads⟩

/-- What is below a directory of a build can be built on its own, in any state, with as many steps
less as the directory is deep. -/
theorem Built.exists_below {σ : Type} {respond : (request : Request) → σ → request.Answer × σ}
    (hs : s.Answers respond) (hnames : s.Names IsName root) {depth steps : Nat} {image : Image}
    {g below : Forest Bytes} (h : s.Built depth root image g) (hdescends : s.Descends root names)
    (hleads : g.Leads names below)
    (hdirectory : s.isDirectory (names.foldl Path.join root) = true)
    (hsteps : depth ≤ steps + names.length) (state : σ) :
    ∃ part, ((Image.build steps (names.foldl Path.join root)).run respond state).outcome =
        .done part ∧ s.Built steps (names.foldl Path.join root) part below := by
  have hbears := h.bears.of_leads hleads hdirectory
  have hbelow : ∀ name ∈ below.names, IsName name :=
    fun name hname => h.names name (hleads.names_subset name hname)
  have hheight : below.height < steps := by
    have hwhole := h.height
    have hdeep := hleads.height_add_le
    omega
  rcases hbears.build_ends hs hbelow hheight state with ⟨⟨part, hpart⟩, -⟩ | ⟨-, hnot⟩
  · have hinside : s.Names IsName (names.foldl Path.join root) := fun dir listing hreaches =>
      hnames dir listing ((hdescends.reaches .root).trans hreaches)
    obtain ⟨after, hends⟩ := Session.outcome_eq_done_iff.mp hpart
    obtain ⟨other, hbuilt⟩ := exists_built hs hinside hends
    obtain rfl := hbuilt.bears.holds.unique hbears.holds
    exact ⟨part, hpart, hbuilt⟩
  · exact absurd (hleads.storable h.storable) hnot

/-- A directory that a build went through builds on its own, and its image is a part of the image of
the whole, wherever a row has its path. -/
theorem part_builds_alone {σ : Type} {respond : (request : Request) → σ → request.Answer × σ}
    (hs : s.Answers respond) (hnames : s.Names IsName root) {depth steps : Nat}
    {state state' : σ} {image : Image}
    (h : ((Image.build depth root).run respond state).outcome = .done image)
    (hne : names ≠ []) (hdescends : s.Descends root names)
    (hdirectory : s.isDirectory (names.foldl Path.join root) = true)
    (hsteps : depth ≤ steps + names.length) :
    ∃ part, ((Image.build steps (names.foldl Path.join root)).run respond state').outcome =
        .done part ∧
      (∃ position, image.manifest.HasDirectory position (Entry.base names)) ∧
      ∀ position, image.manifest.HasDirectory position (Entry.base names) →
        ∃ records inner, image.Part part position (Entry.base names) records inner := by
  obtain ⟨after, hends⟩ := Session.outcome_eq_done_iff.mp h
  obtain ⟨g, hbuilt⟩ := exists_built hs hnames hends
  obtain ⟨listing, hlisting, hlists⟩ := hbuilt.bears.holds
  obtain ⟨below, hleads⟩ := hlists.exists_leads hlisting hdescends
  obtain ⟨part, hpart, hbelow⟩ :=
    hbuilt.exists_below hs hnames hdescends hleads hdirectory hsteps state'
  have hway : ∀ name ∈ names, IsName name :=
    fun name hname => hbuilt.names name (hleads.mem_names name hname)
  have hbase : root.Leads (Entry.base names) (names.foldl Path.join root) := by
    simpa using (Path.Leads.self root).foldl hway
  refine ⟨part, hpart, ?_, ?_⟩
  · obtain ⟨before, behind, hloads⟩ := hleads.exists_loads hne ""
    rw [String.empty_append] at hloads
    obtain ⟨records, inner, hcut⟩ := hbuilt.exists_part hbelow hbase hloads
    exact ⟨before.length, _, hcut.row, rfl, rfl⟩
  · intro position hposition
    obtain ⟨others, found, before, behind, hfound, hothers, rfl, hloads⟩ :=
      hbuilt.exists_leads hposition
    -- The path has been cut at its slashes in one way only, so that the names are the given ones,
    -- and a source has one forest at a place.
    obtain rfl := Entry.base_inj hway
      (fun name hname => hbuilt.names name (hfound.mem_names name hname)) hothers
    obtain rfl := (hbuilt.bears.of_leads hfound hdirectory).holds.unique hbelow.bears.holds
    exact hbuilt.exists_part hbelow hbase hloads

/-- A directory with a file and behind it another directory, which has a file in turn. -/
def layered : Source where
  isDirectory path := path = .ofText "/a" ∨ path = .ofText "/a/d"
  entries path :=
    if path = .ofText "/a" then .ok [("f", .file), ("d", .directory)] else .ok [("g", .file)]
  size _ := .ok 2
  contents path := .ok (if path = .ofText "/a/f" then [1, 2] else [3, 4])

theorem layered_part_builds_alone :
    ∃ image, ((Image.build 2 (.ofText "/a")).run layered.respond ()).outcome = .done image ∧
      ∃ part, ((Image.build 1 (["d"].foldl Path.join (.ofText "/a"))).run layered.respond
          ()).outcome = .done part ∧
        (∃ position, image.manifest.HasDirectory position (Entry.base ["d"])) ∧
        ∀ position, image.manifest.HasDirectory position (Entry.base ["d"]) →
          ∃ records inner, image.Part part position (Entry.base ["d"]) records inner := by
  have hbuild : ∃ image,
      ((Image.build 2 (.ofText "/a")).run layered.respond ()).outcome = .done image := ⟨_, rfl⟩
  rcases hbuild with ⟨image, himage⟩
  have hnames : layered.Names IsName (.ofText "/a") := by
    intro dir listing _ hentries entry hentry
    simp only [layered] at hentries
    split at hentries
    · cases hentries
      rcases List.mem_pair.mp hentry with rfl | rfl
      · exact ⟨by decide, by decide⟩
      · exact ⟨by decide, by decide⟩
    · cases hentries
      rw [List.mem_singleton.mp hentry]
      exact ⟨by decide, by decide⟩
  have hdescends : layered.Descends (.ofText "/a") ["d"] := ⟨⟨_, rfl, by simp⟩, trivial⟩
  exact ⟨image, himage, part_builds_alone layered.answers_respond hnames himage (by simp) hdescends
    rfl (by decide)⟩

end Source

end TreeImage
