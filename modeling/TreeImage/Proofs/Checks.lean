import TreeImage.Proofs.Storable
import Mathlib.Algebra.GroupWithZero.Nat

/-!
# The first check that fails

Packing makes its checks in a fixed order. Where the answers of a source do not change, all that the
checks look at is known beforehand: `Source.checks` lists what each of them finds, without regard to
how packing goes on behind the others. Packing comes to an image just if none of them finds
anything, which is just if everything fits and agrees, and else it fails with the first finding.
-/

namespace TreeImage

namespace Failure

/-- The failure that an answer or a check came to, if it is one. -/
def of? {α : Type} : Except Failure α → Option Failure
  | .ok _ => none
  | .error failure => some failure

/-- What a check finds that has this failure. -/
def ifNot (failure : Failure) (passed : Prop) [Decidable passed] : Option Failure :=
  if passed then none else some failure

/-- What the first of the checks finds that finds anything. -/
def first? (findings : List (Option Failure)) : Option Failure := findings.findSome? id

@[simp] theorem of?_ok {α : Type} (a : α) : of? (.ok a) = none := rfl

@[simp] theorem of?_error {α : Type} (failure : Failure) :
    of? (.error failure : Except Failure α) = some failure := rfl

theorem of?_eq_none_iff {α : Type} {x : Except Failure α} : of? x = none ↔ ∃ a, x = .ok a := by
  cases x <;> simp

@[simp] theorem ifNot_eq_none_iff {failure : Failure} {passed : Prop} [Decidable passed] :
    failure.ifNot passed = none ↔ passed := by
  unfold ifNot
  split <;> simp_all

@[simp] theorem first?_nil : first? [] = none := rfl

@[simp] theorem first?_cons (finding : Option Failure) (rest : List (Option Failure)) :
    first? (finding :: rest) = finding.or (first? rest) := by
  cases finding <;> rfl

@[simp] theorem first?_append (findings others : List (Option Failure)) :
    first? (findings ++ others) = (first? findings).or (first? others) := List.findSome?_append

theorem first?_map_eq_none_iff {α : Type} {check : α → Option Failure} {items : List α} :
    first? (items.map check) = none ↔ ∀ item ∈ items, check item = none := by
  rw [first?, List.findSome?_eq_none_iff, List.forall_mem_map]
  rfl

end Failure

theorem Field.ifNot_overflow (field : Field) (path : String) (n : Nat) :
    (Failure.overflow field path).ifNot (n < UInt32.size) = Failure.of? (field.fit path n) := by
  unfold Failure.ifNot Field.fit word?
  split <;> rfl

/-! ## The checks of packing -/

/-- A record takes the name: all characters have 7 bits, and there are at most 63 of them. -/
structure Record.Takes (name : String) : Prop where
  ascii : ∀ c ∈ name.toList, c.toNat < 128
  length : (Text.utf8 name).length ≤ 63

namespace Entry

/-- A name is checked for its characters first. -/
def nameChecks (entry : Entry) : List (Option Failure) :=
  [(Failure.nameNotAscii entry.path).ifNot (entry.name.toList.all (·.toNat < 128)),
    (Failure.nameTooLong entry.path (Text.utf8 entry.name).length).ifNot
      ((Text.utf8 entry.name).length ≤ 63)]

theorem first?_nameChecks_eq_none_iff {entry : Entry} :
    Failure.first? entry.nameChecks = none ↔ Record.Takes entry.name := by
  simp only [nameChecks, Failure.first?_cons, Failure.first?_nil, Option.or_eq_none_iff,
    Failure.ifNot_eq_none_iff, List.all_eq_true, decide_eq_true_eq, and_true]
  exact ⟨fun h => ⟨h.1, h.2⟩, fun h => ⟨h.ascii, h.length⟩⟩

/-- These are the checks that are made of a name. -/
theorem first?_nameChecks (entry : Entry) :
    Failure.first? entry.nameChecks = Failure.of? entry.check := by
  have hmax : Record.maxName = 63 := rfl
  unfold nameChecks check nameDefect? Failure.ifNot
  rw [hmax]
  by_cases hascii : entry.name.toList.all (·.toNat < 128) = true
  · by_cases hlength : (Text.utf8 entry.name).length ≤ 63
    · rw [if_pos hascii, if_pos hlength, if_neg (not_not_intro hascii),
        if_neg (Nat.not_lt.mpr hlength)]
      rfl
    · rw [if_pos hascii, if_neg hlength, if_neg (not_not_intro hascii),
        if_pos (Nat.lt_of_not_le hlength)]
      rfl
  · rw [if_neg hascii, if_pos hascii]
    rfl

theorem takes_of_nameDefect? {entry : Entry} (h : nameDefect? entry.name = none) :
    Record.Takes entry.name := by
  rw [← first?_nameChecks_eq_none_iff, first?_nameChecks,
    check_eq_ok_iff.mpr h, Failure.of?_ok]

theorem mem_filterMap_source? {root path : Path} {entries : List Entry} :
    path ∈ entries.filterMap (source? root) ↔
      ∃ text, .file text ∈ entries ∧ path = root.append (.ofText text) := by
  rw [List.mem_filterMap]
  constructor
  · intro hentry
    obtain ⟨entry, hmem, hsource⟩ := hentry
    cases entry with
    | directory text count => cases hsource
    | file text =>
      cases hsource
      exact ⟨text, hmem, rfl⟩
  · intro htext
    obtain ⟨text, hmem, rfl⟩ := htext
    exact ⟨.file text, hmem, rfl⟩

end Entry

namespace Source

/-- The size that is reported for a file, nothing if there is none. -/
def sizeAt (s : Source) (path : Path) : Nat := (s.size path).toOption.getD 0

/-- The size of what an entry has in the data region. -/
def reported (s : Source) (root : Path) (entry : Entry) : Nat :=
  (entry.source? root).elim 0 s.sizeAt

/-- The checks of the size of a file that has `offset` bytes of contents before it. -/
def sizeChecks (s : Source) (root : Path) (offset : Nat) : Entry → List (Option Failure)
  | .directory _ _ => []
  | .file path =>
    [Failure.of? (s.size (root.append (.ofText path))),
      (Failure.overflow .fileLength path).ifNot
        (s.sizeAt (root.append (.ofText path)) < UInt32.size),
      (Failure.overflow .dataOffset path).ifNot
        (offset + s.sizeAt (root.append (.ofText path)) < UInt32.size)]

def entryChecks (s : Source) (root : Path) (offset : Nat) (entry : Entry) :
    List (Option Failure) := entry.nameChecks ++ s.sizeChecks root offset entry

def entriesChecks (s : Source) (root : Path) : Nat → List Entry → List (Option Failure)
  | _, [] => []
  | offset, entry :: rest =>
    s.entryChecks root offset entry ++ s.entriesChecks root (offset + s.reported root entry) rest

/-- A file is read, and its contents are as long as was reported. -/
def readCheck (s : Source) (path : Path) : Option Failure :=
  match s.contents path with
  | .error failure => some failure
  | .ok bytes =>
    (Failure.io path ⟨.invalidData, "file changed size during build", []⟩).ifNot
      (bytes.length = s.sizeAt path)

/-- All checks of packing in their order. -/
def checks (s : Source) (root : Path) (layout : Layout) : List (Option Failure) :=
  [(Failure.overflow .headerRegion "").ifNot
      (Record.position layout.entries.length < UInt32.size),
    (Failure.overflow .fileCount "").ifNot (layout.fileCount < UInt32.size)] ++
  s.entriesChecks root 0 layout.entries ++
  [(Failure.overflow .totalSize "").ifNot (Record.position layout.entries.length +
      (layout.entries.map (s.reported root)).sum < UInt32.size)] ++
  (layout.entries.filterMap (Entry.source? root)).map s.readCheck

/-- Everything that an image of the layout needs: it fits, and the source gives what it reports. -/
structure Accepts (s : Source) (root : Path) (layout : Layout) : Prop where
  headerRegion : Record.position layout.entries.length < UInt32.size
  fileCount : layout.fileCount < UInt32.size
  names : ∀ entry ∈ layout.entries, Record.Takes entry.name
  sizes : ∀ path, .file path ∈ layout.entries →
    ∃ size, s.size (root.append (.ofText path)) = .ok size
  totalSize : Record.position layout.entries.length +
    (layout.entries.map (s.reported root)).sum < UInt32.size
  contents : ∀ path, .file path ∈ layout.entries → ∃ bytes,
    s.contents (root.append (.ofText path)) = .ok bytes ∧
      s.size (root.append (.ofText path)) = .ok bytes.length

variable {s : Source} {root : Path} {layout : Layout} {entries : List Entry} {offset : Nat}

/-! ## Where nothing is found -/

theorem first?_entryChecks_eq_none_iff (hoffset : offset < UInt32.size) {entry : Entry} :
    Failure.first? (s.entryChecks root offset entry) = none ↔
      Record.Takes entry.name ∧
      (∀ path, entry = .file path → ∃ size, s.size (root.append (.ofText path)) = .ok size) ∧
      offset + s.reported root entry < UInt32.size := by
  unfold entryChecks reported
  rw [Failure.first?_append, Option.or_eq_none_iff, Entry.first?_nameChecks_eq_none_iff]
  cases entry with
  | directory path count => simp [sizeChecks, Entry.source?, hoffset]
  | file path =>
    -- A size that fits behind `offset` bytes fits in a word.
    have hlength : offset + s.sizeAt (root.append (.ofText path)) < UInt32.size →
        s.sizeAt (root.append (.ofText path)) < UInt32.size := by omega
    simp [sizeChecks, Entry.source?, Failure.of?_eq_none_iff, and_iff_right_of_imp hlength]

theorem first?_entriesChecks_eq_none_iff (hoffset : offset < UInt32.size) :
    Failure.first? (s.entriesChecks root offset entries) = none ↔
      (∀ entry ∈ entries, Record.Takes entry.name) ∧
      (∀ path, .file path ∈ entries → ∃ size, s.size (root.append (.ofText path)) = .ok size) ∧
      offset + (entries.map (s.reported root)).sum < UInt32.size := by
  induction entries generalizing offset with
  | nil => simpa [entriesChecks] using hoffset
  | cons entry rest ih =>
    rw [entriesChecks, Failure.first?_append, Option.or_eq_none_iff,
      first?_entryChecks_eq_none_iff hoffset, List.map_cons, List.sum_cons, ← Nat.add_assoc]
    constructor
    · intro hnone
      obtain ⟨⟨hname, hsize, hfits⟩, hrest⟩ := hnone
      obtain ⟨hnames, hsizes, hsum⟩ := (ih hfits).mp hrest
      refine ⟨List.forall_mem_cons.mpr ⟨hname, hnames⟩, fun path hpath => ?_, hsum⟩
      rcases List.mem_cons.mp hpath with heq | hpath
      · exact hsize path heq.symm
      · exact hsizes path hpath
    · intro hall
      obtain ⟨hnames, hsizes, hsum⟩ := hall
      have hfits : offset + s.reported root entry < UInt32.size := by omega
      rw [List.forall_mem_cons] at hnames
      refine ⟨⟨hnames.1, fun path heq => hsizes path (heq ▸ List.mem_cons_self ..), hfits⟩, ?_⟩
      exact (ih hfits).mpr
        ⟨hnames.2, fun path hpath => hsizes path (List.mem_cons_of_mem _ hpath), hsum⟩

theorem entriesChecks_append (offset : Nat) (entries others : List Entry) :
    s.entriesChecks root offset (entries ++ others) = s.entriesChecks root offset entries ++
      s.entriesChecks root (offset + (entries.map (s.reported root)).sum) others := by
  induction entries generalizing offset with
  | nil => rfl
  | cons entry rest ih =>
    rw [List.cons_append, entriesChecks, ih, entriesChecks, List.append_assoc, List.map_cons,
      List.sum_cons, Nat.add_assoc]

theorem readCheck_eq_none_iff {path : Path} :
    s.readCheck path = none ↔
      ∃ bytes, s.contents path = .ok bytes ∧ bytes.length = s.sizeAt path := by
  unfold readCheck
  cases s.contents path with
  | error failure => simp
  | ok bytes => simp

theorem sizeAt_eq {path : Path} {size : Nat} (h : s.size path = .ok size) :
    s.sizeAt path = size := by
  rw [sizeAt, h]
  rfl

theorem first?_checks :
    Failure.first? (s.checks root layout) =
      (Failure.of? (Field.headerRegion.fit "" (Record.position layout.entries.length))).or
        ((Failure.of? (Field.fileCount.fit "" layout.fileCount)).or
          ((Failure.first? (s.entriesChecks root 0 layout.entries)).or
            ((Failure.of? (Field.totalSize.fit "" (Record.position layout.entries.length +
              (layout.entries.map (s.reported root)).sum))).or
              (Failure.first?
                ((layout.entries.filterMap (Entry.source? root)).map s.readCheck))))) := by
  simp [checks, Field.ifNot_overflow]

/-- Nothing is found just if everything fits and agrees. -/
theorem accepts_iff : s.Accepts root layout ↔ Failure.first? (s.checks root layout) = none := by
  have hzero : 0 < UInt32.size := by decide
  simp only [first?_checks, Option.or_eq_none_iff, ← Field.ifNot_overflow,
    Failure.ifNot_eq_none_iff, first?_entriesChecks_eq_none_iff hzero,
    Failure.first?_map_eq_none_iff, readCheck_eq_none_iff]
  constructor
  · intro h
    refine ⟨h.headerRegion, h.fileCount, ⟨h.names, h.sizes, ?_⟩, h.totalSize, fun path hpath => ?_⟩
    · have htotal := h.totalSize
      omega
    · obtain ⟨text, hmem, rfl⟩ := Entry.mem_filterMap_source?.mp hpath
      obtain ⟨bytes, hbytes, hsize⟩ := h.contents text hmem
      exact ⟨bytes, hbytes, (sizeAt_eq hsize).symm⟩
  · intro hnone
    obtain ⟨hregion, hcount, ⟨hnames, hsizes, -⟩, htotal, hreads⟩ := hnone
    refine ⟨hregion, hcount, hnames, hsizes, htotal, fun text hmem => ?_⟩
    obtain ⟨bytes, hbytes, hlength⟩ := hreads _ (Entry.mem_filterMap_source?.mpr ⟨text, hmem, rfl⟩)
    obtain ⟨size, hsize⟩ := hsizes text hmem
    rw [sizeAt_eq hsize] at hlength
    exact ⟨bytes, hbytes, hlength ▸ hsize⟩

/-! ## What packing finds -/

variable {calls : List Call} {files : List (Path × Nat)}

/-- The sizes that are obtained are those that are reported. -/
theorem eq_map_sizeAt (hsized : Entry.Sized root entries files)
    (hgives : ∀ call ∈ files.map Call.ofSize, s.Gives call) :
    files = (entries.filterMap (Entry.source? root)).map fun path => (path, s.sizeAt path) := by
  rw [← hsized.sources, List.map_map]
  calc
    files = files.map id := (List.map_id files).symm
    _ = files.map ((fun path => (path, s.sizeAt path)) ∘ Prod.fst) := by
      apply List.map_congr_left
      intro file hfile
      have hsize : s.size file.1 = .ok file.2 := hgives _ (List.mem_map_of_mem hfile)
      exact Prod.ext rfl (sizeAt_eq hsize).symm

theorem sum_reported (entries : List Entry) :
    totalSize ((entries.filterMap (Entry.source? root)).map fun path => (path, s.sizeAt path)) =
      (entries.map (s.reported root)).sum := by
  induction entries with
  | nil => rfl
  | cons entry rest ih =>
    cases entry with
    | directory path count => simpa [List.filterMap_cons, Entry.source?, reported] using ih
    | file path => simp [Entry.source?, reported, totalSize, ih]

theorem first?_of_sized (hsized : Entry.Sized root entries files)
    (hgives : ∀ call ∈ files.map Call.ofSize, s.Gives call)
    (hfits : offset + totalSize files < UInt32.size) :
    Failure.first? (s.entriesChecks root offset entries) = none := by
  have hoffset : offset < UInt32.size := by omega
  have hfiles := eq_map_sizeAt hsized hgives
  rw [first?_entriesChecks_eq_none_iff hoffset, ← sum_reported, ← hfiles]
  refine ⟨fun entry hentry => Entry.takes_of_nameDefect? (hsized.names entry hentry),
    fun path hpath => ?_, hfits⟩
  have hmem : root.append (.ofText path) ∈ files.map Prod.fst := by
    rw [hsized.sources]
    exact Entry.mem_filterMap_source?.mpr ⟨path, hpath, rfl⟩
  obtain ⟨file, hfile, heq⟩ := List.mem_map.mp hmem
  rw [← heq]
  exact ⟨file.2, hgives _ (List.mem_map_of_mem hfile)⟩

theorem first?_of_refused {entry : Entry} {failure : Failure}
    (h : entry.Refused root offset calls failure) (hgives : ∀ call ∈ calls, s.Gives call) :
    Failure.first? (s.entryChecks root offset entry) = some failure := by
  unfold entryChecks
  rw [Failure.first?_append, Entry.first?_nameChecks]
  cases h with
  | name hcheck => rw [hcheck, Failure.of?_error, Option.some_or]
  | @size path _ hname =>
    have hsize : s.size (root.append (.ofText path)) = .error failure :=
      hgives _ (List.mem_cons_self ..)
    rw [Entry.check_eq_ok_iff.mpr hname, sizeChecks, hsize]
    rfl
  | @length path size hname hlarge =>
    have hsize : s.size (root.append (.ofText path)) = .ok size := hgives _ (List.mem_cons_self ..)
    rw [Entry.check_eq_ok_iff.mpr hname, sizeChecks, hsize, sizeAt_eq hsize]
    simp [Failure.ifNot, Nat.not_lt.mpr hlarge]
  | @offset path size hname hsmall hlarge =>
    have hsize : s.size (root.append (.ofText path)) = .ok size := hgives _ (List.mem_cons_self ..)
    rw [Entry.check_eq_ok_iff.mpr hname, sizeChecks, hsize, sizeAt_eq hsize]
    simp [Failure.ifNot, hsmall, Nat.not_lt.mpr hlarge]

/-- The entries are placed until the first finding. -/
theorem first?_of_placed {outcome : Outcome (List Placement)}
    (h : Entry.Placed root offset entries calls outcome) (hgives : ∀ call ∈ calls, s.Gives call) :
    Failure.first? (s.entriesChecks root offset entries) = outcome.failure? := by
  cases h with
  | done _ hsized hfits _ => exact first?_of_sized hsized hgives hfits
  | @failed passed rest entry files last failure hentries hsized hfits hrefused =>
    have hpassed : ∀ call ∈ files.map Call.ofSize, s.Gives call :=
      fun call hcall => hgives call (List.mem_append_left _ hcall)
    have hlast := fun call hcall => hgives call (List.mem_append_right _ hcall)
    rw [hentries, entriesChecks_append, Failure.first?_append, first?_of_sized hsized hpassed hfits,
      ← sum_reported, ← eq_map_sizeAt hsized hpassed, entriesChecks, Failure.first?_append,
      first?_of_refused hrefused hlast]
    rfl

theorem readCheck_of_unread {file : Path × Nat} {call : Call} {failure : Failure}
    (h : Unread file call failure) (hgives : s.Gives call) (hsize : file.2 = s.sizeAt file.1) :
    s.readCheck file.1 = some failure := by
  cases h with
  | failed =>
    have hcontents : s.contents file.1 = .error failure := hgives
    rw [readCheck, hcontents]
  | @resized bytes hlength =>
    have hcontents : s.contents file.1 = .ok bytes := hgives
    rw [hsize] at hlength
    rw [readCheck, hcontents]
    simp [Failure.ifNot, hlength]

theorem first?_of_contents {contents : List (Path × Bytes)}
    (hsizes : ∀ file ∈ contents.map measure, file.2 = s.sizeAt file.1)
    (hgives : ∀ call ∈ contents.map Call.ofContents, s.Gives call) :
    Failure.first? ((contents.map measure).map fun file => s.readCheck file.1) = none := by
  rw [Failure.first?_map_eq_none_iff, List.forall_mem_map]
  intro file hfile
  have hcontents : s.contents file.1 = .ok file.2 := hgives _ (List.mem_map_of_mem hfile)
  exact readCheck_eq_none_iff.mpr ⟨file.2, hcontents, hsizes _ (List.mem_map_of_mem hfile)⟩

/-- The files are read until the first finding. -/
theorem first?_of_readIn {outcome : Outcome Bytes} (h : ReadIn files calls outcome)
    (hsizes : ∀ file ∈ files, file.2 = s.sizeAt file.1)
    (hgives : ∀ call ∈ calls, s.Gives call) :
    Failure.first? (files.map fun file => s.readCheck file.1) = outcome.failure? := by
  cases h with
  | done hmeasure =>
    subst hmeasure
    exact first?_of_contents hsizes hgives
  | @failed contents file rest call failure hmeasure hunread =>
    subst hmeasure
    rw [List.forall_mem_append, List.forall_mem_cons] at hsizes
    rw [List.forall_mem_append, List.forall_mem_singleton] at hgives
    rw [List.map_append, Failure.first?_append, first?_of_contents hsizes.1 hgives.1,
      Option.none_or, List.map_cons, readCheck_of_unread hunread hgives.2 hsizes.2.1]
    rfl

/-- What is found behind entries that were all placed. -/
theorem first?_checks_of_placed {headerSize fileCount : UInt32} {placements : List Placement}
    (hwords : layout.Counted headerSize fileCount)
    (hplaced : Entry.Placed root 0 layout.entries calls (.done placements))
    (hgives : ∀ call ∈ calls, s.Gives call) :
    Failure.first? (s.checks root layout) =
      (Failure.of? (Field.totalSize.fit "" (headerSize.toNat + Placement.dataSize placements))).or
        (Failure.first? ((placements.filterMap Placement.file?).map fun file =>
          s.readCheck file.1)) := by
  have hentries : Failure.first? (s.entriesChecks root 0 layout.entries) = none :=
    first?_of_placed hplaced hgives
  rw [first?_checks, hwords.headerSize, hwords.fileCount, hentries, Failure.of?_ok,
    Failure.of?_ok, Option.none_or, Option.none_or, Option.none_or]
  cases hplaced with
  | done hfiles hsized hfits hdata =>
    have hreported := eq_map_sizeAt hsized hgives
    rw [Field.fit_eq_ok_iff.mp hwords.headerSize, hfiles, hdata, hreported, sum_reported,
      List.map_map]
    rfl

/-- The end of packing is the first finding, if there is one. -/
theorem first?_of_pack {outcome : Outcome Image} (h : (Image.pack root layout).Course calls outcome)
    (hgives : ∀ call ∈ calls, s.Gives call) :
    Failure.first? (s.checks root layout) = outcome.failure? ∧ outcome ≠ .unfinished := by
  obtain ⟨sized, read, rfl, hcourse⟩ := Image.course_of_pack h
  rw [List.forall_mem_append] at hgives
  have hzero : 0 < UInt32.size := by decide
  have hsizes : ∀ {placements : List Placement},
      Entry.Placed root 0 layout.entries sized (.done placements) →
        ∀ file ∈ placements.filterMap Placement.file?, file.2 = s.sizeAt file.1 := by
    intro placements hplaced
    cases hplaced with
    | done hfiles hsized _ _ =>
      rw [hfiles, eq_map_sizeAt hsized hgives.1, List.forall_mem_map]
      exact fun _ _ => rfl
  cases hcourse with
  | headerRegion hregion =>
    rw [first?_checks, hregion]
    exact ⟨rfl, by simp⟩
  | fileCount hregion hcount =>
    rw [first?_checks, hregion, hcount]
    exact ⟨rfl, by simp⟩
  | unplaced hwords hplace =>
    rw [first?_checks, hwords.headerSize, hwords.fileCount,
      first?_of_placed (Entry.placed_of_placeAll hzero hplace) hgives.1]
    exact ⟨rfl, by simp⟩
  | placing hplace => cases Entry.placed_of_placeAll hzero hplace
  | totalSize hwords hplace htotal =>
    rw [first?_checks_of_placed hwords (Entry.placed_of_placeAll hzero hplace) hgives.1, htotal]
    exact ⟨rfl, by simp⟩
  | unread hwords hplace htotal hread =>
    have hplaced := Entry.placed_of_placeAll hzero hplace
    rw [first?_checks_of_placed hwords hplaced hgives.1, htotal,
      first?_of_readIn (Placement.readIn_of_readAll hread) (hsizes hplaced) hgives.2]
    exact ⟨rfl, by simp⟩
  | reading hread => cases Placement.readIn_of_readAll hread
  | done hwords hplace htotal hread =>
    have hplaced := Entry.placed_of_placeAll hzero hplace
    rw [first?_checks_of_placed hwords hplaced hgives.1, htotal,
      first?_of_readIn (Placement.readIn_of_readAll hread) (hsizes hplaced) hgives.2]
    exact ⟨rfl, by simp⟩

/-- Packing from a source ends with an image just if everything fits and agrees, and else with the
first thing that does not. -/
theorem pack_reports_first {σ : Type} {respond : (request : Request) → σ → request.Answer × σ}
    (hs : s.Answers respond) (root : Path) (layout : Layout) (state : σ) :
    ((∃ image, ((Image.pack root layout).run respond state).outcome = .done image) ↔
        s.Accepts root layout) ∧
      (¬s.Accepts root layout → ∃ failure,
        Failure.first? (s.checks root layout) = some failure ∧
          ((Image.pack root layout).run respond state).outcome = .failed failure) := by
  have hcourse := (Image.pack root layout).course_run respond state
  obtain ⟨hfirst, hends⟩ := first?_of_pack hcourse (hs.gives _ state)
  rw [accepts_iff, hfirst]
  generalize ((Image.pack root layout).run respond state).outcome = outcome at hends ⊢
  cases outcome with
  | done image => exact ⟨by simp [Outcome.failure?], by simp [Outcome.failure?]⟩
  | failed failure => exact ⟨by simp [Outcome.failure?], by simp [Outcome.failure?]⟩
  | unfinished => exact absurd rfl hends

/-- Every file is said to have one byte, and has two. -/
def growing : Source where
  isDirectory _ := false
  entries _ := .ok []
  size _ := .ok 1
  contents _ := .ok [1, 2]

/-- The first file would be found to have changed, but before that the second one has a name that is
refused. -/
theorem name_is_reported_before_change :
    Failure.first? (growing.checks (.ofText "/r") ⟨[.file "a", .file "né"], [], 2⟩) =
        some (.nameNotAscii "né") ∧
      growing.readCheck (.ofText "/r/a") =
        some (.io (.ofText "/r/a") ⟨.invalidData, "file changed size during build", []⟩) ∧
      ((Image.pack (.ofText "/r") ⟨[.file "a", .file "né"], [], 2⟩).run growing.respond
        ()).outcome = .failed (.nameNotAscii "né") := by
  have hfirst : Failure.first? (growing.checks (.ofText "/r") ⟨[.file "a", .file "né"], [], 2⟩) =
      some (.nameNotAscii "né") := by decide
  have hnot : ¬growing.Accepts (.ofText "/r") ⟨[.file "a", .file "né"], [], 2⟩ := by
    rw [accepts_iff, hfirst]
    simp
  have hpack := pack_reports_first growing.answers_respond (.ofText "/r")
    ⟨[.file "a", .file "né"], [], 2⟩ ()
  obtain ⟨failure, hfailure, hfailed⟩ := hpack.2 hnot
  rw [hfirst, Option.some.injEq] at hfailure
  subst hfailure
  exact ⟨hfirst, by decide, hfailed⟩

end Source

end TreeImage
