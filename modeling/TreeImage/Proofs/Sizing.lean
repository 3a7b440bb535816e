import TreeImage.Proofs.Packing

/-!
# The calls of packing

Packing asks for the size of every file in the order of the entries and stops at the first entry
that fails a check. Only when all names are accepted, all sizes known and all fields large enough
does it read, and then the same files in the same order. `Image.Packed` says all that can happen.
-/

namespace TreeImage

namespace Call

theorem failure?_ofSize (file : Path × Nat) : (ofSize file).failure? = none := rfl

theorem failure?_ofContents (file : Path × Bytes) : (ofContents file).failure? = none := rfl

theorem forall_ofSize (files : List (Path × Nat)) :
    ∀ call ∈ files.map ofSize, call.failure? = none := by
  intro call hcall
  obtain ⟨file, -, rfl⟩ := List.mem_map.mp hcall
  exact failure?_ofSize file

theorem forall_ofContents (files : List (Path × Bytes)) :
    ∀ call ∈ files.map ofContents, call.failure? = none := by
  intro call hcall
  obtain ⟨file, -, rfl⟩ := List.mem_map.mp hcall
  exact failure?_ofContents file

end Call

/-- The size of all files together. -/
def totalSize : List (Path × Nat) → Nat
  | [] => 0
  | file :: rest => file.2 + totalSize rest

/-- The entries have names that are accepted, and these are their files with the sizes that were
obtained, in the order of the entries. -/
structure Entry.Sized (root : Path) (entries : List Entry) (files : List (Path × Nat)) : Prop where
  names : ∀ entry ∈ entries, nameDefect? entry.name = none
  sources : files.map Prod.fst = entries.filterMap (Entry.source? root)

/-- An entry is refused behind `offset` bytes of contents: its name, the answer to the question for
its size, or one of the two fields that this size goes into. -/
inductive Entry.Refused (root : Path) (offset : Nat) : Entry → List Call → Failure → Prop
  | name {entry : Entry} {failure : Failure} : entry.check = .error failure →
      Refused root offset entry [] failure
  | size {path : String} (failure : Failure) : nameDefect? (Entry.file path).name = none →
      Refused root offset (.file path)
        [⟨.size (root.append (.ofText path)), .error failure⟩] failure
  | length {path : String} {size : Nat} : nameDefect? (Entry.file path).name = none →
      UInt32.size ≤ size → Refused root offset (.file path)
        [Call.ofSize (root.append (.ofText path), size)] (.overflow .fileLength path)
  | offset {path : String} {size : Nat} : nameDefect? (Entry.file path).name = none →
      size < UInt32.size → UInt32.size ≤ offset + size → Refused root offset (.file path)
        [Call.ofSize (root.append (.ofText path), size)] (.overflow .dataOffset path)

/-- The file of a placement with its size, if it is one of a file. -/
def Placement.file? (placement : Placement) : Option (Path × Nat) :=
  placement.source.map fun source => (source, placement.length)

/-- Entries behind `offset` bytes of contents are placed: either all of them, or those before the
first one that is refused. -/
inductive Entry.Placed (root : Path) (offset : Nat) (entries : List Entry) :
    List Call → Outcome (List Placement) → Prop
  | done {placements : List Placement} {files : List (Path × Nat)} :
      placements.filterMap Placement.file? = files → Sized root entries files →
      offset + totalSize files < UInt32.size → Placement.dataSize placements = totalSize files →
      Placed root offset entries (files.map Call.ofSize) (.done placements)
  | failed {passed rest : List Entry} {entry : Entry} {files : List (Path × Nat)}
      {last : List Call} {failure : Failure} : entries = passed ++ entry :: rest →
      Sized root passed files → offset + totalSize files < UInt32.size →
      entry.Refused root (offset + totalSize files) last failure →
      Placed root offset entries (files.map Call.ofSize ++ last) (.failed failure)

theorem Field.fit_eq_error_iff {field : Field} {path : String} {n : Nat} {failure : Failure} :
    field.fit path n = .error failure ↔ UInt32.size ≤ n ∧ failure = .overflow field path := by
  rw [← word?_eq_none_iff, fit]
  cases word? n with
  | none => simp [eq_comm]
  | some w => simp

theorem Field.lt_of_fit {field : Field} {path : String} {n : Nat} {w : UInt32}
    (h : field.fit path n = .ok w) : n < UInt32.size := by
  rw [← Field.fit_eq_ok_iff.mp h]
  exact w.toNat_lt

theorem Entry.course_place {root : Path} {index offset : Nat} {entry : Entry} {calls : List Call}
    {outcome : Outcome Placement} (hoffset : offset < UInt32.size)
    (h : (entry.place root index offset).Course calls outcome) :
    (∃ placement, outcome = .done placement ∧ Sized root [entry] placement.file?.toList ∧
      calls = placement.file?.toList.map Call.ofSize ∧
      placement.length = totalSize placement.file?.toList ∧
      offset + placement.length < UInt32.size) ∨
    ∃ failure, outcome = .failed failure ∧ entry.Refused root offset calls failure := by
  rw [Entry.place.eq_def] at h
  rcases Session.Course.of_ofExcept_bind h with ⟨⟨⟩, hcheck, h⟩ | ⟨failure, hcheck, rfl, rfl⟩
  · rw [Entry.check_eq_ok_iff] at hcheck
    cases entry with
    | directory path count =>
      obtain ⟨rfl, rfl⟩ := Session.Course.of_done h
      refine .inl ⟨_, rfl, ⟨by simpa using hcheck, rfl⟩, rfl, rfl, hoffset⟩
    | file path =>
      obtain ⟨answer, later, rfl, hanswer⟩ := Session.Course.of_ask h
      rcases Session.Course.of_ofExcept_bind hanswer with
        ⟨size, rfl, hsize⟩ | ⟨failure, rfl, rfl, rfl⟩
      · rcases Session.Course.of_ofExcept_bind hsize with ⟨length, hlength, hfits⟩ |
          ⟨failure, hlength, rfl, rfl⟩
        · rcases Session.Course.of_ofExcept_bind hfits with ⟨start, hstart, hend⟩ |
            ⟨failure, hstart, rfl, rfl⟩
          · obtain ⟨rfl, rfl⟩ := Session.Course.of_done hend
            refine .inl ⟨_, rfl, ⟨by simpa using hcheck, rfl⟩, rfl, ?_, Field.lt_of_fit hstart⟩
            simp [Placement.file?, totalSize]
          · obtain ⟨hlarge, rfl⟩ := Field.fit_eq_error_iff.mp hstart
            exact .inr ⟨_, rfl, .offset hcheck (Field.lt_of_fit hlength) hlarge⟩
        · obtain ⟨hlarge, rfl⟩ := Field.fit_eq_error_iff.mp hlength
          exact .inr ⟨_, rfl, .length hcheck hlarge⟩
      · exact .inr ⟨failure, rfl, .size failure hcheck⟩
  · exact .inr ⟨failure, rfl, .name hcheck⟩

@[simp] theorem totalSize_nil : totalSize [] = 0 := rfl

@[simp] theorem totalSize_append (files others : List (Path × Nat)) :
    totalSize (files ++ others) = totalSize files + totalSize others := by
  induction files with
  | nil => simp
  | cons file rest ih => rw [List.cons_append, totalSize, totalSize, ih, Nat.add_assoc]

theorem Entry.Sized.nil (root : Path) : Sized root [] [] := by
  constructor
  · intro entry hentry
    cases hentry
  · rfl

theorem Entry.Sized.append {root : Path} {entries others : List Entry}
    {files later : List (Path × Nat)} (h : Sized root entries files)
    (h' : Sized root others later) : Sized root (entries ++ others) (files ++ later) := by
  constructor
  · intro entry hentry
    rcases List.mem_append.mp hentry with hentry | hentry
    · exact h.names entry hentry
    · exact h'.names entry hentry
  · rw [List.map_append, List.filterMap_append, h.sources, h'.sources]

/-- The entries are placed in order until one is refused. -/
theorem Entry.placed_of_placeAll {root : Path} {index offset : Nat} {entries : List Entry}
    {calls : List Call} {outcome : Outcome (List Placement)} (hoffset : offset < UInt32.size)
    (h : (placeAll root index offset entries).Course calls outcome) :
    Placed root offset entries calls outcome := by
  induction entries generalizing index offset calls outcome with
  | nil =>
    obtain ⟨rfl, rfl⟩ := Session.Course.of_done h
    exact .done List.filterMap_nil (.nil root) hoffset rfl
  | cons entry rest ih =>
    rcases Session.Course.of_bind h with ⟨placement, front, later, hplace, hlater, rfl⟩ |
      ⟨failure, hplace, rfl⟩ | ⟨hplace, rfl⟩
    · obtain ⟨first, hrest, rfl⟩ := Session.Course.of_map (Session.Course.of_report_bind hlater)
      rcases course_place hoffset hplace with ⟨_, ⟨⟩, hsized, rfl, hlength, hend⟩ | ⟨_, ⟨⟩, -⟩
      cases ih hend hrest with
      | @done placements files hfiles hothers hfits hdata =>
        have hall : (placement :: placements).filterMap Placement.file? =
            placement.file?.toList ++ files := by
          rw [List.filterMap_cons, hfiles]
          cases placement.file? <;> rfl
        rw [hlength] at hfits
        rw [← List.map_append]
        refine .done hall (hsized.append hothers) ?_ ?_
        · rw [totalSize_append]
          omega
        · rw [totalSize_append, Placement.dataSize, hlength, hdata]
      | @failed passed rest' refused files last failure hentries hpassed hfits hrefused =>
        rw [← List.append_assoc, ← List.map_append]
        rw [hlength, Nat.add_assoc, ← totalSize_append] at hfits hrefused
        exact .failed (by rw [hentries]; rfl) (hsized.append hpassed) hfits hrefused
    · rcases course_place hoffset hplace with ⟨_, ⟨⟩, -⟩ | ⟨_, ⟨⟩, hrefused⟩
      exact .failed (List.nil_append _).symm (.nil root) hoffset hrefused
    · rcases course_place hoffset hplace with ⟨_, ⟨⟩, -⟩ | ⟨_, ⟨⟩, -⟩

/-- A file of known size cannot be read: the call fails, or the contents have another size. -/
inductive Unread (file : Path × Nat) : Call → Failure → Prop
  | failed (failure : Failure) : Unread file ⟨.contents file.1, .error failure⟩ failure
  | resized {bytes : Bytes} : bytes.length ≠ file.2 → Unread file (Call.ofContents (file.1, bytes))
      (.io file.1 ⟨.invalidData, "file changed size during build", []⟩)

/-- Files are read in order: either all of them, or those before the first one that cannot be. -/
inductive ReadIn (files : List (Path × Nat)) : List Call → Outcome Bytes → Prop
  | done {contents : List (Path × Bytes)} : contents.map measure = files →
      ReadIn files (contents.map Call.ofContents) (.done (contents.flatMap Prod.snd))
  | failed {contents : List (Path × Bytes)} {file : Path × Nat} {rest : List (Path × Nat)}
      {call : Call} {failure : Failure} : files = contents.map measure ++ file :: rest →
      Unread file call failure →
      ReadIn files (contents.map Call.ofContents ++ [call]) (.failed failure)

theorem Placement.course_contents {placement : Placement} {calls : List Call}
    {outcome : Outcome Bytes} (h : placement.contents.Course calls outcome) :
    (∃ contents : List (Path × Bytes), contents.map measure = placement.file?.toList ∧
      calls = contents.map Call.ofContents ∧ outcome = .done (contents.flatMap Prod.snd)) ∨
    ∃ file call failure, placement.file? = some file ∧ calls = [call] ∧
      Unread file call failure ∧ outcome = .failed failure := by
  unfold Placement.contents at h
  cases hsource : placement.source with
  | none =>
    rw [hsource] at h
    obtain ⟨rfl, rfl⟩ := Session.Course.of_done h
    exact .inl ⟨[], by simp [file?, hsource], rfl, rfl⟩
  | some source =>
    rw [hsource] at h
    have hfile : placement.file? = some (source, placement.length) := by simp [file?, hsource]
    obtain ⟨answer, later, rfl, hanswer⟩ := Session.Course.of_ask h
    rcases Session.Course.of_ofExcept_bind hanswer with ⟨bytes, rfl, hbytes⟩ |
      ⟨failure, rfl, rfl, rfl⟩
    · split at hbytes
      · next hlength =>
        obtain ⟨rfl, rfl⟩ := Session.Course.of_done hbytes
        exact .inl ⟨[(source, bytes)], by simp [hfile, measure, hlength], rfl, by simp⟩
      · next hlength =>
        obtain ⟨rfl, rfl⟩ := Session.Course.of_fail hbytes
        exact .inr ⟨_, _, _, hfile, rfl, .resized hlength, rfl⟩
    · exact .inr ⟨_, _, _, hfile, rfl, .failed failure, rfl⟩

theorem Placement.readIn_of_readAll {placements : List Placement} {calls : List Call}
    {outcome : Outcome Bytes} (h : (readAll placements).Course calls outcome) :
    ReadIn (placements.filterMap file?) calls outcome := by
  induction placements generalizing calls outcome with
  | nil =>
    obtain ⟨rfl, rfl⟩ := Session.Course.of_done h
    exact .done (List.map_nil)
  | cons placement rest ih =>
    have hfiles : (placement :: rest).filterMap file? =
        placement.file?.toList ++ rest.filterMap file? := by
      rw [List.filterMap_cons]
      cases placement.file? <;> rfl
    rw [hfiles]
    rcases Session.Course.of_bind h with ⟨bytes, front, later, hfirst, hlater, rfl⟩ |
      ⟨failure, hfirst, rfl⟩ | ⟨hfirst, rfl⟩
    · obtain ⟨others, hrest, rfl⟩ := Session.Course.of_map hlater
      rcases course_contents hfirst with ⟨contents, hmeasure, rfl, ⟨⟩⟩ | ⟨_, _, _, -, -, -, ⟨⟩⟩
      rw [← hmeasure]
      cases ih hrest with
      | @done others hothers =>
        rw [← hothers, ← List.map_append, ← List.map_append, Outcome.map, ← List.flatMap_append]
        exact .done rfl
      | @failed others file behind call failure hothers hunread =>
        rw [hothers, ← List.append_assoc, ← List.append_assoc, ← List.map_append,
          ← List.map_append]
        exact .failed rfl hunread
    · rcases course_contents hfirst with ⟨_, -, -, ⟨⟩⟩ | ⟨file, call, _, hfile, rfl, hunread, ⟨⟩⟩
      have hread : ReadIn (file :: rest.filterMap file?) ([].map Call.ofContents ++ [call]) _ :=
        .failed rfl hunread
      rw [hfile]
      exact hread
    · rcases course_contents hfirst with ⟨_, -, -, ⟨⟩⟩ | ⟨_, _, _, -, -, -, ⟨⟩⟩

/-- All that has to hold before anything is read: the names are accepted, the sizes obtained, and
the fields of 32 bits large enough. -/
structure Layout.Fits (root : Path) (layout : Layout) (files : List (Path × Nat)) : Prop where
  sized : Entry.Sized root layout.entries files
  fileCount : layout.fileCount < UInt32.size
  totalSize : Record.position layout.entries.length + totalSize files < UInt32.size

/-- How a layout is packed: the calls for sizes, the calls for contents, and the end. -/
inductive Image.Packed (root : Path) (layout : Layout) :
    List Call → List Call → Outcome Image → Prop
  | headerRegion : UInt32.size ≤ Record.position layout.entries.length →
      Packed root layout [] [] (.failed (.overflow .headerRegion ""))
  | fileCount : Record.position layout.entries.length < UInt32.size →
      UInt32.size ≤ layout.fileCount → Packed root layout [] [] (.failed (.overflow .fileCount ""))
  | refused {sized : List Call} {failure : Failure} :
      Record.position layout.entries.length < UInt32.size → layout.fileCount < UInt32.size →
      Entry.Placed root 0 layout.entries sized (.failed failure) →
      Packed root layout sized [] (.failed failure)
  | totalSize {files : List (Path × Nat)} : Entry.Sized root layout.entries files →
      layout.fileCount < UInt32.size →
      UInt32.size ≤ Record.position layout.entries.length + totalSize files →
      Packed root layout (files.map Call.ofSize) [] (.failed (.overflow .totalSize ""))
  | unread {files : List (Path × Nat)} {read : List Call} {failure : Failure} :
      layout.Fits root files → ReadIn files read (.failed failure) →
      Packed root layout (files.map Call.ofSize) read (.failed failure)
  | done {contents : List (Path × Bytes)} (image : Image) :
      layout.Fits root (contents.map measure) →
      Packed root layout ((contents.map measure).map Call.ofSize) (contents.map Call.ofContents)
        (.done image)

theorem Image.packed_of_pack {root : Path} {layout : Layout} {calls : List Call}
    {outcome : Outcome Image} (h : (pack root layout).Course calls outcome) :
    ∃ sized read, calls = sized ++ read ∧ Packed root layout sized read outcome := by
  obtain ⟨sized, read, rfl, hcourse⟩ := course_of_pack h
  refine ⟨sized, read, rfl, ?_⟩
  have hzero : 0 < UInt32.size := by decide
  cases hcourse with
  | headerRegion hregion =>
    obtain ⟨hlarge, rfl⟩ := Field.fit_eq_error_iff.mp hregion
    exact .headerRegion hlarge
  | fileCount hregion hcount =>
    obtain ⟨hlarge, rfl⟩ := Field.fit_eq_error_iff.mp hcount
    exact .fileCount (Field.lt_of_fit hregion) hlarge
  | unplaced hwords hplace =>
    exact .refused (Field.lt_of_fit hwords.headerSize) (Field.lt_of_fit hwords.fileCount)
      (Entry.placed_of_placeAll hzero hplace)
  | placing hplace => cases Entry.placed_of_placeAll hzero hplace
  | totalSize hwords hplace htotal =>
    cases Entry.placed_of_placeAll hzero hplace with
    | done _ hsized _ hdata =>
      rw [Field.fit_eq_ok_iff.mp hwords.headerSize, hdata] at htotal
      obtain ⟨hlarge, rfl⟩ := Field.fit_eq_error_iff.mp htotal
      exact .totalSize hsized (Field.lt_of_fit hwords.fileCount) hlarge
  | unread hwords hplace htotal hread =>
    cases Entry.placed_of_placeAll hzero hplace with
    | done hfiles hsized _ hdata =>
      rw [Field.fit_eq_ok_iff.mp hwords.headerSize, hdata] at htotal
      have hin := Placement.readIn_of_readAll hread
      rw [hfiles] at hin
      exact .unread ⟨hsized, Field.lt_of_fit hwords.fileCount, Field.lt_of_fit htotal⟩ hin
  | reading hread => cases Placement.readIn_of_readAll hread
  | done hwords hplace htotal hread =>
    cases Entry.placed_of_placeAll hzero hplace with
    | done hfiles hsized _ hdata =>
      rw [Field.fit_eq_ok_iff.mp hwords.headerSize, hdata] at htotal
      have hin := Placement.readIn_of_readAll hread
      rw [hfiles] at hin
      cases hin with
      | done hmeasure =>
        subst hmeasure
        exact .done _ ⟨hsized, Field.lt_of_fit hwords.fileCount, Field.lt_of_fit htotal⟩

theorem Entry.Refused.endAtFailure {root : Path} {offset : Nat} {entry : Entry}
    {last : List Call} {failure : Failure} (h : entry.Refused root offset last failure) :
    Call.EndAtFailure (some failure) last := by
  cases h with
  | name => trivial
  | size failure _ => exact Call.endAtFailure_singleton fun other hother => hother
  | length => exact Call.endAtFailure_singleton fun other hother => by cases hother
  | offset => exact Call.endAtFailure_singleton fun other hother => by cases hother

theorem Unread.endAtFailure {file : Path × Nat} {call : Call} {failure : Failure}
    (h : Unread file call failure) : Call.EndAtFailure (some failure) [call] := by
  cases h with
  | failed failure => exact Call.endAtFailure_singleton fun other hother => hother
  | resized => exact Call.endAtFailure_singleton fun other hother => by cases hother

theorem Image.Packed.endAtFailure {root : Path} {layout : Layout} {sized read : List Call}
    {outcome : Outcome Image} (h : Packed root layout sized read outcome) :
    Call.EndAtFailure outcome.failure? (sized ++ read) := by
  cases h with
  | headerRegion => trivial
  | fileCount => trivial
  | refused _ _ hplaced =>
    cases hplaced with
    | @failed _ _ _ files _ _ _ _ _ hrefused =>
      rw [List.append_nil]
      exact Call.endAtFailure_append (Call.forall_ofSize files) hrefused.endAtFailure
  | @totalSize files _ _ _ =>
    rw [List.append_nil]
    exact Call.endAtFailure_of_forall (Call.forall_ofSize files)
  | @unread files _ _ _ hread =>
    cases hread with
    | @failed contents _ _ _ _ _ hunread =>
      exact Call.endAtFailure_append (Call.forall_ofSize files)
        (Call.endAtFailure_append (Call.forall_ofContents contents) hunread.endAtFailure)
  | @done contents _ _ =>
    exact Call.endAtFailure_append (Call.forall_ofSize _)
      (Call.endAtFailure_of_forall (Call.forall_ofContents contents))

end TreeImage
