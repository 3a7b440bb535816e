import TreeImage.Proofs.Assembly
import TreeImage.Proofs.Rejection

/-!
# Bytes that are not read

Not every byte of an image counts. What stands behind a name in its field, the end of every block,
the block count of a directory and the data that belong to no file can be anything. Two texts that
agree everywhere else are read alike, or refused alike: the walk takes the same course through both,
since it never sees more of a record than its tag, its name and its words, and no more of the data
than the contents of the files.
-/

namespace TreeImage

namespace Except

variable {ε α β : Type} {x : Except ε α} {f : α → β}

theorem map_eq_error_iff {e : ε} : x.map f = .error e ↔ x = .error e := by
  cases x <;> simp [Except.map]

theorem map_eq_ok_iff {b : β} : x.map f = .ok b ↔ ∃ a, x = .ok a ∧ f a = b := by
  cases x <;> simp [Except.map]

end Except

/-! ## Slack -/

namespace Record

/-- The positions in a block that do not count: behind the first zero of the name field, in the
block count of a directory, and behind the second word. -/
inductive Slack (block : Bytes) : Nat → Prop
  | padding {first place : Nat} : 6 ≤ first → first < place → place < 70 → block[first]? = some 0 →
      Slack block place
  | blockCount {place : Nat} : Bytes.toNat (Bytes.slice 0 2 block) = 0x7EAB → 70 ≤ place →
      place < 74 → Slack block place
  | reserved {place : Nat} : 74 ≤ place → place < size → Slack block place

/-- The record without its block count. -/
def bare : Record → Record
  | .file offset name length => .file offset name length
  | .directory children name _ => .directory children name 0

end Record

namespace Bytes

/-- The positions in a text that do not count, if it has a header region: those in its blocks, and
those in the data region that belong to no file. -/
inductive Slack (bs : Bytes) : Nat → Prop
  | block {index place : Nat} : bs.HasRegion → index < Record.blockCount bs →
      Record.Slack (Record.block bs index) place → Slack bs (Record.position index + place)
  | data {place : Nat} : bs.HasRegion → (bs.wordAt 8).toNat ≤ place →
      (∀ offset name length, .file offset name length ∈ Record.ofBlocks bs →
        ¬((bs.wordAt 8).toNat + offset.toNat ≤ place ∧
          place < (bs.wordAt 8).toNat + offset.toNat + length.toNat)) → Slack bs place

/-- The texts differ in nothing but what does not count. -/
structure AlikeButSlack (bs other : Bytes) : Prop where
  length : other.length = bs.length
  agree : ∀ place, ¬bs.Slack place → other[place]? = bs[place]?

/-! ## Parts of texts that agree -/

theorem getElem?_slice {start length i : Nat} (bs : Bytes) (h : i < length) :
    (slice start length bs)[i]? = bs[start + i]? := by
  rw [slice, List.getElem?_take_of_lt h, List.getElem?_drop]

theorem getElem?_slice_of_le {start length i : Nat} (bs : Bytes) (h : length ≤ i) :
    (slice start length bs)[i]? = none := by
  rw [slice, List.getElem?_take_eq_none h]

theorem slice_congr {bs other : Bytes} {start length : Nat}
    (h : ∀ place, start ≤ place → place < start + length → other[place]? = bs[place]?) :
    slice start length other = slice start length bs := by
  apply List.ext_getElem?
  intro i
  by_cases hi : i < length
  · rw [getElem?_slice other hi, getElem?_slice bs hi]
    exact h (start + i) (Nat.le_add_right _ _) (by omega)
  · have hle := Nat.le_of_not_lt hi
    rw [getElem?_slice_of_le other hle, getElem?_slice_of_le bs hle]

theorem wordAt_congr {bs other : Bytes} {start : Nat}
    (h : ∀ place, start ≤ place → place < start + 4 → other[place]? = bs[place]?) :
    other.wordAt start = bs.wordAt start := by
  rw [wordAt, wordAt, slice_congr h]

theorem untilZero_cons {b : UInt8} (h : b ≠ 0) (rest : Bytes) :
    untilZero (b :: rest) = b :: untilZero rest :=
  List.takeWhile_cons_of_pos (by simpa using h)

/-- What stands before the first zero does not depend on what stands behind it. -/
theorem untilZero_congr {bs other : Bytes}
    (h : ∀ i : Nat, (∀ j < i, bs[j]? ≠ some 0) → other[i]? = bs[i]?) :
    untilZero other = untilZero bs := by
  induction bs generalizing other with
  | nil =>
    have hfirst := h 0 (by simp)
    cases other with
    | nil => rfl
    | cons b rest => simp at hfirst
  | cons b rest ih =>
    have hfirst := h 0 (by simp)
    cases other with
    | nil => simp at hfirst
    | cons b' rest' =>
      rw [List.getElem?_cons_zero, List.getElem?_cons_zero, Option.some.injEq] at hfirst
      subst hfirst
      by_cases hzero : b' = 0
      · subst hzero
        rfl
      · rw [untilZero_cons hzero, untilZero_cons hzero]
        refine congrArg (b' :: ·) (ih fun i hi => ?_)
        have hnext := h (i + 1) fun j hj => ?_
        · rwa [List.getElem?_cons_succ, List.getElem?_cons_succ] at hnext
        · cases j with
          | zero => simpa using hzero
          | succ j =>
            rw [List.getElem?_cons_succ]
            exact hi j (by omega)

end Bytes

/-! ## Blocks -/

namespace Record

theorem Slack.lt {block : Bytes} {place : Nat} (h : Slack block place) : place < size := by
  cases h with
  | padding _ _ hlt => exact Nat.lt_trans hlt (by decide)
  | blockCount _ _ hlt => exact Nat.lt_trans hlt (by decide)
  | reserved _ hlt => exact hlt

theorem bare_ofParts? (tag : Nat) (first : UInt32) (name : String) {second other : UInt32}
    (h : tag ≠ 0x7EAB → other = second) :
    (ofParts? tag first name other).map bare = (ofParts? tag first name second).map bare := by
  by_cases htag : tag = 0x7EAB
  · subst htag
    rfl
  · rw [h htag]

/-- Blocks that differ in slack alone hold the same record, but for its block count. -/
theorem bare_decode?_congr {block other : Bytes} (hlength : other.length = block.length)
    (h : ∀ place, ¬Slack block place → other[place]? = block[place]?) :
    (decode? other).map bare = (decode? block).map bare := by
  have hfront : ∀ place, place < 6 → other[place]? = block[place]? := by
    intro place hplace
    apply h
    intro hslack
    cases hslack with
    | padding hzero hbehind => omega
    | blockCount _ hle => omega
    | reserved hle => omega
  have htag : Bytes.slice 0 2 other = Bytes.slice 0 2 block :=
    Bytes.slice_congr fun place _ hlt => hfront place (by omega)
  have hfirst : other.wordAt 2 = block.wordAt 2 :=
    Bytes.wordAt_congr fun place _ hlt => hfront place (by omega)
  have hname : Bytes.untilZero (Bytes.slice 6 nameField other) =
      Bytes.untilZero (Bytes.slice 6 nameField block) := by
    refine Bytes.untilZero_congr fun i hi => ?_
    by_cases hfield : i < nameField
    · rw [Bytes.getElem?_slice other hfield, Bytes.getElem?_slice block hfield]
      apply h
      intro hslack
      rw [nameField] at hfield
      cases hslack with
      | @padding first _ hfirst hbehind hlt hbyte =>
        have hnonzero := hi (first - 6) (by omega)
        rw [Bytes.getElem?_slice block (by rw [nameField]; omega),
          show 6 + (first - 6) = first by omega] at hnonzero
        exact hnonzero hbyte
      | blockCount _ hle => omega
      | reserved hle => omega
    · have hle := Nat.le_of_not_lt hfield
      rw [Bytes.getElem?_slice_of_le other hle, Bytes.getElem?_slice_of_le block hle]
  have hsecond : Bytes.toNat (Bytes.slice 0 2 block) ≠ 0x7EAB →
      other.wordAt 70 = block.wordAt 70 := by
    intro hfile
    refine Bytes.wordAt_congr fun place hle hlt => h place fun hslack => ?_
    cases hslack with
    | padding _ _ hfield => omega
    | blockCount hdirectory => exact hfile hdirectory
    | reserved hreserved => omega
  rw [decode?, decode?, hlength, htag, hfirst, hname]
  split
  · exact bare_ofParts? _ _ _ hsecond
  · rfl

theorem bare_decodeMany_congr {index count : Nat} {bs other : Bytes}
    (h : ∀ i < count, (decode? (Bytes.slice (size * i) size other)).map bare =
      (decode? (Bytes.slice (size * i) size bs)).map bare) :
    (decodeMany index count other).map (List.map bare) =
      (decodeMany index count bs).map (List.map bare) := by
  induction count generalizing index bs other with
  | zero => rfl
  | succ count ih =>
    have hfirst := h 0 (Nat.succ_pos _)
    have hothers : (decodeMany (index + 1) count (other.drop size)).map (List.map bare) =
        (decodeMany (index + 1) count (bs.drop size)).map (List.map bare) := by
      apply ih
      intro i hi
      rw [← slice_later, ← slice_later]
      exact h (i + 1) (Nat.succ_lt_succ hi)
    rw [slice_first, slice_first] at hfirst
    rw [decodeMany, decodeMany]
    cases hr : decode? (bs.take size) with
    | none =>
      rw [hr, Option.map_none, Option.map_eq_none_iff] at hfirst
      rw [hfirst]
    | some r =>
      rw [hr, Option.map_some, Option.map_eq_some_iff] at hfirst
      rcases hfirst with ⟨r', hr', hbare⟩
      rw [hr']
      dsimp only
      cases hrecords : decodeMany (index + 1) count (bs.drop size) with
      | error failure =>
        rw [hrecords] at hothers
        rw [Except.map_eq_error_iff.mp hothers]
        rfl
      | ok records =>
        rw [hrecords] at hothers
        obtain ⟨records', hrecords', heq⟩ := Except.map_eq_ok_iff.mp hothers
        rw [hrecords']
        show Except.ok (List.map bare (r' :: records')) = Except.ok (List.map bare (r :: records))
        rw [List.map_cons, List.map_cons, hbare, heq]

end Record

/-! ## The walk -/

theorem Record.isFile_bare (r : Record) : r.bare.isFile = r.isFile := by
  cases r <;> rfl

namespace Forest

variable {data other : DataRegion} {total count : Nat} {records : List Record}

/-- The walk does not look at block counts. -/
theorem read_bare : read data total count (records.map Record.bare) =
    (read data total count records).map (Prod.map id (List.map Record.bare)) := by
  induction count, records using ofRecords.induct data with
  | case1 records =>
    rw [read_zero, read_zero]
    rfl
  | case2 count =>
    rw [List.map_nil, read_nil]
    rfl
  | case3 count offset name length records hrange =>
    rw [List.map_cons, Record.bare, read_file, read_file, hrange, List.length_map]
    rfl
  | case4 count offset name length records contents hrange ih =>
    rw [List.map_cons, Record.bare, read_file, read_file, hrange]
    simp only [ih]
    cases read data total count records <;> rfl
  | case5 count children name blockCount records ihc ih =>
    rw [List.map_cons, Record.bare, read_directory, read_directory, ihc]
    cases hinner : read data total children.toNat records with
    | error failure => rfl
    | ok result =>
      rcases result with ⟨inner, behind⟩
      obtain ⟨front, f, rfl, -⟩ := preorder_of_read data total hinner
      have hothers := ih behind (by simp)
      show (read data total count (behind.map Record.bare) >>= _) = _
      rw [hothers]
      show _ = ((read data total count behind >>= _).map _)
      cases read data total count behind <;> rfl

/-- Of the data, the walk sees the contents of the files alone. -/
theorem read_congr (h : ∀ offset name length, .file offset name length ∈ records →
    other.range? offset.toNat length.toNat = data.range? offset.toNat length.toNat) :
    read other total count records = read data total count records := by
  induction count, records using ofRecords.induct data with
  | case1 records => rw [read_zero, read_zero]
  | case2 count => rw [read_nil, read_nil]
  | case3 count offset name length records hrange =>
    rw [read_file, read_file, h offset name length (List.mem_cons_self ..), hrange]
  | case4 count offset name length records contents hrange ih =>
    have hothers := ih fun o n l hmem => h o n l (List.mem_cons_of_mem _ hmem)
    rw [read_file, read_file, h offset name length (List.mem_cons_self ..), hrange]
    simp only [hothers]
  | case5 count children name blockCount records ihc ih =>
    have hchildren := ihc fun o n l hmem => h o n l (List.mem_cons_of_mem _ hmem)
    rw [read_directory, read_directory, hchildren]
    cases hinner : read data total children.toNat records with
    | error failure => rfl
    | ok result =>
      rcases result with ⟨inner, behind⟩
      obtain ⟨front, f, rfl, -⟩ := preorder_of_read data total hinner
      have hothers := ih behind (by simp) fun o n l hmem =>
        h o n l (List.mem_cons_of_mem _ (List.mem_append_right _ hmem))
      show (read other total count behind >>= _) = (read data total count behind >>= _)
      rw [hothers]

theorem ofAllRecords_bare (header : Header) :
    ofAllRecords data header (records.map Record.bare) = ofAllRecords data header records := by
  have hfiles : (records.map Record.bare).countP Record.isFile =
      records.countP Record.isFile := by
    rw [List.countP_map]
    exact List.countP_congr fun r _ => by rw [Function.comp_apply, Record.isFile_bare]
  rw [ofAllRecords_eq_read, ofAllRecords_eq_read, List.length_map, hfiles, read_bare]
  cases read data records.length header.rootEntries.toNat records with
  | error failure => rfl
  | ok result =>
    rcases result with ⟨f, rest⟩
    simp [bind, Except.bind, Except.map]

theorem ofAllRecords_congr (header : Header)
    (h : ∀ offset name length, .file offset name length ∈ records →
      other.range? offset.toNat length.toNat = data.range? offset.toNat length.toNat) :
    ofAllRecords other header records = ofAllRecords data header records := by
  rw [ofAllRecords_eq_read, ofAllRecords_eq_read, read_congr h]

end Forest

/-! ## Whole texts -/

namespace Bytes.AlikeButSlack

variable {bs other : Bytes}

/-- Without a header region every position counts. -/
theorem eq_of_not_hasRegion (h : bs.AlikeButSlack other) (hregion : ¬bs.HasRegion) :
    other = bs := by
  apply List.ext_getElem?
  intro place
  apply h.agree
  intro hslack
  cases hslack with
  | block hblock => exact hregion hblock
  | data hdata => exact hregion hdata

theorem wordAt_eq (h : bs.AlikeButSlack other) {start : Nat} (hstart : start + 4 ≤ Header.size) :
    other.wordAt start = bs.wordAt start := by
  refine wordAt_congr fun place _ hlt => h.agree place fun hslack => ?_
  cases hslack with
  | block =>
    rw [Record.position] at hlt
    omega
  | data hregion hle =>
    have hfront := hregion.start
    omega

theorem hasRegion (h : bs.AlikeButSlack other) (hregion : bs.HasRegion) : other.HasRegion := by
  have hsize : other.wordAt 8 = bs.wordAt 8 := h.wordAt_eq (by decide)
  constructor
  · rw [hsize]
    exact hregion.start
  · rw [hsize, h.length]
    exact hregion.stop
  · rw [hsize]
    exact hregion.blocks

theorem position_add_lt (hregion : bs.HasRegion) {index place : Nat}
    (hindex : index < Record.blockCount bs) (hplace : place < Record.size) :
    Record.position index + place < (bs.wordAt 8).toNat := by
  rw [← hregion.position_blockCount, Record.position, Record.position]
  rw [Record.size] at hplace ⊢
  omega

/-- What is slack in a block is slack of the block. -/
theorem slack_of_block (hregion : bs.HasRegion) {index place : Nat}
    (hindex : index < Record.blockCount bs) (hplace : place < Record.size)
    (h : bs.Slack (Record.position index + place)) :
    Record.Slack (Record.block bs index) place := by
  generalize hposition : Record.position index + place = position at h
  cases h with
  | @block index' place' _ hindex' hslack =>
    have hlt := hslack.lt
    have heq : index = index' ∧ place = place' := by
      simp only [Record.position, Record.size] at hposition hplace hlt
      omega
    rcases heq with ⟨rfl, rfl⟩
    exact hslack
  | data _ hle =>
    have hlt := position_add_lt hregion hindex hplace
    omega

/-- The blocks of the two texts hold the same records, but for their block counts. -/
theorem bare_decode?_block (h : bs.AlikeButSlack other) (hregion : bs.HasRegion) {index : Nat}
    (hindex : index < Record.blockCount bs) :
    (Record.decode? (Record.block other index)).map Record.bare =
      (Record.decode? (Record.block bs index)).map Record.bare := by
  apply Record.bare_decode?_congr
  · rw [Record.block, Record.block, length_slice, length_slice, h.length]
  · intro place hplace
    by_cases hlt : place < Record.size
    · rw [Record.block, Record.block, getElem?_slice other hlt, getElem?_slice bs hlt]
      exact h.agree _ fun hslack => hplace (slack_of_block hregion hindex hlt hslack)
    · have hle := Nat.le_of_not_lt hlt
      rw [Record.block, Record.block, getElem?_slice_of_le other hle, getElem?_slice_of_le bs hle]

/-- The two texts hold the same contents for every file. -/
theorem range?_eq (h : bs.AlikeButSlack other) (hregion : bs.HasRegion) {offset length : UInt32}
    {name : String} (hfile : .file offset name length ∈ Record.ofBlocks bs) :
    DataRegion.range? { bytes := other.drop (bs.wordAt 8).toNat } offset.toNat length.toNat =
      DataRegion.range? { bytes := bs.drop (bs.wordAt 8).toNat } offset.toNat length.toNat := by
  have hsize : (other.drop (bs.wordAt 8).toNat).length = (bs.drop (bs.wordAt 8).toNat).length := by
    rw [List.length_drop, List.length_drop, h.length]
  have hcontents : slice offset.toNat length.toNat (other.drop (bs.wordAt 8).toNat) =
      slice offset.toNat length.toNat (bs.drop (bs.wordAt 8).toNat) := by
    refine slice_congr fun place hle hlt => ?_
    rw [List.getElem?_drop, List.getElem?_drop]
    refine h.agree _ fun hslack => ?_
    generalize hposition : (bs.wordAt 8).toNat + place = position at hslack
    cases hslack with
    | block _ hindex hslack =>
      have hlt := position_add_lt hregion hindex hslack.lt
      omega
    | data _ _ hnone => exact hnone offset name length hfile ⟨by omega, by omega⟩
  simp only [DataRegion.range?, hcontents, hsize]

/-- The records of the two texts are the same, but for their block counts. -/
theorem bare_decodeMany (h : bs.AlikeButSlack other) (hregion : bs.HasRegion) :
    (Record.decodeMany 0 (Record.blockCount bs) (other.drop Header.size)).map
        (List.map Record.bare) =
      (Record.decodeMany 0 (Record.blockCount bs) (bs.drop Header.size)).map
        (List.map Record.bare) := by
  refine Record.bare_decodeMany_congr fun index hindex => ?_
  rw [Record.slice_drop_header, Record.slice_drop_header]
  exact h.bare_decode?_block hregion hindex

/-- The records of the two texts give the same forest. -/
theorem ofAllRecords_eq (h : bs.AlikeButSlack other) (hregion : bs.HasRegion) (header : Header)
    {records : List Record} (hrecords : records.map Record.bare =
      (Record.ofBlocks bs).map Record.bare) :
    Forest.ofAllRecords { bytes := other.drop (bs.wordAt 8).toNat } header records =
      Forest.ofAllRecords { bytes := bs.drop (bs.wordAt 8).toNat } header
        (Record.ofBlocks bs) := by
  rw [← Forest.ofAllRecords_bare, hrecords, Forest.ofAllRecords_bare]
  exact Forest.ofAllRecords_congr header fun offset name length hfile => h.range?_eq hregion hfile

end Bytes.AlikeButSlack

namespace Reading

variable {bs other : Bytes}

/-- Two texts that differ in slack alone are both refused, at the same byte for the same fault, or
both read, with the same header, the same entries and the same records but for block counts. -/
theorem ofBytes_passes_over_slack (h : bs.AlikeButSlack other) :
    (∃ failure, ofBytes bs = .error failure ∧ ofBytes other = .error failure) ∨
      ∃ reading records, ofBytes bs = .ok reading ∧
        ofBytes other = .ok { reading with records := records } ∧
        records.map Record.bare = reading.records.map Record.bare := by
  by_cases hregion : bs.HasRegion
  case neg =>
    rw [h.eq_of_not_hasRegion hregion]
    cases hread : ofBytes bs with
    | error failure => exact .inl ⟨failure, rfl, rfl⟩
    | ok reading => exact .inr ⟨reading, reading.records, rfl, rfl, rfl⟩
  have hother := h.hasRegion hregion
  have hword0 : other.wordAt 0 = bs.wordAt 0 := h.wordAt_eq (by decide)
  have hword4 : other.wordAt 4 = bs.wordAt 4 := h.wordAt_eq (by decide)
  have hword8 : other.wordAt 8 = bs.wordAt 8 := h.wordAt_eq (by decide)
  have hword12 : other.wordAt 12 = bs.wordAt 12 := h.wordAt_eq (by decide)
  have hcount : Record.blockCount other = Record.blockCount bs := by
    rw [Record.blockCount, hword8, Record.blockCount]
  by_cases htotal : (bs.wordAt 0).toNat = bs.length
  case neg =>
    refine .inl ⟨_, ofBytes_of_rejected (.totalSize hregion.header htotal), ?_⟩
    rw [← h.length, ← hword0] at htotal ⊢
    exact ofBytes_of_rejected (.totalSize hother.header htotal)
  have htotal' : (other.wordAt 0).toNat = other.length := by rw [hword0, h.length, htotal]
  have hdecoded := h.bare_decodeMany hregion
  rw [ofBytes_of_hasRegion htotal hregion, ofBytes_of_hasRegion htotal' hother, hcount, hword0,
    hword4, hword8, hword12]
  cases hrecords : Record.decodeMany 0 (Record.blockCount bs) (bs.drop Header.size) with
  | error failure =>
    rw [hrecords] at hdecoded
    rw [Except.map_eq_error_iff.mp hdecoded]
    exact .inl ⟨failure, rfl, rfl⟩
  | ok records =>
    rw [hrecords] at hdecoded
    obtain ⟨records', hrecords', hbare⟩ := Except.map_eq_ok_iff.mp hdecoded
    obtain ⟨-, rfl⟩ := (decodeMany_blocks_eq_ok_iff hregion.start hregion.stop).mp hrecords
    have hforest := h.ofAllRecords_eq hregion
      ⟨bs.wordAt 0, bs.wordAt 4, bs.wordAt 8, bs.wordAt 12⟩ hbare
    rw [hrecords']
    simp only [bind, Except.bind, hforest]
    cases Forest.ofAllRecords { bytes := bs.drop (bs.wordAt 8).toNat }
        ⟨bs.wordAt 0, bs.wordAt 4, bs.wordAt 8, bs.wordAt 12⟩ (Record.ofBlocks bs) with
    | error failure => exact .inl ⟨failure, rfl, rfl⟩
    | ok entries => exact .inr ⟨_, records', rfl, rfl, hbare⟩

/-- A directory with a file of one byte in it. There is a byte of data before it and one behind. -/
def gapped : Reading where
  header := ⟨179, 1, 176, 1⟩
  entries := .directory "d" (.file "f" [11] .nil) .nil
  records := [.directory 1 "d" 1, .file 1 "f" 1]

def gappedBytes : Bytes :=
  gapped.header.encode ++ gapped.records.flatMap Record.encode ++ [10, 11, 12]

theorem gapped_assembled :
    Bytes.Assembled gapped.header gapped.records [10, 11, 12] gappedBytes where
  fits r hr := by
    rcases List.mem_pair.mp hr with rfl | rfl
    · exact (by decide : 1 ≤ 64)
    · exact (by decide : 1 ≤ 64)
  headerSize := rfl
  totalSize := rfl
  bytes := rfl

theorem gapped_alike : gappedBytes.AlikeButSlack
    ((((gappedBytes.set 24 65).set 86 9).set 171 7).set 178 255) := by
  have hregion : gappedBytes.HasRegion :=
    ⟨gapped_assembled.regionStart, gapped_assembled.regionEnd, by decide +kernel⟩
  have hrecords : Record.ofBlocks gappedBytes = gapped.records := gapped_assembled.blocks.2.symm
  have hzero : (Record.block gappedBytes 0)[7]? = some 0 := by decide +kernel
  have hpadding : gappedBytes.Slack 24 := show gappedBytes.Slack (Record.position 0 + 8) from
    .block hregion (by decide +kernel) (.padding (by decide) (by decide) (by decide) hzero)
  have hcount : gappedBytes.Slack 86 := show gappedBytes.Slack (Record.position 0 + 70) from
    .block hregion (by decide +kernel) (.blockCount (by decide +kernel) (by decide) (by decide))
  have hreserved : gappedBytes.Slack 171 := show gappedBytes.Slack (Record.position 1 + 75) from
    .block hregion (by decide +kernel) (.reserved (by decide) (by decide))
  have hgap : gappedBytes.Slack 178 := by
    refine .data hregion (by decide +kernel) fun offset name length hfile => ?_
    rw [hrecords] at hfile
    rcases List.mem_pair.mp hfile with h | h
    · cases h
    · cases h
      decide +kernel
  constructor
  · simp only [List.length_set]
  · intro place hplace
    have hne : ∀ {slack : Nat}, gappedBytes.Slack slack → slack ≠ place := by
      rintro slack hslack rfl
      exact hplace hslack
    rw [List.getElem?_set_ne (hne hgap), List.getElem?_set_ne (hne hreserved),
      List.getElem?_set_ne (hne hcount), List.getElem?_set_ne (hne hpadding)]

/-- Bytes behind a name, of a block count, at the end of a block and behind all contents can be
changed together. -/
theorem gapped_is_read_alike :
    gappedBytes.AlikeButSlack ((((gappedBytes.set 24 65).set 86 9).set 171 7).set 178 255) ∧
      ∃ records, ofBytes gappedBytes = .ok gapped ∧
        ofBytes ((((gappedBytes.set 24 65).set 86 9).set 171 7).set 178 255) =
          .ok { gapped with records := records } ∧
        records.map Record.bare = gapped.records.map Record.bare := by
  have hpreorder : Record.Preorder (gapped.records.map (Record.rename Text.untilNul))
      (.directory "d" (.file "f" ⟨1, 1⟩ .nil) .nil) :=
    .directory 1 "d" 1 rfl (.file 1 "f" 1 .nil) .nil
  have hread : ofBytes gappedBytes = .ok gapped := by
    rw [gapped_assembled.ofBytes_eq_ok_iff]
    refine ⟨rfl, rfl, rfl, fun r hr => ?_, _, rfl, hpreorder, rfl⟩
    rcases List.mem_pair.mp hr with rfl | rfl
    · trivial
    · exact (by decide : 1 + 1 ≤ 3)
  refine ⟨gapped_alike, ?_⟩
  rcases ofBytes_passes_over_slack gapped_alike with ⟨failure, hfailure, -⟩ | hboth
  · rw [hread] at hfailure
    cases hfailure
  · rcases hboth with ⟨reading, records, hreading, hother, hbare⟩
    rw [hread, Except.ok.injEq] at hreading
    subst hreading
    exact ⟨records, hread, hother, hbare⟩

end Reading

end TreeImage
