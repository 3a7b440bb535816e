import Mathlib.Order.Bounds.Defs
import TreeImage.Proofs.Grammar

/-!
# Where an image is refused

A byte string that is no image is refused at its first fault, and `Bytes.Rejected` says where that
is without reading it. The header comes first, then the tags of all blocks, then the records. Of
these the walk takes one after the other and stops in three ways: at a file whose contents do not
end in the data region, at the end of the records, or when it has all the trees of the root. The
records up to there are the pre-order of those trees, or the beginning of one. An unfinished
beginning is no pre-order, so that the counts alone tell where the walk stops.
-/

namespace TreeImage

theorem Except.bind_eq_error_iff {ε α β : Type} {x : Except ε α} {f : α → Except ε β} {e : ε} :
    (x >>= f) = .error e ↔ x = .error e ∨ ∃ a, x = .ok a ∧ f a = .error e := by
  cases x with
  | error e' => simp [bind, Except.bind]
  | ok a => simp [bind, Except.bind]

/-! ## Faults -/

namespace Record

/-- The block has one of the two tags. -/
def Tagged (block : Bytes) : Prop :=
  Bytes.toNat (Bytes.slice 0 2 block) = 0xBAE7 ∨ Bytes.toNat (Bytes.slice 0 2 block) = 0x7EAB

/-- The first `k` records are the pre-order of a forest of `count` trees. -/
def Closes (count : Nat) (records : List Record) (k : Nat) : Prop :=
  k ≤ records.length ∧ ∃ f, f.length = count ∧ Preorder (records.take k) f

/-- What is wrong with the records, and at which byte of the image: a file with contents outside the
data region, too few records for the trees of the root, too many, or another number of files than
the header says. -/
inductive Faulty (header : Header) (dataSize : Nat) (records : List Record) : Nat → Defect → Prop
  | extent {index : Nat} :
      IsLeast {i | ∃ r, records[i]? = some r ∧ ¬r.Within dataSize} index →
      (∀ k, Closes header.rootEntries.toNat records k → index < k) →
      Faulty header dataSize records (position index) .dataOutOfRange
  | missing :
      (∀ k, ¬Closes header.rootEntries.toNat records k) → (∀ r ∈ records, r.Within dataSize) →
      Faulty header dataSize records (position records.length) .missingRecords
  | unreachable {k : Nat} :
      IsLeast {k | Closes header.rootEntries.toNat records k} k → k < records.length →
      (∀ r ∈ records.take k, r.Within dataSize) →
      Faulty header dataSize records (position k) (.unreachableRecords (records.length - k))
  | fileCount :
      IsLeast {k | Closes header.rootEntries.toNat records k} records.length →
      (∀ r ∈ records, r.Within dataSize) →
      records.countP isFile ≠ header.fileCount.toNat →
      Faulty header dataSize records 4
        (.fileCountMismatch header.fileCount.toNat (records.countP isFile))

end Record

namespace Bytes

/-- The header says that the header region is made of whole blocks and ends in the text. -/
structure HasRegion (bs : Bytes) : Prop where
  start : Header.size ≤ (bs.wordAt 8).toNat
  stop : (bs.wordAt 8).toNat ≤ bs.length
  blocks : Record.size ∣ (bs.wordAt 8).toNat - Header.size

/-- The first fault of `bs`: the byte where it is, and what it is. -/
inductive Rejected (bs : Bytes) : Nat → Defect → Prop
  | truncated : bs.length < Header.size → Rejected bs 0 .truncatedHeader
  | totalSize : Header.size ≤ bs.length → (bs.wordAt 0).toNat ≠ bs.length →
      Rejected bs 0 (.sizeMismatch (bs.wordAt 0).toNat bs.length)
  | region : Header.size ≤ bs.length → (bs.wordAt 0).toNat = bs.length → ¬bs.HasRegion →
      Rejected bs 8 (.headerRegion (bs.wordAt 8).toNat)
  | tag {index : Nat} : (bs.wordAt 0).toNat = bs.length → bs.HasRegion →
      IsLeast {i | i < Record.blockCount bs ∧ ¬Record.Tagged (Record.block bs i)} index →
      Rejected bs (Record.position index) .unknownTag
  | records {offset : Nat} {defect : Defect} : (bs.wordAt 0).toNat = bs.length → bs.HasRegion →
      (∀ i < Record.blockCount bs, Record.Tagged (Record.block bs i)) →
      Record.Faulty ⟨bs.wordAt 0, bs.wordAt 4, bs.wordAt 8, bs.wordAt 12⟩
        (bs.length - (bs.wordAt 8).toNat) (Record.ofBlocks bs) offset defect →
      Rejected bs offset defect

end Bytes

/-! ## Beginnings of a pre-order -/

namespace Record

/-- The records begin the pre-order of `count` trees and break off before its end. -/
inductive Unfinished : Nat → List Record → Prop
  | nil (count : Nat) : Unfinished (count + 1) []
  | file {count : Nat} {records : List Record} (offset : UInt32) (name : String)
      (length : UInt32) : Unfinished count records →
      Unfinished (count + 1) (.file offset name length :: records)
  | inside {children : UInt32} {inner : List Record} (count : Nat) (name : String)
      (blockCount : UInt32) : Unfinished children.toNat inner →
      Unfinished (count + 1) (.directory children name blockCount :: inner)
  | behind {children : UInt32} {inner outer : List Record} {f : Forest Extent} {count : Nat}
      (name : String) (blockCount : UInt32) : f.length = children.toNat → Preorder inner f →
      Unfinished count outer →
      Unfinished (count + 1) (.directory children name blockCount :: (inner ++ outer))

/-- What breaks off does not begin with a whole pre-order. -/
theorem Unfinished.length_ne {count : Nat} {passed front rest : List Record} {f : Forest Extent}
    (h : Unfinished count passed) (hpassed : passed = front ++ rest) (hpre : Preorder front f) :
    f.length ≠ count := by
  intro hlength
  induction h generalizing front rest f with
  | nil count =>
    cases hpre with
    | nil => simp [Forest.length] at hlength
    | file => simp at hpassed
    | directory => simp at hpassed
  | file offset name length _ ih =>
    cases hpre with
    | nil => simp [Forest.length] at hlength
    | file offset' name' length' hothers =>
      exact ih (List.cons.inj hpassed).2 hothers (by simpa [Forest.length] using hlength)
    | directory => simp at hpassed
  | inside count name blockCount _ ih =>
    cases hpre with
    | nil => simp [Forest.length] at hlength
    | file => simp at hpassed
    | directory children' name' blockCount' hchildren hinner houter =>
      simp only [List.cons_append, List.cons.injEq, Record.directory.injEq,
        List.append_assoc] at hpassed
      rcases hpassed with ⟨⟨rfl, -, -⟩, hpassed⟩
      exact ih hpassed hinner hchildren
  | behind name blockCount hchildren hinner _ ih =>
    cases hpre with
    | nil => simp [Forest.length] at hlength
    | file => simp at hpassed
    | directory children' name' blockCount' hchildren' hinner' houter' =>
      simp only [List.cons_append, List.cons.injEq, Record.directory.injEq,
        List.append_assoc] at hpassed
      rcases hpassed with ⟨⟨rfl, -, -⟩, hpassed⟩
      obtain ⟨-, -, hbehind⟩ := hinner.unique hinner' (hchildren.trans hchildren'.symm) hpassed
      exact ih hbehind houter' (by simpa [Forest.length] using hlength)

/-- What the walk stops at: the end of the `total` records, or one whose contents lie outside. -/
inductive Halts (dataSize total : Nat) : List Record → Failure → Prop
  | atEnd : Halts dataSize total [] (.malformed (position total) .missingRecords)
  | atFile {r : Record} {rest : List Record} : ¬r.Within dataSize →
      Halts dataSize total (r :: rest)
        (.malformed (position (total - (rest.length + 1))) .dataOutOfRange)

end Record

/-- A walk that fails has passed the beginning of a pre-order, with all contents in the region. -/
theorem Forest.unfinished_of_read (data : DataRegion) (total : Nat) {count : Nat}
    {records : List Record} {failure : Failure}
    (h : read data total count records = .error failure) :
    ∃ passed rest, records = passed ++ rest ∧ Record.Unfinished count passed ∧
      (∀ r ∈ passed, r.Within data.size) ∧ Record.Halts data.size total rest failure := by
  induction count, records using ofRecords.induct data with
  | case1 records =>
    rw [read_zero] at h
    cases h
  | case2 count =>
    rw [read_nil] at h
    cases h
    exact ⟨[], [], rfl, .nil count, by simp, .atEnd⟩
  | case3 count offset name length records hrange =>
    rw [read_file, hrange] at h
    cases h
    refine ⟨[], .file offset name length :: records, rfl, .nil count, by simp, .atFile ?_⟩
    intro hwithin
    rw [data.range?_eq_some_iff.mpr ⟨hwithin, rfl⟩] at hrange
    cases hrange
  | case4 count offset name length records contents hrange ih =>
    rw [read_file, hrange, Except.bind_eq_error_iff] at h
    rcases h with hothers | ⟨result, -, hresult⟩
    · obtain ⟨passed, rest, rfl, hunfinished, hwithin, hhalts⟩ := ih hothers
      refine ⟨.file offset name length :: passed, rest, rfl, .file offset name length hunfinished,
        ?_, hhalts⟩
      simpa using ⟨(data.range?_eq_some_iff.mp hrange).1, hwithin⟩
    · cases hresult
  | case5 count children name blockCount records ihc ih =>
    rw [read_directory, Except.bind_eq_error_iff] at h
    rcases h with hinner | ⟨⟨inner, behind⟩, hinner, h⟩
    · obtain ⟨passed, rest, rfl, hunfinished, hwithin, hhalts⟩ := ihc hinner
      refine ⟨.directory children name blockCount :: passed, rest, rfl,
        .inside count name blockCount hunfinished, ?_, hhalts⟩
      simpa [Record.Within] using hwithin
    · obtain ⟨front, f, rfl, hpre, hlength, hfront, -⟩ := preorder_of_read data total hinner
      rcases Except.bind_eq_error_iff.mp h with hothers | ⟨result, -, hresult⟩
      · obtain ⟨passed, rest, rfl, hunfinished, hwithin, hhalts⟩ := ih behind (by simp) hothers
        refine ⟨.directory children name blockCount :: (front ++ passed), rest, by simp,
          .behind name blockCount hlength hpre hunfinished, ?_, hhalts⟩
        intro r hr
        rcases List.mem_cons.mp hr with rfl | hr
        · trivial
        · rcases List.mem_append.mp hr with hr | hr
          · exact hfront r hr
          · exact hwithin r hr
      · cases hresult

/-! ## The records together -/

namespace Record

namespace Closes

variable {count k : Nat} {records front rest : List Record} {f : Forest Extent}

theorem of_append (hpre : Preorder front f) (hlength : f.length = count) :
    Closes count (front ++ rest) front.length := by
  refine ⟨by simp, f, hlength, ?_⟩
  rw [List.take_left]
  exact hpre

/-- The records close in one place only. -/
theorem eq_length (h : Closes count (front ++ rest) k) (hpre : Preorder front f)
    (hlength : f.length = count) : k = front.length := by
  obtain ⟨hk, g, hg, hclosed⟩ := h
  have hcut : (front ++ rest).take k ++ (front ++ rest).drop k = front ++ rest :=
    List.take_append_drop k _
  obtain ⟨-, hfront, -⟩ := hclosed.unique hpre (hg.trans hlength.symm) hcut
  rw [← hfront, List.length_take, Nat.min_eq_left hk]

theorem isLeast (hpre : Preorder front f) (hlength : f.length = count) :
    IsLeast {k | Closes count (front ++ rest) k} front.length :=
  ⟨of_append hpre hlength, fun _ h => Nat.le_of_eq (h.eq_length hpre hlength).symm⟩

/-- Where the records close lies behind every beginning of theirs that breaks off. -/
theorem length_lt (h : Closes count (front ++ rest) k) (hfront : Unfinished count front) :
    front.length < k := by
  obtain ⟨-, g, hg, hclosed⟩ := h
  refine Nat.lt_of_not_le fun hle => ?_
  rw [List.take_append_of_le_length hle] at hclosed
  exact hfront.length_ne (List.take_append_drop k front).symm hclosed hg

end Closes

/-- A record whose contents lie outside does not stand among those whose contents do not. -/
theorem length_le_of_not_within {dataSize index : Nat} {passed rest : List Record} {r : Record}
    (hwithin : ∀ r ∈ passed, r.Within dataSize) (hr : (passed ++ rest)[index]? = some r)
    (houtside : ¬r.Within dataSize) : passed.length ≤ index := by
  refine Nat.le_of_not_lt fun hlt => houtside ?_
  rw [List.getElem?_append_left hlt] at hr
  exact hwithin r (List.mem_of_getElem? hr)

theorem Halts.faulty {header : Header} {dataSize : Nat} {passed rest : List Record}
    {failure : Failure} (h : Halts dataSize (passed ++ rest).length rest failure)
    (hunfinished : Unfinished header.rootEntries.toNat passed)
    (hwithin : ∀ r ∈ passed, r.Within dataSize) :
    ∃ offset defect, failure = .malformed offset defect ∧
      Faulty header dataSize (passed ++ rest) offset defect := by
  cases h with
  | atEnd =>
    refine ⟨_, _, rfl, .missing (fun k hk => ?_) (by simpa using hwithin)⟩
    have hlt := hk.length_lt hunfinished
    have hle := hk.1
    rw [List.append_nil] at hle
    omega
  | @atFile r rest houtside =>
    have hindex : (passed ++ r :: rest).length - (rest.length + 1) = passed.length := by simp
    rw [hindex]
    refine ⟨_, _, rfl, .extent ⟨⟨r, by simp, houtside⟩, ?_⟩ fun k hk => hk.length_lt hunfinished⟩
    intro i hi
    rcases hi with ⟨other, hother, hnot⟩
    exact length_le_of_not_within hwithin hother hnot

end Record

namespace Forest

variable (data : DataRegion) (header : Header) {records : List Record} {failure : Failure}

/-- Records that are refused have a fault. -/
theorem faulty_of_ofAllRecords (h : ofAllRecords data header records = .error failure) :
    ∃ offset defect, failure = .malformed offset defect ∧
      Record.Faulty header data.size records offset defect := by
  rw [ofAllRecords_eq_read, Except.bind_eq_error_iff] at h
  rcases h with hread | ⟨⟨entries, rest⟩, hread, h⟩
  · obtain ⟨passed, rest, rfl, hunfinished, hwithin, hhalts⟩ := unfinished_of_read data _ hread
    exact hhalts.faulty hunfinished hwithin
  · obtain ⟨front, f, rfl, hpre, hlength, hwithin, -⟩ := preorder_of_read data _ hread
    have hleast : IsLeast {k | Record.Closes header.rootEntries.toNat (front ++ rest) k}
        front.length := Record.Closes.isLeast hpre hlength
    dsimp only at h
    split at h
    · next hrest =>
      cases h
      have hpositive : 0 < rest.length := List.length_pos_iff.mpr hrest
      have hk : (front ++ rest).length - rest.length = front.length := by simp
      have hcount : rest.length = (front ++ rest).length - front.length := by simp
      rw [hk, hcount]
      refine ⟨_, _, rfl, .unreachable hleast (by simpa using hpositive) ?_⟩
      rw [List.take_left]
      exact hwithin
    · next hrest =>
      split at h
      · next hcount =>
        cases h
        rw [Decidable.not_not] at hrest
        subst hrest
        rw [List.append_nil] at hleast hcount ⊢
        exact ⟨_, _, rfl, .fileCount hleast hwithin hcount⟩
      · cases h

/-- The walk comes to a halt where no pre-order of the trees of the root has all its contents in the
data region. -/
theorem exists_halts {count : Nat} (h : ∀ k, Record.Closes count records k →
      ∃ i r, i < k ∧ records[i]? = some r ∧ ¬r.Within data.size) :
    ∃ passed rest failure, records = passed ++ rest ∧ (∀ r ∈ passed, r.Within data.size) ∧
      Record.Halts data.size records.length rest failure ∧
      read data records.length count records = .error failure := by
  cases hread : read data records.length count records with
  | ok result =>
    obtain ⟨entries, rest⟩ := result
    obtain ⟨front, f, rfl, hpre, hlength, hwithin, -⟩ := preorder_of_read data _ hread
    obtain ⟨i, r, hlt, hr, houtside⟩ := h _ (Record.Closes.of_append hpre hlength)
    rw [List.getElem?_append_left hlt] at hr
    exact absurd (hwithin r (List.mem_of_getElem? hr)) houtside
  | error failure =>
    obtain ⟨passed, rest, hrecords, -, hwithin, hhalts⟩ := unfinished_of_read data _ hread
    exact ⟨passed, rest, failure, hrecords, hwithin, hhalts, rfl⟩

/-- Records with a fault are refused for it. -/
theorem ofAllRecords_of_faulty {offset : Nat} {defect : Defect}
    (h : Record.Faulty header data.size records offset defect) :
    ofAllRecords data header records = .error (.malformed offset defect) := by
  rw [ofAllRecords_eq_read]
  cases h with
  | @extent index hleast hbefore =>
    obtain ⟨⟨r, hr, houtside⟩, hfirst⟩ := hleast
    obtain ⟨passed, rest, failure, rfl, hwithin, hhalts, hread⟩ :=
      exists_halts data fun k hk => ⟨index, r, hbefore k hk, hr, houtside⟩
    rw [hread]
    cases hhalts with
    | atEnd =>
      rw [List.append_nil] at hr
      exact absurd (hwithin r (List.mem_of_getElem? hr)) houtside
    | @atFile other rest hother =>
      have hle : index ≤ passed.length := hfirst ⟨other, by simp, hother⟩
      have hge := Record.length_le_of_not_within hwithin hr houtside
      have hindex : (passed ++ other :: rest).length - (rest.length + 1) = index := by
        rw [List.length_append, List.length_cons]
        omega
      rw [hindex]
      rfl
  | missing hnone hwithin =>
    obtain ⟨passed, rest, failure, rfl, -, hhalts, hread⟩ :=
      exists_halts data fun k hk => absurd hk (hnone k)
    rw [hread]
    cases hhalts with
    | atEnd => rfl
    | @atFile other rest hother => exact absurd (hwithin other (by simp)) hother
  | @unreachable k hleast hlt hwithin =>
    obtain ⟨-, f, hlength, hpre⟩ := hleast.1
    have hread := read_of_preorder data records.length hpre hwithin (records.drop k)
    rw [List.take_append_drop, hlength] at hread
    have hrest : records.drop k ≠ [] := by
      rw [Ne, List.drop_eq_nil_iff]
      omega
    have hdropped : (records.drop k).length = records.length - k := List.length_drop
    have hk : records.length - (records.length - k) = k := by omega
    rw [hread]
    simp only [bind, Except.bind, if_pos hrest, hdropped, hk]
  | fileCount hleast hwithin hcount =>
    obtain ⟨-, f, hlength, hpre⟩ := hleast.1
    rw [List.take_length] at hpre
    have hread := read_of_preorder data records.length hpre hwithin []
    rw [List.append_nil, hlength] at hread
    rw [hread]
    simp only [bind, Except.bind, ne_eq, not_true_eq_false, if_false, if_pos hcount]

end Forest

/-! ## Whole images -/

namespace Record

/-- The blocks behind the header are those of the header region. -/
theorem slice_drop_header (bs : Bytes) (index : Nat) :
    Bytes.slice (size * index) size (bs.drop Header.size) = block bs index := by
  rw [block, position, Bytes.slice, Bytes.slice, List.drop_drop]

theorem slice_first (bs : Bytes) : Bytes.slice (size * 0) size bs = bs.take size := by
  simp [Bytes.slice]

theorem slice_later (index : Nat) (bs : Bytes) :
    Bytes.slice (size * (index + 1)) size bs =
      Bytes.slice (size * index) size (bs.drop size) := by
  rw [Bytes.slice, Bytes.slice, List.drop_drop, Nat.mul_succ, Nat.add_comm]

/-- Decoding fails at the first block without a known tag. -/
theorem decodeMany_eq_error_iff {index count : Nat} {bs : Bytes} {failure : Failure} :
    decodeMany index count bs = .error failure ↔
      ∃ i < count, (∀ j < i, ∃ r, decode? (Bytes.slice (size * j) size bs) = some r) ∧
        decode? (Bytes.slice (size * i) size bs) = none ∧
        failure = .malformed (position (index + i)) .unknownTag := by
  induction count generalizing index bs with
  | zero => simp [decodeMany]
  | succ count ih =>
    rw [decodeMany]
    cases hdecode : decode? (bs.take size) with
    | none =>
      simp only [Except.error.injEq]
      constructor
      · intro h
        exact ⟨0, Nat.succ_pos _, by simp, by rw [slice_first, hdecode], h.symm⟩
      · intro h
        rcases h with ⟨i, -, hbefore, -, hfailure⟩
        cases i with
        | zero => exact hfailure.symm
        | succ i =>
          obtain ⟨r, hr⟩ := hbefore 0 (Nat.succ_pos _)
          rw [slice_first, hdecode] at hr
          cases hr
    | some record =>
      simp only [Except.bind_eq_error_iff, ih]
      constructor
      · intro h
        rcases h with ⟨i, hi, hbefore, hnone, hfailure⟩ | ⟨others, -, hothers⟩
        · refine ⟨i + 1, Nat.succ_lt_succ hi, ?_, by rw [slice_later, hnone], ?_⟩
          · intro j hj
            cases j with
            | zero => exact ⟨record, by rw [slice_first, hdecode]⟩
            | succ j =>
              rw [slice_later]
              exact hbefore j (Nat.lt_of_succ_lt_succ hj)
          · rw [hfailure, Nat.add_assoc, Nat.add_comm 1 i]
        · cases hothers
      · intro h
        rcases h with ⟨i, hi, hbefore, hnone, hfailure⟩
        cases i with
        | zero =>
          rw [slice_first, hdecode] at hnone
          cases hnone
        | succ i =>
          rw [slice_later] at hnone
          refine .inl ⟨i, Nat.lt_of_succ_lt_succ hi, fun j hj => ?_, hnone, ?_⟩
          · rw [← slice_later]
            exact hbefore (j + 1) (Nat.succ_lt_succ hj)
          · rw [hfailure, Nat.add_assoc, Nat.add_comm 1 i]

theorem Faulty.offset_le {header : Header} {dataSize offset : Nat} {records : List Record}
    {defect : Defect} (h : Faulty header dataSize records offset defect) :
    offset ≤ position records.length := by
  have hmono : ∀ {k}, k ≤ records.length → position k ≤ position records.length := by
    intro k hk
    exact Nat.add_le_add_left (Nat.mul_le_mul_left size hk) _
  cases h with
  | extent hleast =>
    obtain ⟨⟨r, hr, -⟩, -⟩ := hleast
    exact hmono (Nat.le_of_lt (List.getElem?_eq_some_iff.mp hr).1)
  | missing => exact Nat.le_refl _
  | unreachable _ hlt => exact hmono (Nat.le_of_lt hlt)
  | fileCount => exact Nat.le_trans (by decide) (Nat.le_add_right Header.size _)

end Record

namespace Bytes

variable {bs : Bytes}

theorem HasRegion.header (h : bs.HasRegion) : Header.size ≤ bs.length :=
  Nat.le_trans h.start h.stop

theorem HasRegion.position_blockCount (h : bs.HasRegion) :
    Record.position (Record.blockCount bs) = (bs.wordAt 8).toNat := by
  have hstart := h.start
  rw [Record.position, Record.blockCount, Nat.mul_div_cancel' h.blocks]
  omega

theorem HasRegion.tagged_iff (h : bs.HasRegion) {index : Nat}
    (hindex : index < Record.blockCount bs) :
    Record.Tagged (Record.block bs index) ↔ ∃ r, Record.decode? (Record.block bs index) = some r :=
  (Record.decode?_block_isSome_iff h.start h.stop hindex).symm

/-- The header region is refused if it is not made of whole blocks in the text. -/
theorem hasRegion_iff :
    bs.HasRegion ↔ ¬((bs.wordAt 8).toNat < Header.size ∨
      ((bs.wordAt 8).toNat - Header.size) % Record.size ≠ 0 ∨ bs.length < (bs.wordAt 8).toNat) := by
  constructor
  · intro h
    have hmod := Nat.mod_eq_zero_of_dvd h.blocks
    have hstart := h.start
    have hstop := h.stop
    omega
  · intro h
    simp only [not_or, Nat.not_lt, Decidable.not_not] at h
    exact ⟨h.1, h.2.2, Nat.dvd_of_mod_eq_zero h.2.1⟩

theorem Rejected.offset_le {offset : Nat} {defect : Defect} (h : bs.Rejected offset defect) :
    offset ≤ bs.length := by
  cases h with
  | truncated => exact Nat.zero_le _
  | totalSize => exact Nat.zero_le _
  | region hheader => exact Nat.le_trans (by decide) hheader
  | tag _ hregion hleast =>
    refine Nat.le_trans ?_ hregion.stop
    rw [← hregion.position_blockCount]
    exact Nat.add_le_add_left (Nat.mul_le_mul_left _ (Nat.le_of_lt hleast.1.1)) _
  | records _ hregion _ hfaulty =>
    refine Nat.le_trans hfaulty.offset_le (Nat.le_trans ?_ hregion.stop)
    rw [← hregion.position_blockCount]
    refine Nat.add_le_add_left (Nat.mul_le_mul_left _ ?_) _
    exact Nat.le_trans (List.length_filterMap_le _ _) (Nat.le_of_eq List.length_range)

end Bytes

/-- Decoding the blocks of the header region fails at the first one without a known tag. -/
theorem decodeMany_blocks_eq_error_iff {bs : Bytes} (h : bs.HasRegion) {failure : Failure} :
    Record.decodeMany 0 (Record.blockCount bs) (bs.drop Header.size) = .error failure ↔
      ∃ index, failure = .malformed (Record.position index) .unknownTag ∧
        IsLeast {i | i < Record.blockCount bs ∧ ¬Record.Tagged (Record.block bs i)} index := by
  simp only [Record.decodeMany_eq_error_iff, Record.slice_drop_header, Nat.zero_add]
  constructor
  · intro hblocks
    rcases hblocks with ⟨index, hindex, hbefore, hnone, hfailure⟩
    refine ⟨index, hfailure, ⟨hindex, ?_⟩, ?_⟩
    · rw [h.tagged_iff hindex, hnone]
      simp
    · intro i hi
      rcases hi with ⟨hlt, hnot⟩
      rw [h.tagged_iff hlt] at hnot
      exact Nat.le_of_not_lt fun hearlier => hnot (hbefore i hearlier)
  · intro hleast
    rcases hleast with ⟨index, hfailure, ⟨hindex, hnot⟩, hfirst⟩
    refine ⟨index, hindex, fun i hi => ?_, ?_, hfailure⟩
    · have hlt := Nat.lt_trans hi hindex
      rw [← h.tagged_iff hlt]
      by_cases htagged : Record.Tagged (Record.block bs i)
      · exact htagged
      · exact absurd (hfirst ⟨hlt, htagged⟩) (Nat.not_le.mpr hi)
    · rw [h.tagged_iff hindex] at hnot
      simpa [Option.eq_none_iff_forall_ne_some] using hnot

namespace Reading

variable {bs : Bytes} {failure : Failure}

theorem ofBytes_of_truncated (h : bs.length < Header.size) :
    ofBytes bs = .error (.malformed 0 .truncatedHeader) := by
  rw [ofBytes, Header.decode?, if_pos h]

theorem ofBytes_of_totalSize (hheader : Header.size ≤ bs.length)
    (htotal : (bs.wordAt 0).toNat ≠ bs.length) :
    ofBytes bs = .error (.malformed 0 (.sizeMismatch (bs.wordAt 0).toNat bs.length)) := by
  rw [ofBytes, Header.decode?_eq_some_iff.mpr ⟨hheader, rfl⟩]
  exact if_pos htotal

theorem ofBytes_of_not_hasRegion (hheader : Header.size ≤ bs.length)
    (htotal : (bs.wordAt 0).toNat = bs.length) (hregion : ¬bs.HasRegion) :
    ofBytes bs = .error (.malformed 8 (.headerRegion (bs.wordAt 8).toNat)) := by
  rw [ofBytes, Header.decode?_eq_some_iff.mpr ⟨hheader, rfl⟩]
  dsimp only
  rw [if_neg (by simpa using htotal),
    if_pos (Decidable.not_not.mp (mt Bytes.hasRegion_iff.mpr hregion))]

/-- With a header region, the blocks are decoded and the records are taken. -/
theorem ofBytes_of_hasRegion (htotal : (bs.wordAt 0).toNat = bs.length) (hregion : bs.HasRegion) :
    ofBytes bs = (do
      let records ← Record.decodeMany 0 (Record.blockCount bs) (bs.drop Header.size)
      let entries ← Forest.ofAllRecords { bytes := bs.drop (bs.wordAt 8).toNat }
        ⟨bs.wordAt 0, bs.wordAt 4, bs.wordAt 8, bs.wordAt 12⟩ records
      return ⟨⟨bs.wordAt 0, bs.wordAt 4, bs.wordAt 8, bs.wordAt 12⟩, entries, records⟩) := by
  rw [ofBytes, Header.decode?_eq_some_iff.mpr ⟨hregion.header, rfl⟩]
  dsimp only
  rw [if_neg (by simpa using htotal), if_neg (Bytes.hasRegion_iff.mp hregion)]
  rfl

/-- With a header region, it is the tags or the records that a text is refused for. -/
theorem rejected_of_hasRegion (htotal : (bs.wordAt 0).toNat = bs.length) (hregion : bs.HasRegion)
    (h : ofBytes bs = .error failure) :
    ∃ offset defect, failure = .malformed offset defect ∧ bs.Rejected offset defect := by
  rw [ofBytes_of_hasRegion htotal hregion, Except.bind_eq_error_iff] at h
  rcases h with hblocks | ⟨records, hrecords, h⟩
  · obtain ⟨index, hfailure, hleast⟩ := (decodeMany_blocks_eq_error_iff hregion).mp hblocks
    exact ⟨_, _, hfailure, .tag htotal hregion hleast⟩
  · obtain ⟨htags, rfl⟩ :=
      (decodeMany_blocks_eq_ok_iff hregion.start hregion.stop).mp hrecords
    rcases Except.bind_eq_error_iff.mp h with hforest | ⟨entries, -, hresult⟩
    · obtain ⟨offset, defect, hfailure, hfaulty⟩ := Forest.faulty_of_ofAllRecords _ _ hforest
      dsimp only at hfaulty
      rw [List.length_drop] at hfaulty
      exact ⟨offset, defect, hfailure, .records htotal hregion htags hfaulty⟩
    · cases hresult

theorem rejected_of_ofBytes (h : ofBytes bs = .error failure) :
    ∃ offset defect, failure = .malformed offset defect ∧ bs.Rejected offset defect := by
  by_cases hheader : Header.size ≤ bs.length
  case neg =>
    rw [ofBytes_of_truncated (Nat.lt_of_not_le hheader)] at h
    cases h
    exact ⟨_, _, rfl, .truncated (Nat.lt_of_not_le hheader)⟩
  by_cases htotal : (bs.wordAt 0).toNat = bs.length
  case neg =>
    rw [ofBytes_of_totalSize hheader htotal] at h
    cases h
    exact ⟨_, _, rfl, .totalSize hheader htotal⟩
  by_cases hregion : bs.HasRegion
  case neg =>
    rw [ofBytes_of_not_hasRegion hheader htotal hregion] at h
    cases h
    exact ⟨_, _, rfl, .region hheader htotal hregion⟩
  exact rejected_of_hasRegion htotal hregion h

theorem ofBytes_of_rejected {offset : Nat} {defect : Defect} (h : bs.Rejected offset defect) :
    ofBytes bs = .error (.malformed offset defect) := by
  cases h with
  | truncated hshort => exact ofBytes_of_truncated hshort
  | totalSize hheader htotal => exact ofBytes_of_totalSize hheader htotal
  | region hheader htotal hregion => exact ofBytes_of_not_hasRegion hheader htotal hregion
  | tag htotal hregion hleast =>
    have hblocks := (decodeMany_blocks_eq_error_iff hregion).mpr ⟨_, rfl, hleast⟩
    rw [ofBytes_of_hasRegion htotal hregion, hblocks]
    rfl
  | records htotal hregion htags hfaulty =>
    have hblocks := (decodeMany_blocks_eq_ok_iff hregion.start hregion.stop).mpr ⟨htags, rfl⟩
    rw [← List.length_drop] at hfaulty
    have hforest := Forest.ofAllRecords_of_faulty { bytes := bs.drop (bs.wordAt 8).toNat } _ hfaulty
    rw [ofBytes_of_hasRegion htotal hregion, hblocks]
    show (Forest.ofAllRecords _ _ _ >>= _) = _
    rw [hforest]
    rfl

/-- A text that is not read is refused for its first fault, at the byte where that is. -/
theorem ofBytes_refuses_first_fault (bs : Bytes) (failure : Failure) :
    ofBytes bs = .error failure ↔
      ∃ offset defect, failure = .malformed offset defect ∧ offset ≤ bs.length ∧
        bs.Rejected offset defect := by
  constructor
  · intro h
    obtain ⟨offset, defect, hfailure, hrejected⟩ := rejected_of_ofBytes h
    exact ⟨offset, defect, hfailure, hrejected.offset_le, hrejected⟩
  · intro h
    rcases h with ⟨offset, defect, rfl, -, hrejected⟩
    exact ofBytes_of_rejected hrejected

end Reading

end TreeImage
