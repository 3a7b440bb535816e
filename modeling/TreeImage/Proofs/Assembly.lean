import TreeImage.Proofs.Grammar
import TreeImage.Proofs.RecordCodec

/-!
# Reading what was put together

A header, records and data that were set one behind the other are read back from their bytes: the
header says where the data begin, and every record has its block. What is left of the grammar is
whether the records are a pre-order and their extents lie in the data.
-/

namespace TreeImage

namespace Record

@[simp] theorem childCount?_rename (f : String → String) (r : Record) :
    (r.rename f).childCount? = r.childCount? := by
  cases r <;> rfl

@[simp] theorem isFile_rename (f : String → String) (r : Record) :
    (r.rename f).isFile = r.isFile := by
  cases r <;> rfl

@[simp] theorem within_rename (f : String → String) (dataSize : Nat) (r : Record) :
    (r.rename f).Within dataSize ↔ r.Within dataSize := by
  cases r <;> rfl

theorem length_flatMap_encode {records : List Record} (hfits : ∀ r ∈ records, r.Fits) :
    (records.flatMap encode).length = size * records.length := by
  induction records with
  | nil => rfl
  | cons r records ih =>
    have hfirst := length_encode_of_fits (hfits r (List.mem_cons_self ..))
    have hrest := ih fun r hr => hfits r (List.mem_cons_of_mem _ hr)
    rw [List.flatMap_cons, List.length_append, hfirst, hrest, List.length_cons, Nat.mul_succ,
      Nat.add_comm]

theorem flatMap_encode_eq_nil_iff {records : List Record} (hfits : ∀ r ∈ records, r.Fits) :
    records.flatMap encode = [] ↔ records = [] := by
  rw [← List.length_eq_zero_iff, length_flatMap_encode hfits, Nat.mul_eq_zero,
    List.length_eq_zero_iff]
  simp [size]

/-- Records that were written one behind the other have the same bytes just if they differ in no
more than the NUL characters at the ends of their names. -/
theorem flatMap_encode_inj {records records' : List Record} (hfits : ∀ r ∈ records, r.Fits)
    (hfits' : ∀ r ∈ records', r.Fits) :
    records.flatMap encode = records'.flatMap encode ↔
      records.map (rename Text.trimNul) = records'.map (rename Text.trimNul) := by
  induction records generalizing records' with
  | nil =>
    rw [List.flatMap_nil, List.map_nil, List.nil_eq, List.nil_eq, flatMap_encode_eq_nil_iff hfits',
      List.map_eq_nil_iff]
  | cons r records ih =>
    cases records' with
    | nil =>
      rw [List.flatMap_nil, flatMap_encode_eq_nil_iff hfits, List.map_nil, List.map_eq_nil_iff]
    | cons r' records' =>
      have hr := hfits r (List.mem_cons_self ..)
      have hr' := hfits' r' (List.mem_cons_self ..)
      have hlength : r.encode.length = r'.encode.length := by
        rw [length_encode_of_fits hr, length_encode_of_fits hr']
      have hrest := ih (fun s hs => hfits s (List.mem_cons_of_mem _ hs))
        (fun s hs => hfits' s (List.mem_cons_of_mem _ hs))
      rw [List.map_cons, List.map_cons, List.cons.injEq, ← encode_inj hr hr', ← hrest]
      constructor
      · intro h
        exact List.append_inj h hlength
      · intro h
        rcases h with ⟨hfirst, hothers⟩
        rw [List.flatMap_cons, List.flatMap_cons, hfirst, hothers]

/-- Records that were written one behind the other are all read back, with their names cut. -/
theorem decodeMany_flatMap_encode {records : List Record} (hfits : ∀ r ∈ records, r.Fits)
    (index : Nat) (rest : Bytes) :
    decodeMany index records.length (records.flatMap encode ++ rest) =
      .ok (records.map (rename Text.untilNul)) := by
  induction records generalizing index with
  | nil => rfl
  | cons r records ih =>
    have hr := hfits r (List.mem_cons_self ..)
    have hothers := ih (fun r hr => hfits r (List.mem_cons_of_mem _ hr)) (index + 1)
    have htake : (r.encode ++ (records.flatMap encode ++ rest)).take size = r.encode := by
      rw [← length_encode_of_fits hr, List.take_left]
    have hdrop : (r.encode ++ (records.flatMap encode ++ rest)).drop size =
        records.flatMap encode ++ rest := by
      rw [← length_encode_of_fits hr, List.drop_left]
    rw [List.length_cons, decodeMany, List.flatMap_cons, List.append_assoc, htake, hdrop,
      decode?_encode_of_fits hr]
    dsimp only
    rw [hothers]
    rfl

end Record

namespace Bytes

/-- `bs` is a header, records and data, and the header is right about their sizes. -/
structure Assembled (header : Header) (records : List Record) (data bs : Bytes) : Prop where
  fits : ∀ r ∈ records, r.Fits
  headerSize : header.headerSize.toNat = Record.position records.length
  totalSize : header.totalSize.toNat = Record.position records.length + data.length
  bytes : bs = header.encode ++ records.flatMap Record.encode ++ data

namespace Assembled

variable {header : Header} {records : List Record} {data bs : Bytes}

theorem header_eq (h : Assembled header records data bs) :
    header = ⟨bs.wordAt 0, bs.wordAt 4, bs.wordAt 8, bs.wordAt 12⟩ := by
  obtain ⟨-, hheader⟩ := Header.decode?_eq_some_iff.mp (Header.decode?_encode header
    (records.flatMap Record.encode ++ data))
  rw [← List.append_assoc, ← h.bytes] at hheader
  exact hheader

theorem region (h : Assembled header records data bs) :
    (bs.wordAt 8).toNat = Record.position records.length := by
  have hword : bs.wordAt 8 = header.headerSize := (congrArg Header.headerSize h.header_eq).symm
  rw [hword, h.headerSize]

theorem length_front (h : Assembled header records data bs) :
    (header.encode ++ records.flatMap Record.encode).length = Record.position records.length := by
  rw [List.length_append, Header.length_encode, Record.length_flatMap_encode h.fits,
    Record.position]

theorem length_eq (h : Assembled header records data bs) :
    bs.length = Record.position records.length + data.length := by
  rw [h.bytes, List.length_append, h.length_front]

theorem regionStart (h : Assembled header records data bs) :
    Header.size ≤ (bs.wordAt 8).toNat := by
  rw [h.region, Record.position]
  exact Nat.le_add_right _ _

theorem regionEnd (h : Assembled header records data bs) : (bs.wordAt 8).toNat ≤ bs.length := by
  rw [h.region, h.length_eq]
  exact Nat.le_add_right _ _

theorem drop_region (h : Assembled header records data bs) :
    bs.drop (bs.wordAt 8).toNat = data := by
  rw [h.region, ← h.length_front, h.bytes, List.drop_left]

theorem extent_eq (h : Assembled header records data bs) :
    bs.extent = DataRegion.read { bytes := data } := by
  funext extent
  rw [Bytes.extent, DataRegion.read, slice, slice, ← List.drop_drop, h.drop_region]

/-- Every block is that of a record, and decoded with its name cut. -/
theorem blocks (h : Assembled header records data bs) :
    (∀ index < Record.blockCount bs,
      toNat (slice 0 2 (Record.block bs index)) = 0xBAE7 ∨
        toNat (slice 0 2 (Record.block bs index)) = 0x7EAB) ∧
      records.map (Record.rename Text.untilNul) = Record.ofBlocks bs := by
  rw [← Reading.decodeMany_blocks_eq_ok_iff h.regionStart h.regionEnd]
  have hcount : Record.blockCount bs = records.length := by
    rw [Record.blockCount, h.region, Record.position, Nat.add_sub_cancel_left]
    exact Nat.mul_div_cancel_left _ (by decide)
  have hdrop : bs.drop Header.size = records.flatMap Record.encode ++ data := by
    rw [h.bytes, List.append_assoc, ← Header.length_encode header, List.drop_left]
  rw [hcount, hdrop]
  exact Record.decodeMany_flatMap_encode h.fits 0 data

theorem isImage_iff (h : Assembled header records data bs) :
    bs.IsImage ↔ records.countP Record.isFile = header.fileCount.toNat ∧
      (∀ r ∈ records, r.Within data.length) ∧
      ∃ f, f.length = header.rootEntries.toNat ∧
        Record.Preorder (records.map (Record.rename Text.untilNul)) f := by
  obtain ⟨htags, hblocks⟩ := h.blocks
  have hfileCount : header.fileCount = bs.wordAt 4 := congrArg Header.fileCount h.header_eq
  have hroots : header.rootEntries = bs.wordAt 12 := congrArg Header.rootEntries h.header_eq
  have hdata : bs.length - (bs.wordAt 8).toNat = data.length := by
    rw [← List.length_drop, h.drop_region]
  have hfiles : (Record.ofBlocks bs).countP Record.isFile = records.countP Record.isFile := by
    rw [← hblocks, List.countP_map]
    simp [Function.comp_def]
  have hwithin : (∀ r ∈ Record.ofBlocks bs, r.Within data.length) ↔
      ∀ r ∈ records, r.Within data.length := by
    rw [← hblocks]
    simp
  rw [hblocks, hfileCount, hroots, ← hfiles, ← hwithin, ← hdata]
  constructor
  · intro himage
    exact ⟨himage.fileCount, himage.extents, himage.forest⟩
  · intro hrecords
    rcases hrecords with ⟨hcount, hextents, hforest⟩
    have htotal : header.totalSize = bs.wordAt 0 := congrArg Header.totalSize h.header_eq
    exact {
      header := Nat.le_trans h.regionStart h.regionEnd
      totalSize := by rw [← htotal, h.totalSize, h.length_eq]
      regionStart := h.regionStart
      regionEnd := h.regionEnd
      regionBlocks := by
        rw [h.region, Record.position, Nat.add_sub_cancel_left]
        exact Nat.dvd_mul_right _ _
      tags := htags
      forest := hforest
      extents := hextents
      fileCount := hcount }

/-- What was put together is read if its records are a pre-order of as many trees as the header
says, with all extents in the data and the right number of files. -/
theorem ofBytes_eq_ok_iff (h : Assembled header records data bs) {reading : Reading} :
    Reading.ofBytes bs = .ok reading ↔
      reading.header = header ∧ reading.records = records.map (Record.rename Text.untilNul) ∧
      records.countP Record.isFile = header.fileCount.toNat ∧
      (∀ r ∈ records, r.Within data.length) ∧
      ∃ f, f.length = header.rootEntries.toNat ∧
        Record.Preorder (records.map (Record.rename Text.untilNul)) f ∧
        reading.entries = f.map (DataRegion.read { bytes := data }) := by
  have hroots : bs.wordAt 12 = header.rootEntries :=
    (congrArg Header.rootEntries h.header_eq).symm
  rw [Reading.ofBytes_eq_ok_iff, h.isImage_iff, ← h.header_eq, ← h.blocks.2, h.extent_eq, hroots]
  constructor
  · intro himage
    rcases himage with ⟨⟨hcount, hwithin, -⟩, hheader, hrecords, hforest⟩
    exact ⟨hheader, hrecords, hcount, hwithin, hforest⟩
  · intro hparts
    rcases hparts with ⟨hheader, hrecords, hcount, hwithin, f, hlength, hpre, hentries⟩
    exact ⟨⟨hcount, hwithin, f, hlength, hpre⟩, hheader, hrecords, f, hlength, hpre, hentries⟩

end Assembled

end Bytes

end TreeImage
