import TreeImage.Proofs.Canonical
import TreeImage.Proofs.Collisions
import TreeImage.Proofs.Loading

/-!
# Building what was read

A canonical image that was read and loaded into a fresh store is built again, byte for byte. The
store has just the forest that was read, an image can hold it, since one did, and there is one
image of it.
-/

namespace TreeImage

namespace Record.PlainName

variable {bytes : Bytes}

theorem isNormal (h : PlainName bytes) : IsNormal (Text.ofUtf8Lossy bytes) := by
  have hpart : Component.ofPart bytes = .normal bytes := by
    have hdot : bytes ≠ Path.dot := h.ne_dot
    have hdots : bytes ≠ Path.dotDot := h.ne_dots
    rw [Component.ofPart, if_neg hdot, if_neg hdots]
  exact Component.IsNormal.listed ⟨h.ne_nil, h.noSlash, hpart⟩

theorem nameDefect?_eq_none (h : PlainName bytes) :
    nameDefect? (Text.ofUtf8Lossy bytes) = none := by
  have hascii : (Text.ofUtf8Lossy bytes).toList.all (·.toNat < 128) = true := by
    rw [List.all_eq_true, Text.ofUtf8Lossy, Text.decodeLossy_ascii h.ascii, String.toList_ofList]
    intro c hc
    obtain ⟨b, hb, rfl⟩ := List.mem_map.mp hc
    rw [Text.toNat_ofNat_ascii (h.ascii b hb)]
    exact decide_eq_true (h.ascii b hb)
  rw [nameDefect?, if_neg (not_not_intro hascii), Text.utf8_ofUtf8Lossy_ascii h.ascii,
    if_neg (Nat.not_lt.mpr h.length_le)]

end Record.PlainName

/-- A forest that an image holds can be stored again, if its names are not refused. -/
theorem Image.Holds.storable {image : Image} {g : Forest Bytes} (h : image.Holds g)
    (hnames : ∀ name ∈ g.names, nameDefect? name = none) : g.Storable := by
  refine ⟨hnames, ?_⟩
  have htotal := h.assembled.totalSize
  rw [Forest.length_records] at htotal
  rw [← htotal]
  exact image.header.totalSize.toNat_lt

namespace Store

variable {root : Path} {g : Forest Bytes}

/-- A forest that was loaded into a fresh store is just what the store has below its root. -/
theorem below_of_loading (hroot : root.bytes ≠ []) (hnormal : ∀ name ∈ g.names, IsNormal name)
    (hdistinct : g.Distinct) :
    (ofEdits (.addDirectory root :: g.edits root)).Below root.address (g.map some) := by
  have hnone : ∀ address, empty.node? address = none := fun _ => rfl
  have hnode : (empty.addDirectory root).node? root.address = some (.directory []) := by
    rw [addDirectory, hnone, if_neg (by simp), node?_setNode, if_pos rfl]
  have hfree : (empty.addDirectory root).Free root.address g.tops := by
    intro name _ other hother
    have hlength := hother.length_le
    rw [List.length_cons] at hlength
    rw [addDirectory_eq, empty.node?_ensure_of_length_lt (by omega), hnone]
  have hloaded := loaded_edits (Path.address_ne_nil hroot) hnode hnormal hdistinct hfree
  refine ⟨?_, hloaded.carries⟩
  rw [Forest.tops_map]
  exact hloaded.listed

end Store

/-- Whatever was read of a canonical image is loaded into a fresh store and built again, byte for
byte. -/
theorem Reading.rebuilds {bs : Bytes} {reading : Reading}
    (hread : Reading.ofBytes bs = .ok reading) (hcanonical : bs.Canonical reading) (root : Path)
    (hroot : root.bytes ≠ []) (extra : Nat) :
    ∃ image, ((Image.build
        ((Store.ofEdits (.addDirectory root :: reading.entries.edits root)).depth + extra) root).run
        Store.respond (Store.ofEdits (.addDirectory root :: reading.entries.edits root))).outcome =
          .done image ∧ image.bytes = bs := by
  have hnormal : ∀ name ∈ reading.entries.names, IsNormal name := by
    intro name hname
    obtain ⟨bytes, hplain, rfl⟩ := hcanonical.exists_plainName hread hname
    exact hplain.isNormal
  have haccepted : ∀ name ∈ reading.entries.names, nameDefect? name = none := by
    intro name hname
    obtain ⟨bytes, hplain, rfl⟩ := hcanonical.exists_plainName hread hname
    exact hplain.nameDefect?_eq_none
  have hbelow := Store.below_of_loading hroot hnormal hcanonical.siblings
  have horder := Store.hierarchical_ofEdits (.addDirectory root :: reading.entries.edits root)
  generalize Store.ofEdits (.addDirectory root :: reading.entries.edits root) = s
    at hbelow horder ⊢
  have holds := hcanonical.holds hread []
  have hends := hbelow.build_ends horder extra
  rw [Forest.filled_map_some] at hends
  rcases hends with ⟨⟨image, hbuilt⟩, -⟩ | ⟨-, hnot⟩
  · have himage := hbelow.holds horder hbuilt
    rw [Forest.filled_map_some] at himage
    exact ⟨image, hbuilt, (himage.bytes_eq_iff holds).mpr rfl⟩
  · exact absurd (holds.storable haccepted) hnot

/-! ## A small image -/

namespace Reading

/-- A directory with one file of two bytes in it. -/
def sample : Reading where
  header := ⟨178, 1, 176, 1⟩
  entries := .directory "d" (.file "f" [1, 2] .nil) .nil
  records := [.directory 1 "d" 1, .file 0 "f" 2]

def sampleBytes : Bytes :=
  sample.header.encode ++ sample.records.flatMap Record.encode ++ sample.entries.data

theorem sample_holds : (Image.mk sampleBytes sample.header []).Holds sample.entries where
  countable := ⟨by decide, trivial, trivial⟩
  rootEntries := rfl
  fileCount := rfl
  within r hr := by
    rcases List.mem_pair.mp hr with rfl | rfl
    · trivial
    · exact Nat.le_refl _
  assembled := by
    refine ⟨fun r hr => ?_, rfl, rfl, rfl⟩
    rcases List.mem_pair.mp hr with rfl | rfl
    · exact (by decide : 1 ≤ 64)
    · exact (by decide : 1 ≤ 64)

theorem sample_canonical : sampleBytes.Canonical sample where
  padded index hindex := by
    match index with
    | 0 => exact ⟨by decide +kernel, by decide +kernel⟩
    | 1 => exact ⟨by decide +kernel, by decide +kernel⟩
  blockCounts children name blockCount h := by
    rcases List.mem_pair.mp h with h | h
    · cases h
      rfl
    · cases h
  offsets front offset name length rest h := by
    match front with
    | [] => cases h
    | [_] =>
      cases h
      rfl
    | _ :: _ :: front => simp [sample] at h
  dataSize := by
    rw [sample_holds.assembled.length_eq]
    rfl
  names index hindex := by
    match index with
    | 0 => exact ⟨by decide, by decide, by decide +kernel, by decide, by decide, by decide⟩
    | 1 => exact ⟨by decide, by decide, by decide +kernel, by decide, by decide, by decide⟩
  siblings := ⟨by simp [Forest.tops], ⟨by simp [Forest.tops], trivial⟩, trivial⟩

theorem sample_is_rebuilt :
    Reading.ofBytes sampleBytes = .ok sample ∧ sampleBytes.Canonical sample ∧
      ∃ image, ((Image.build 5 (.ofText "/r")).run Store.respond
        (Store.ofEdits [.addDirectory (.ofText "/r"), .addDirectory (.ofText "/r/d"),
          .addFile (.ofText "/r/d/f") [1, 2]])).outcome = .done image ∧
        image.bytes = sampleBytes := by
  have hread : Reading.ofBytes sampleBytes = .ok sample := sample_holds.ofBytes_eq
  have hedits : Store.Edit.addDirectory (.ofText "/r") :: sample.entries.edits (.ofText "/r") =
      [.addDirectory (.ofText "/r"), .addDirectory (.ofText "/r/d"),
        .addFile (.ofText "/r/d/f") [1, 2]] := by decide
  have hdepth : (Store.ofEdits [.addDirectory (.ofText "/r"), .addDirectory (.ofText "/r/d"),
      .addFile (.ofText "/r/d/f") [1, 2]]).depth = 5 := by decide
  have hbuilt := rebuilds hread sample_canonical (.ofText "/r") (by decide) 0
  rw [hedits, hdepth] at hbuilt
  exact ⟨hread, sample_canonical, hbuilt⟩

end Reading

end TreeImage
