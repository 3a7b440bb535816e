import TreeImage.Proofs.Hierarchy
import Mathlib.Data.List.Induction

/-!
# The history of a store

A store keeps what its edits did, but not the edits. What can be told from it is said here against
the list of them: what stands at an address was added there or below and stands there since, and a
file holds what was put there last. Where all paths are texts, a directory lists its entries in the
order in which they first came, whatever replaced them later. A directory can become a file and
never the other way round, which is why a directory has seen everything enter that stands in it.
-/

namespace TreeImage

namespace Store

/-- The address and the contents of the file that an edit adds. -/
def Edit.file? : Edit → Option (Address × Bytes)
  | .addDirectory _ => none
  | .addFile path contents => some (path.address, contents)

/-- What the last edit that added a file at `address` put there. -/
def lastFile? (edits : List Edit) (address : Address) : Option Bytes :=
  (edits.filterMap Edit.file?).reverse.lookup address

/-- After some of the edits there is something of the name `m` below `above`, and nothing yet of the
name `n`. -/
def EntersBefore (edits : List Edit) (above : Address) (m n : Bytes) : Prop :=
  ∃ earlier later, edits = earlier ++ later ∧
    ((ofEdits earlier).node? (.normal m :: above)).isSome ∧
    (ofEdits earlier).node? (.normal n :: above) = none

variable {s t : Store} {place address above other : Address} {name : Bytes} {names : List String}
  {contents : Bytes} {edits : List Edit}

/-! ## One edit -/

/-- The names are those that were listed at `above`, or these with a new one of `place` behind them.
Nothing was listed where nothing stood. -/
inductive Continues (s : Store) (place above : Address) : List String → Prop
  | same {names : List String} : (s.node? above).getD (.directory []) = .directory names →
      Continues s place above names
  | added {names : List String} {name : Bytes} :
      (s.node? above).getD (.directory []) = .directory names →
      s.node? (.normal name :: above) = none → .normal name ∈ place →
      Continues s place above (names ++ [Text.ofUtf8Lossy name])

theorem Continues.cons (h : s.Continues place above names) (last : Component) :
    s.Continues (last :: place) above names := by
  cases h with
  | same hnames => exact .same hnames
  | added hnames hnew hmem => exact .added hnames hnew (List.mem_cons_of_mem _ hmem)

theorem eq_nil_or_of_getD (h : (s.node? above).getD (.directory []) = .directory names) :
    names = [] ∨ s.node? above = some (.directory names) := by
  cases hnode : s.node? above with
  | none =>
    rw [hnode] at h
    cases h
    exact .inl rfl
  | some node =>
    rw [hnode] at h
    exact .inr (congrArg some h)

/-- `t` has the files of `s`, and its directories with more in them, on the way to `place`. -/
structure Extends (s : Store) (place : Address) (t : Store) : Prop where
  stays : ∀ address, (s.node? address).isSome → (t.node? address).isSome
  file_iff : ∀ address contents,
    t.node? address = some (.file contents) ↔ s.node? address = some (.file contents)
  continues : ∀ above names, t.node? above = some (.directory names) →
    s.Continues place above names

theorem Extends.refl (s : Store) (place : Address) : s.Extends place s where
  stays _ h := h
  file_iff _ _ := Iff.rfl
  continues _ _ h := .same (by rw [h]; rfl)

theorem node?_ensure_self (s : Store) (address : Address) :
    (s.ensure address).node? address = some ((s.node? address).getD (.directory [])) := by
  unfold ensure
  split
  · next h => exact (Option.some_get h).symm.trans (by rw [Option.get_eq_getD])
  · next h =>
    rw [node?_setNode, if_pos rfl, Option.not_isSome_iff_eq_none.mp h]
    rfl

/-- To make sure of a directory extends a store if linking does. -/
theorem Extends.of_link (h : s.node? address = none → s.Extends address (s.link address)) :
    s.Extends address (s.ensure address) := by
  unfold ensure
  split
  · exact .refl s address
  · next hsome =>
    have hnone := Option.not_isSome_iff_eq_none.mp hsome
    have hlink := h hnone
    constructor
    · intro other hother
      rw [node?_setNode]
      split
      · rfl
      · exact hlink.stays other hother
    · intro other contents
      rw [node?_setNode]
      split
      · next heq => simp [heq, hnone]
      · exact hlink.file_iff other contents
    · intro other names hnames
      rw [node?_setNode] at hnames
      split at hnames
      · next heq =>
        cases hnames
        exact .same (by rw [heq, hnone]; rfl)
      · exact hlink.continues other names hnames

/-- A name that is new can be put into the listing of a directory that was made sure of. -/
theorem Extends.appendName (h : s.Extends above (s.ensure above))
    (hnew : s.node? (.normal name :: above) = none) :
    s.Extends (.normal name :: above)
      ((s.ensure above).appendName above (Text.ofUtf8Lossy name)) := by
  constructor
  · intro other hother
    rw [node?_appendName]
    split
    · rw [Option.isSome_map]
      exact isSome_node?_ensure s above
    · exact h.stays other hother
  · intro other contents
    rw [node?_appendName, ← h.file_iff other contents]
    split
    · next heq =>
      rw [heq]
      cases (s.ensure above).node? above with
      | none => rfl
      | some node => cases node <;> simp [Node.withName]
    · rfl
  · intro other names hnames
    rw [node?_appendName] at hnames
    split at hnames
    · next heq =>
      subst heq
      rw [node?_ensure_self, Option.map_some, Option.some.injEq] at hnames
      cases hnode : (s.node? other).getD (.directory []) with
      | file contents =>
        rw [hnode] at hnames
        cases hnames
      | directory listed =>
        rw [hnode] at hnames
        cases hnames
        exact .added hnode hnew (List.mem_cons_self ..)
    · exact (h.continues other names hnames).cons _

theorem extends_link (h : s.node? address = none) : s.Extends address (s.link address) := by
  induction address with
  | nil => exact .refl s []
  | cons last above ih =>
    rcases s.link_cases (last :: above) with ⟨-, hlink⟩ | ⟨name, above', haddress, -, hlink⟩
    · rw [hlink]
      exact .refl s _
    · obtain ⟨rfl, rfl⟩ := List.cons.inj haddress
      rw [hlink]
      exact (Extends.of_link ih).appendName h

theorem extends_ensure (s : Store) (address : Address) : s.Extends address (s.ensure address) :=
  .of_link extends_link

/-- A file is put into a store that has what the store before had. -/
theorem addFile_eq (s : Store) (path : Path) (contents : Bytes) :
    ∃ u, s.Extends path.address u ∧
      s.addFile path contents = u.setNode path.address (.file contents) := by
  unfold addFile
  dsimp only
  split
  · exact ⟨s, .refl s _, rfl⟩
  · next h => exact ⟨_, extends_link (Option.not_isSome_iff_eq_none.mp h), rfl⟩

/-- What stands somewhere stays, if only as something else. -/
theorem isSome_apply (edit : Edit) (h : (s.node? address).isSome) :
    ((s.apply edit).node? address).isSome := by
  cases edit with
  | addDirectory path => exact (s.extends_ensure path.address).stays address h
  | addFile path contents =>
    obtain ⟨u, hextends, heq⟩ := s.addFile_eq path contents
    rw [Store.apply, heq, node?_setNode]
    split
    · rfl
    · exact hextends.stays address h

/-- A file stands where it was just added, and where it stood before. -/
theorem apply_eq_file_iff (edit : Edit) :
    (s.apply edit).node? address = some (.file contents) ↔
      edit.file? = some (address, contents) ∨
        (∀ added, edit.file? ≠ some (address, added)) ∧
          s.node? address = some (.file contents) := by
  cases edit with
  | addDirectory path => simp [Store.apply, addDirectory_eq, Edit.file?,
      (s.extends_ensure path.address).file_iff]
  | addFile path added =>
    obtain ⟨u, hextends, heq⟩ := s.addFile_eq path added
    rw [Store.apply, heq, node?_setNode, ← hextends.file_iff]
    split
    · next hsame => simp [Edit.file?, hsame]
    · next hother => simp [Edit.file?, Ne.symm hother]

/-- A listing only grows at its end, by names of what enters. -/
theorem continues_apply (edit : Edit)
    (h : (s.apply edit).node? above = some (.directory names)) :
    s.Continues edit.path.address above names := by
  cases edit with
  | addDirectory path => exact (s.extends_ensure path.address).continues above names h
  | addFile path contents =>
    obtain ⟨u, hextends, heq⟩ := s.addFile_eq path contents
    rw [Store.apply, heq, node?_setNode] at h
    split at h
    · cases h
    · exact hextends.continues above names h

/-! ## All edits -/

theorem ofEdits_concat (edits : List Edit) (edit : Edit) :
    ofEdits (edits ++ [edit]) = (ofEdits edits).apply edit := by
  rw [ofEdits, List.foldl_append]
  rfl

theorem isSome_ofEdits_append (h : ((ofEdits edits).node? address).isSome) (later : List Edit) :
    ((ofEdits (edits ++ later)).node? address).isSome := by
  induction later using List.reverseRecOn with
  | nil => rwa [List.append_nil]
  | append_singleton later edit ih =>
    rw [← List.append_assoc, ofEdits_concat]
    exact isSome_apply edit ih

theorem lastFile?_concat (edits : List Edit) (edit : Edit) (address : Address) :
    lastFile? (edits ++ [edit]) address =
      match edit.file? with
      | some (added, contents) => if address = added then some contents else lastFile? edits address
      | none => lastFile? edits address := by
  unfold lastFile?
  rw [List.filterMap_append, List.reverse_append]
  cases edit with
  | addDirectory path => rfl
  | addFile path contents =>
    by_cases h : address = path.address
    · simp [Edit.file?, h]
    · simp [Edit.file?, List.lookup_cons, h, beq_eq_false_iff_ne.mpr h]

/-- A file stands where one was added, and it is the one that was added last. -/
theorem node?_eq_file_iff :
    (ofEdits edits).node? address = some (.file contents) ↔
      lastFile? edits address = some contents := by
  induction edits using List.reverseRecOn with
  | nil => simp [ofEdits, empty, node?, Table.get?, lastFile?]
  | append_singleton edits edit ih =>
    rw [ofEdits_concat, apply_eq_file_iff, ih, lastFile?_concat]
    cases hfile : edit.file? with
    | none => simp
    | some added =>
      rcases added with ⟨place, bytes⟩
      by_cases h : address = place
      · simp [h]
      · simp [h, Ne.symm h]

/-! ## What stands after some edits -/

/-- What the edits added, and all that is above it. -/
inductive Added (edits : List Edit) : Address → Prop
  | edit {edit : Edit} : edit ∈ edits → Added edits edit.path.address
  | above {name : Bytes} {above : Address} :
      Added edits (.normal name :: above) → above ≠ [] → Added edits above

theorem Added.of_subset {others : List Edit} (hsubset : edits ⊆ others) (h : Added edits address) :
    Added others address := by
  induction h with
  | edit hmem => exact .edit (hsubset hmem)
  | above _ hne ih => exact .above ih hne

/-- To make sure of what was added makes nothing but what was added, if linking does not. -/
theorem added_of_ensure (hadded : Added edits address)
    (hlink : ∀ other, ((s.link address).node? other).isSome →
      (s.node? other).isSome ∨ Added edits other) {other : Address}
    (h : ((s.ensure address).node? other).isSome) : (s.node? other).isSome ∨ Added edits other := by
  unfold ensure at h
  split at h
  · exact .inl h
  · rw [node?_setNode] at h
    split at h
    · next heq => exact .inr (heq ▸ hadded)
    · exact hlink other h

theorem added_of_link (hadded : Added edits address) {other : Address}
    (h : ((s.link address).node? other).isSome) : (s.node? other).isSome ∨ Added edits other := by
  induction address generalizing other with
  | nil => exact .inl h
  | cons last above ih =>
    rcases s.link_cases (last :: above) with ⟨-, hlink⟩ | ⟨name, above', haddress, hne, hlink⟩
    · rw [hlink] at h
      exact .inl h
    · obtain ⟨rfl, rfl⟩ := List.cons.inj haddress
      have habove := hadded.above hne
      have hensured : ∀ place, ((s.ensure above).node? place).isSome →
          (s.node? place).isSome ∨ Added edits place :=
        fun _ => added_of_ensure habove fun _ => ih habove
      rw [hlink, node?_appendName] at h
      split at h
      · next heq =>
        rw [heq]
        exact .inr habove
      · exact hensured other h

theorem added_of_apply {edit : Edit} (hmem : edit ∈ edits)
    (h : ((s.apply edit).node? address).isSome) :
    (s.node? address).isSome ∨ Added edits address := by
  have hadded := Added.edit hmem
  cases edit with
  | addDirectory path => exact added_of_ensure hadded (fun _ => added_of_link hadded) h
  | addFile path contents =>
    unfold Store.apply addFile at h
    rw [node?_setNode] at h
    split at h
    · next heq => exact .inr (heq ▸ hadded)
    · split at h
      · exact .inl h
      · exact added_of_link hadded h

theorem isSome_apply_path (s : Store) (edit : Edit) :
    ((s.apply edit).node? edit.path.address).isSome := by
  cases edit with
  | addDirectory path => exact isSome_node?_ensure s path.address
  | addFile path contents =>
    unfold Store.apply addFile Edit.path
    rw [node?_setNode, if_pos rfl]
    rfl

/-- What stands in a store is what was added, whatever the order. -/
theorem isSome_ofEdits_iff :
    ((ofEdits edits).node? address).isSome ↔ Added edits address := by
  constructor
  · induction edits using List.reverseRecOn with
    | nil => exact fun h => absurd h (by simp [ofEdits, empty, node?, Table.get?])
    | append_singleton edits edit ih =>
      intro h
      rw [ofEdits_concat] at h
      rcases added_of_apply (List.mem_append_right edits (List.mem_singleton_self edit)) h with
        hbefore | hadded
      · exact (ih hbefore).of_subset (List.subset_append_left ..)
      · exact hadded
  · intro h
    induction h with
    | @edit edit hmem =>
      obtain ⟨before, after, rfl⟩ := List.append_of_mem hmem
      rw [List.append_cons]
      apply isSome_ofEdits_append
      rw [ofEdits_concat]
      exact isSome_apply_path _ edit
    | above _ hne ih => exact (hierarchical_ofEdits edits).above _ _ ih hne

/-! ## The order of entries -/

/-- The names in an address are texts if the paths of the edits are. -/
theorem Added.isUtf8 (htext : ∀ edit ∈ edits, edit.path.IsText) (h : Added edits address) :
    ∀ name, .normal name ∈ address → Text.IsUtf8 name := by
  induction h with
  | edit hmem => exact fun name hname => Path.isUtf8_of_mem_address (htext _ hmem) hname
  | above _ _ ih => exact fun name hname => ih name (List.mem_cons_of_mem _ hname)

theorem isUtf8_of_isSome (htext : ∀ edit ∈ edits, edit.path.IsText)
    (h : ((ofEdits edits).node? (.normal name :: above)).isSome) : Text.IsUtf8 name :=
  (isSome_ofEdits_iff.mp h).isUtf8 htext name (List.mem_cons_self ..)

theorem EntersBefore.append {m n : Bytes} (h : EntersBefore edits above m n) (later : List Edit) :
    EntersBefore (edits ++ later) above m n := by
  rcases h with ⟨before, after, rfl, hm, hn⟩
  exact ⟨before, after ++ later, List.append_assoc .., hm, hn⟩

/-- A directory lists its entries in the order in which they came. -/
theorem pairwise_entersBefore (htext : ∀ edit ∈ edits, edit.path.IsText) (hne : above ≠ [])
    (h : (ofEdits edits).node? above = some (.directory names)) :
    (names.map Text.utf8).Pairwise (EntersBefore edits above) := by
  -- By induction on the edits, from the last one on. What the last one adds to a listing is new,
  -- and what is listed before it has entered, since listings are complete.
  induction edits using List.reverseRecOn generalizing names with
  | nil => cases h
  | append_singleton edits edit ih =>
    have hearlier : ∀ edit ∈ edits, edit.path.IsText :=
      fun edit hmem => htext edit (List.mem_append_left _ hmem)
    have hbefore : ∀ listed : List String,
        ((ofEdits edits).node? above).getD (.directory []) = .directory listed →
          (listed.map Text.utf8).Pairwise (EntersBefore (edits ++ [edit]) above) ∧
            ∀ m ∈ listed, ((ofEdits edits).node? (.normal (Text.utf8 m) :: above)).isSome := by
      intro listed hlisted
      rcases eq_nil_or_of_getD hlisted with rfl | hnode
      · simp
      · refine ⟨(ih hearlier hnode).imp fun hentered => hentered.append [edit], fun m hm => ?_⟩
        exact ((hierarchical_ofEdits edits).mem_iff (fun _ => isUtf8_of_isSome hearlier) hnode hne
          m).mp hm
    rw [ofEdits_concat] at h
    cases continues_apply edit h with
    | same hlisted => exact (hbefore _ hlisted).1
    | @added listed name hlisted hnew hmem =>
      have hname := Path.isUtf8_of_mem_address (htext edit (by simp)) hmem
      rw [List.map_append, List.pairwise_append]
      refine ⟨(hbefore _ hlisted).1, List.pairwise_singleton .., fun m hm n hn => ?_⟩
      obtain ⟨text, htext, rfl⟩ := List.mem_map.mp hm
      rw [List.map_singleton, List.mem_singleton, Text.isUtf8_iff.mp hname] at hn
      rw [hn]
      exact ⟨edits, [edit], rfl, (hbefore _ hlisted).2 text htext, hnew⟩

/-! ## What a store tells of its history -/

/-- How the store reflects the edits that it came of, all of them with texts for paths. The empty
address is left out where listings are concerned: nothing is ever listed there. -/
structure Reflects (s : Store) (edits : List Edit) : Prop where
  nodup : ∀ above names, s.node? above = some (.directory names) → names.Nodup
  /-- A directory lists what stands in it. -/
  mem_iff : ∀ above names, s.node? above = some (.directory names) → above ≠ [] →
    ∀ name, name ∈ names ↔ (s.node? (.normal (Text.utf8 name) :: above)).isSome
  ordered : ∀ above names, s.node? above = some (.directory names) → above ≠ [] →
    (names.map Text.utf8).Pairwise (EntersBefore edits above)
  /-- All spellings of a directory show its names with the kinds of what stands there now. -/
  entries : ∀ (path : Path) names, s.node? path.address = some (.directory names) →
    path.address ≠ [] → ∃ listing, s.entries path = .ok listing ∧ listing.map Prod.fst = names ∧
      ∀ entry ∈ listing,
        (s.node? (.normal (Text.utf8 entry.1) :: path.address)).map Node.kind = some entry.2
  above : ∀ name above, (s.node? (.normal name :: above)).isSome → above ≠ [] →
    (s.node? above).isSome
  stays : ∀ earlier later, edits = earlier ++ later →
    ∀ address, ((ofEdits earlier).node? address).isSome → (s.node? address).isSome
  file_stays : ∀ earlier later, edits = earlier ++ later →
    ∀ address contents, (ofEdits earlier).node? address = some (.file contents) →
      ∃ contents, s.node? address = some (.file contents)
  file_iff : ∀ address contents,
    s.node? address = some (.file contents) ↔ lastFile? edits address = some contents
  contents : ∀ (path : Path) contents, lastFile? edits path.address = some contents →
    s.contents path = .ok contents ∧ s.size path = .ok contents.length

/-- The kinds that are shown are those of what stands below, if everything listed stands. -/
theorem Hierarchical.entries_eq (h : s.Hierarchical) {path : Path}
    (hnode : s.node? path.address = some (.directory names))
    (hstands : ∀ name ∈ names, (s.node? (.normal (Text.utf8 name) :: path.address)).isSome) :
    ∃ listing, s.entries path = .ok listing ∧ listing.map Prod.fst = names ∧
      ∀ entry ∈ listing,
        (s.node? (.normal (Text.utf8 entry.1) :: path.address)).map Node.kind = some entry.2 := by
  refine ⟨_, by rw [entries, inspect, hnode], by simp [Function.comp_def], fun entry hentry => ?_⟩
  obtain ⟨name, hname, rfl⟩ := List.mem_map.mp hentry
  obtain ⟨node, hbelow⟩ := Option.isSome_iff_exists.mp (hstands name hname)
  rw [kindAt, path.address_join (h.normal hnode name hname), hbelow]
  rfl

theorem file_stays (later : List Edit)
    (h : (ofEdits edits).node? address = some (.file contents)) :
    ∃ contents, (ofEdits (edits ++ later)).node? address = some (.file contents) := by
  induction later using List.reverseRecOn with
  | nil => exact ⟨contents, by rwa [List.append_nil]⟩
  | append_singleton later edit ih =>
    obtain ⟨now, hnow⟩ := ih
    rw [← List.append_assoc, ofEdits_concat]
    by_cases hadded : ∃ added, edit.file? = some (address, added)
    · obtain ⟨added, hadded⟩ := hadded
      exact ⟨added, (apply_eq_file_iff edit).mpr (.inl hadded)⟩
    · exact ⟨now, (apply_eq_file_iff edit).mpr (.inr ⟨not_exists.mp hadded, hnow⟩)⟩

/-- Whatever the edits were, the store that came of them reflects them. -/
theorem ofEdits_reflects (edits : List Edit) (htext : ∀ edit ∈ edits, edit.path.IsText) :
    (ofEdits edits).Reflects edits := by
  have h := hierarchical_ofEdits edits
  have hnames : ∀ above name, ((ofEdits edits).node? (.normal name :: above)).isSome →
      Text.IsUtf8 name := fun _ _ => isUtf8_of_isSome htext
  constructor
  · exact fun above names hnode => h.nodup (hnames above) hnode
  · exact fun above names hnode hne => h.mem_iff (hnames above) hnode hne
  · exact fun above names hnode hne => pairwise_entersBefore htext hne hnode
  · intro path names hnode hne
    exact h.entries_eq hnode fun name => (h.mem_iff (hnames path.address) hnode hne name).mp
  · exact h.above
  · rintro earlier later rfl address hstands
    exact isSome_ofEdits_append hstands later
  · rintro earlier later rfl address contents hfile
    exact file_stays later hfile
  · exact fun address contents => node?_eq_file_iff
  · intro path contents hlast
    have hread : (ofEdits edits).contents path = .ok contents := by
      rw [Store.contents, inspect, node?_eq_file_iff.mpr hlast]
    exact ⟨hread, by rw [size, hread]; rfl⟩

/-- A directory that became a file keeps its place in the listing, and spellings do not matter. -/
theorem respelled_edits_are_reflected :
    let edits := [.addFile (.ofText "/s/z") [], .addDirectory (.ofText "/s/ä"),
      .addFile (.ofText "/s//m") [], .addFile (.ofText "/s/ä/") [1]]
    (ofEdits edits).Reflects edits ∧
      (ofEdits edits).entries (.ofText "/s/.") =
        .ok [("z", .file), ("ä", .file), ("m", .file)] := by
  refine ⟨ofEdits_reflects _ ?_, rfl⟩
  simp [Edit.path, Path.isText_ofText]

end Store

end TreeImage
