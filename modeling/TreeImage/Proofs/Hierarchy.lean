import TreeImage.Proofs.Addresses
import TreeImage.Proofs.Stores
import Mathlib.Data.List.Nodup

/-!
# The hierarchy of a store

The nodes of a store hang together by their addresses. `Store.Hierarchical` says how: whatever has a
name and something above it stands in something, and a directory lists, as texts, the names of just
what stands in it, each once. Where these names are texts themselves, it lists what stands there. A
file can have nodes below it, which were there when it replaced a directory or came later; they are
listed nowhere. Every edit keeps to this, so every store that came of edits does.
-/

namespace TreeImage

namespace Store

/-- The node with one more name in its listing, if it has one. -/
def Node.withName (name : String) : Node → Node
  | .file contents => .file contents
  | .directory names => .directory (names ++ [name])

/-- The store with something at `address`: if nothing stands there, an empty directory. -/
def ensure (s : Store) (address : Address) : Store :=
  if (s.node? address).isSome then s else (s.link address).setNode address (.directory [])

variable {s t : Store} {address above other : Address} {names : List String} {below : List Bytes}
  {name : Bytes} {node : Node}

theorem addDirectory_eq (s : Store) (path : Path) :
    s.addDirectory path = s.ensure path.address := rfl

theorem node?_setNode (s : Store) (address other : Address) (node : Node) :
    (s.setNode address node).node? other =
      if other = address then some node else s.node? other := by
  split
  · next h => rw [h, node?, setNode, Table.get?_set_self]
  · next h => rw [node?, setNode, Table.get?_set_ne _ _ h, node?]

theorem node?_appendName (s : Store) (address other : Address) (name : String) :
    (s.appendName address name).node? other =
      if other = address then (s.node? address).map (Node.withName name) else s.node? other := by
  unfold appendName
  split
  · next names hnames =>
    rw [node?_setNode, hnames]
    rfl
  · next hnone =>
    split
    · next h =>
      rw [h]
      cases hnode : s.node? address with
      | none => rfl
      | some node =>
        cases node with
        | file contents => rfl
        | directory names => exact absurd hnode (hnone names)
    · rfl

/-- A link is made where something with a name hangs below something else. -/
theorem link_cases (s : Store) (address : Address) :
    ((∀ name above, address = .normal name :: above → above = []) ∧ s.link address = s) ∨
      ∃ name above, address = .normal name :: above ∧ above ≠ [] ∧
        s.link address = (s.ensure above).appendName above (Text.ofUtf8Lossy name) := by
  cases address with
  | nil => exact .inl ⟨by simp, rfl⟩
  | cons last above =>
    cases last with
    | root => exact .inl ⟨by simp, rfl⟩
    | here => exact .inl ⟨by simp, rfl⟩
    | up => exact .inl ⟨by simp, rfl⟩
    | normal name =>
      by_cases habove : above = []
      · subst habove
        refine .inl ⟨fun _ _ h => ?_, by simp [link, Component.name?]⟩
        simp only [List.cons.injEq] at h
        exact h.2.symm
      · exact .inr ⟨name, above, rfl, habove, by simp [link, Component.name?, habove, ensure]⟩

/-- Linking touches nothing but what is above. -/
theorem node?_link_of_length_le (s : Store) {address other : Address}
    (h : address.length ≤ other.length) : (s.link address).node? other = s.node? other := by
  induction address generalizing other with
  | nil => rfl
  | cons last above ih =>
    rcases s.link_cases (last :: above) with ⟨-, hlink⟩ | ⟨name, above', haddress, -, hlink⟩
    · rw [hlink]
    · obtain ⟨rfl, rfl⟩ := List.cons.inj haddress
      rw [List.length_cons] at h
      have hne : other ≠ above := by
        rintro rfl
        omega
      rw [hlink, node?_appendName, if_neg hne, ensure]
      split
      · rfl
      · rw [node?_setNode, if_neg hne, ih (by omega)]

theorem isSome_node?_ensure (s : Store) (address : Address) :
    ((s.ensure address).node? address).isSome := by
  unfold ensure
  split
  · assumption
  · rw [node?_setNode, if_pos rfl]
    rfl

theorem node?_ensure_of_length_lt (s : Store) {address other : Address}
    (h : address.length < other.length) : (s.ensure address).node? other = s.node? other := by
  unfold ensure
  split
  · rfl
  · have hne : other ≠ address := by
      rintro rfl
      omega
    rw [node?_setNode, if_neg hne, s.node?_link_of_length_le (Nat.le_of_lt h)]

/-- These are the names of what stands in a directory, each once. Nothing is listed at the empty
address, whatever stands below. -/
structure Listed (s : Store) (above : Address) (below : List Bytes) : Prop where
  nodup : below.Nodup
  normal : ∀ name ∈ below, Component.IsNormal name
  mem_iff : ∀ name, name ∈ below ↔ above ≠ [] ∧ (s.node? (.normal name :: above)).isSome

/-- How the nodes of a store hang together. -/
structure Hierarchical (s : Store) : Prop where
  /-- What hangs below something has something above it. -/
  above : ∀ name above, (s.node? (.normal name :: above)).isSome → above ≠ [] →
    (s.node? above).isSome
  /-- A directory lists what stands in it, as texts. -/
  listed : ∀ above names, s.node? above = some (.directory names) →
    ∃ below, names = below.map Text.ofUtf8Lossy ∧ s.Listed above below

namespace Listed

theorem congr (h : s.Listed above below)
    (hstands : ∀ name, (t.node? (.normal name :: above)).isSome ↔
      (s.node? (.normal name :: above)).isSome) : t.Listed above below where
  nodup := h.nodup
  normal := h.normal
  mem_iff name := by rw [h.mem_iff, hstands]

/-- What enters is listed behind the others. -/
theorem append (h : s.Listed above below) (hne : above ≠ []) (hname : Component.IsNormal name)
    (habsent : s.node? (.normal name :: above) = none)
    (hstands : ∀ n, (t.node? (.normal n :: above)).isSome ↔
      n = name ∨ (s.node? (.normal n :: above)).isSome) : t.Listed above (below ++ [name]) where
  nodup := by
    have hnew : name ∉ below := by
      rw [h.mem_iff, habsent]
      simp
    rw [List.nodup_append]
    refine ⟨h.nodup, List.nodup_singleton name, fun n hn m hm => ?_⟩
    rw [List.mem_singleton.mp hm]
    rintro rfl
    exact hnew hn
  normal n hn := by
    rcases List.mem_append.mp hn with hn | hn
    · exact h.normal n hn
    · rw [List.mem_singleton.mp hn]
      exact hname
  mem_iff n := by
    rw [List.mem_append, h.mem_iff, List.mem_singleton, hstands]
    simp [hne, or_comm]

end Listed

namespace Hierarchical

theorem empty : Hierarchical Store.empty := by
  constructor <;> intros <;> contradiction

theorem normal (h : s.Hierarchical) (hnode : s.node? above = some (.directory names)) :
    ∀ name ∈ names, IsNormal name := by
  obtain ⟨below, rfl, hbelow⟩ := h.listed above names hnode
  intro name hname
  obtain ⟨n, hn, rfl⟩ := List.mem_map.mp hname
  exact (hbelow.normal n hn).listed

theorem mem_of_isSome (h : s.Hierarchical) (hnode : s.node? above = some (.directory names))
    (hne : above ≠ []) {name : String}
    (hstands : (s.node? (.normal (Text.utf8 name) :: above)).isSome) : name ∈ names := by
  obtain ⟨below, rfl, hbelow⟩ := h.listed above names hnode
  exact List.mem_map.mpr ⟨_, (hbelow.mem_iff _).mpr ⟨hne, hstands⟩, Text.ofUtf8Lossy_utf8 name⟩

section Texts

variable (htext : ∀ name, (s.node? (.normal name :: above)).isSome → Text.IsUtf8 name)

include htext

/-- Where texts name what stands in a directory, nothing of the names is lost in its listing. -/
theorem mem_iff (h : s.Hierarchical) (hnode : s.node? above = some (.directory names))
    (hne : above ≠ []) (name : String) :
    name ∈ names ↔ (s.node? (.normal (Text.utf8 name) :: above)).isSome := by
  refine ⟨fun hname => ?_, h.mem_of_isSome hnode hne⟩
  obtain ⟨below, rfl, hbelow⟩ := h.listed above names hnode
  obtain ⟨n, hn, rfl⟩ := List.mem_map.mp hname
  have hstands := ((hbelow.mem_iff n).mp hn).2
  rwa [Text.isUtf8_iff.mp (htext n hstands)]

theorem nodup (h : s.Hierarchical) (hnode : s.node? above = some (.directory names)) :
    names.Nodup := by
  obtain ⟨below, rfl, hbelow⟩ := h.listed above names hnode
  apply hbelow.nodup.map_on
  intro m hm n hn hsame
  have hmtext := htext m ((hbelow.mem_iff m).mp hm).2
  have hntext := htext n ((hbelow.mem_iff n).mp hn).2
  rw [← Text.isUtf8_iff.mp hmtext, hsame, Text.isUtf8_iff.mp hntext]

end Texts

/-- Where nothing stands, nothing hangs below. -/
theorem node?_below_eq_none (h : s.Hierarchical) (habsent : s.node? address = none)
    (hne : address ≠ []) (name : Bytes) : s.node? (.normal name :: address) = none := by
  cases hnode : s.node? (.normal name :: address) with
  | none => rfl
  | some node =>
    have hsome := h.above name address (by rw [hnode]; rfl) hne
    rw [habsent] at hsome
    cases hsome

/-- A file can take the place of anything. -/
theorem replace (h : s.Hierarchical) (hsome : (s.node? address).isSome) (contents : Bytes) :
    (s.setNode address (.file contents)).Hierarchical := by
  have hstands : ∀ other, ((s.setNode address (.file contents)).node? other).isSome ↔
      (s.node? other).isSome := by
    intro other
    rw [node?_setNode]
    split
    · next heq => simpa [heq] using hsome
    · rfl
  constructor
  · intro name above hname habove
    rw [hstands] at hname ⊢
    exact h.above name above hname habove
  · intro above names hnames
    rw [node?_setNode] at hnames
    split at hnames
    · cases hnames
    · obtain ⟨below, hlisting, hbelow⟩ := h.listed above names hnames
      exact ⟨below, hlisting, hbelow.congr fun name => hstands _⟩

/-- What becomes of the listing of the directory at `above` when something enters at `address`. -/
inductive Relisted (address above : Address) (names : List String) : List String → Prop
  | same : (∀ name, address = .normal name :: above → above = []) →
      Relisted address above names names
  | added {name : Bytes} : address = .normal name :: above → above ≠ [] →
      Component.IsNormal name → Relisted address above names (names ++ [Text.ofUtf8Lossy name])

/-- A store stays in order when a node without a listing enters below what lists it now. -/
theorem extend (h : s.Hierarchical) (habsent : s.node? address = none)
    (habove : ∀ name above, address = .normal name :: above → above ≠ [] →
      (s.node? above).isSome)
    (hstands : ∀ other, (t.node? other).isSome ↔ other = address ∨ (s.node? other).isSome)
    (hlists : ∀ {other names}, t.node? other = some (.directory names) →
      (other = address ∧ names = []) ∨
        ∃ old, s.node? other = some (.directory old) ∧ Relisted address other old names) :
    t.Hierarchical := by
  constructor
  · intro name above hname hne
    rw [hstands] at hname ⊢
    rcases hname with heq | hname
    · exact .inr (habove name above heq.symm hne)
    · exact .inr (h.above name above hname hne)
  · intro above names hnames
    rcases hlists hnames with ⟨rfl, rfl⟩ | ⟨old, hold, hrelisted⟩
    · refine ⟨[], rfl, List.nodup_nil, by simp, fun name => ?_⟩
      rw [hstands]
      by_cases hne : above = []
      · simp [hne]
      · simp [h.node?_below_eq_none habsent hne name]
    · obtain ⟨below, rfl, hbelow⟩ := h.listed above old hold
      cases hrelisted with
      | same hother =>
        refine ⟨below, rfl, hbelow.nodup, hbelow.normal, fun name => ?_⟩
        rw [hbelow.mem_iff, hstands]
        refine and_congr_right fun hne => (or_iff_right fun heq => ?_).symm
        exact hne (hother name heq.symm)
      | @added name haddress hne hname =>
        refine ⟨below ++ [name], by simp, hbelow.append hne hname (haddress ▸ habsent) fun n => ?_⟩
        rw [hstands, haddress]
        simp

theorem setNode (h : s.Hierarchical) (habsent : s.node? address = none)
    (halone : ∀ name above, address = .normal name :: above → above = [])
    (hnode : ∀ names, node = .directory names → names = []) :
    (s.setNode address node).Hierarchical := by
  apply h.extend habsent
  · intro name above haddress hne
    exact absurd (halone name above haddress) hne
  · intro other
    rw [node?_setNode]
    split
    · next heq => simp [heq]
    · next hne => simp [hne]
  · intro other names hnames
    rw [node?_setNode] at hnames
    split at hnames
    · next heq => exact .inl ⟨heq, hnode names (Option.some.inj hnames)⟩
    · exact .inr ⟨names, hnames, .same fun name => halone name other⟩

theorem attach (h : s.Hierarchical) (hsome : (s.node? above).isSome) (hne : above ≠ [])
    (habsent : s.node? (.normal name :: above) = none) (hname : Component.IsNormal name)
    (hnode : ∀ names, node = .directory names → names = []) :
    ((s.appendName above (Text.ofUtf8Lossy name)).setNode (.normal name :: above)
      node).Hierarchical := by
  apply h.extend habsent
  · intro n other haddress _
    obtain ⟨-, rfl⟩ := List.cons.inj haddress
    exact hsome
  · intro other
    rw [node?_setNode, node?_appendName]
    split
    · next heq => simp [heq]
    · next hother =>
      split
      · next heq => simp [heq]
      · simp [hother]
  · intro other names hnames
    rw [node?_setNode, node?_appendName] at hnames
    split at hnames
    · next heq => exact .inl ⟨heq, hnode names (Option.some.inj hnames)⟩
    · split at hnames
      · next heq =>
        subst heq
        obtain ⟨old, hold, hnew⟩ := Option.map_eq_some_iff.mp hnames
        cases old with
        | file contents => cases hnew
        | directory listed =>
          cases hnew
          exact .inr ⟨listed, hold, .added rfl hne hname⟩
      · next hother =>
        refine .inr ⟨names, hnames, .same fun n haddress => ?_⟩
        exact absurd (List.cons.inj haddress).2.symm hother

/-- What is entered where nothing stands is linked first. -/
theorem enter (h : s.Hierarchical) (habsent : s.node? address = none)
    (hnormal : ∀ name, .normal name ∈ address → Component.IsNormal name)
    (hnode : ∀ names, node = .directory names → names = []) :
    ((s.link address).setNode address node).Hierarchical := by
  induction address generalizing node with
  | nil => exact h.setNode habsent (by simp) hnode
  | cons last above ih =>
    rcases s.link_cases (last :: above) with ⟨halone, hlink⟩ | ⟨name, above', haddress, hne, hlink⟩
    · rw [hlink]
      exact h.setNode habsent halone hnode
    · obtain ⟨rfl, rfl⟩ := List.cons.inj haddress
      have hensured : (s.ensure above).Hierarchical := by
        unfold ensure
        split
        · exact h
        · next hnone =>
          exact ih (by simpa using hnone) (fun n hn => hnormal n (List.mem_cons_of_mem _ hn))
            (by simp)
      rw [hlink]
      refine hensured.attach (isSome_node?_ensure s above) hne ?_
        (hnormal name (List.mem_cons_self ..)) hnode
      rw [s.node?_ensure_of_length_lt (by simp), habsent]

theorem ensure (h : s.Hierarchical)
    (hnormal : ∀ name, .normal name ∈ address → Component.IsNormal name) :
    (s.ensure address).Hierarchical := by
  unfold Store.ensure
  split
  · exact h
  · next hnone => exact h.enter (by simpa using hnone) hnormal (by simp)

/-- Every edit keeps the nodes together. -/
theorem apply (h : s.Hierarchical) (edit : Edit) : (s.apply edit).Hierarchical := by
  have hnormal : ∀ (path : Path) name, .normal name ∈ path.address → Component.IsNormal name :=
    fun path name => Path.isNormal_of_mem_address
  cases edit with
  | addDirectory path => exact h.ensure (hnormal path)
  | addFile path contents =>
    unfold Store.apply addFile
    dsimp only
    split
    · next hsome => exact h.replace hsome contents
    · next hnone => exact h.enter (by simpa using hnone) (hnormal path) (by simp)

/-- Only names are listed. -/
theorem names_source (h : s.Hierarchical) (root : Path) : s.source.Names IsName root := by
  intro dir listing _ hentries entry hentry
  unfold source entries inspect at hentries
  dsimp only at hentries
  split at hentries
  · cases hentries
  · next node hnode =>
    cases node with
    | file contents => cases hentries
    | directory names =>
      cases hentries
      obtain ⟨name, hname, rfl⟩ := List.mem_map.mp hentry
      exact (h.normal hnode name hname).toIsName

end Hierarchical

theorem hierarchical_ofEdits (edits : List Edit) : (ofEdits edits).Hierarchical := by
  have hfold : ∀ s : Store, s.Hierarchical → (edits.foldl Store.apply s).Hierarchical := by
    induction edits with
    | nil => exact fun _ h => h
    | cons edit rest ih => exact fun s h => ih (s.apply edit) (h.apply edit)
  exact hfold empty .empty

end Store

end TreeImage
