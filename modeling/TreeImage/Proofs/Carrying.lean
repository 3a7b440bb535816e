import TreeImage.Proofs.Hierarchy
import TreeImage.Proofs.Success

/-!
# Forests in a store

A store has a forest below an address if it has a node for each of its nodes: the contents of every
file, and for every directory a listing of the names in it. Then the store is a source that offers
this forest there, with the right sizes. Every directory has such a forest below it, and the store's
depth is enough to walk it. A name that is listed can have lost something as a text, so that no node
is found by it. This shows as a file without contents; in a store whose nodes hang together its name
is refused.
-/

namespace TreeImage

namespace Store

/-- The store has these trees side by side below `above`. Nothing stands where a file has no
contents. -/
def Carries (s : Store) (above : Address) : Forest (Option Bytes) → Prop
  | .nil => True
  | .file name contents rest =>
    s.node? (.normal (Text.utf8 name) :: above) = contents.map .file ∧ s.Carries above rest
  | .directory name children rest =>
    s.node? (.normal (Text.utf8 name) :: above) = some (.directory children.tops) ∧
      s.Carries (.normal (Text.utf8 name) :: above) children ∧ s.Carries above rest

variable {s : Store} {dir root : Path} {above : Address} {f : Forest (Option Bytes)}
  {names : List String}

/-! ## The store as a source of the forest -/

/-- The kinds that a listing shows are those of the trees; what is missing passes for a file. -/
theorem Carries.map_kindAt (h : s.Carries dir.address f)
    (hnormal : ∀ name ∈ f.names, IsNormal name) :
    (f.tops.map fun name => (name, s.kindAt (dir.join name).address)) = f.listing := by
  induction f with
  | nil => rfl
  | file name contents rest ih =>
    obtain ⟨hnode, hrest⟩ := h
    have hname := hnormal name (List.mem_cons_self ..)
    have hothers := ih hrest fun n hn => hnormal n (List.mem_cons_of_mem _ hn)
    rw [Forest.tops, List.map_cons, hothers, dir.address_join hname, kindAt, hnode]
    cases contents with
    | none => rfl
    | some contents => rfl
  | directory name children rest _ ih =>
    obtain ⟨hnode, -, hrest⟩ := h
    have hname := hnormal name (List.mem_cons_self ..)
    have hothers := ih hrest fun n hn => hnormal n (List.mem_cons_of_mem _
      (List.mem_append_right _ hn))
    rw [Forest.tops, List.map_cons, hothers, dir.address_join hname, kindAt, hnode]
    rfl

theorem Carries.entries_eq (h : s.Carries dir.address f)
    (hnode : s.node? dir.address = some (.directory f.tops))
    (hnormal : ∀ name ∈ f.names, IsNormal name) : s.entries dir = .ok f.listing := by
  rw [← h.map_kindAt hnormal, entries, inspect, hnode]

/-- A store knows the sizes of its files. -/
theorem readable_of_node? {path : Path} {contents : Option Bytes}
    (hnode : s.node? path.address = contents.map .file) : s.source.Readable path contents := by
  rintro bytes hbytes
  rw [hbytes] at hnode
  have hread : s.contents path = .ok bytes := by
    rw [Store.contents, inspect, hnode]
    rfl
  refine ⟨hread, ?_⟩
  show (s.contents path).map List.length = .ok bytes.length
  rw [hread]
  rfl

theorem Carries.lists (h : s.Carries dir.address f) (hnormal : ∀ name ∈ f.names, IsNormal name) :
    s.source.Lists s.source.Readable dir f.listing f := by
  induction f generalizing dir with
  | nil => exact .nil dir
  | file name contents rest ih =>
    obtain ⟨hnode, hrest⟩ := h
    have hname := hnormal name (List.mem_cons_self ..)
    rw [← dir.address_join hname] at hnode
    exact .file (readable_of_node? hnode)
      (ih hrest fun n hn => hnormal n (List.mem_cons_of_mem _ hn))
  | directory name children rest ihc ih =>
    obtain ⟨hnode, hchildren, hrest⟩ := h
    have hname := hnormal name (List.mem_cons_self ..)
    have hbelow : ∀ n ∈ children.names, IsNormal n := fun n hn =>
      hnormal n (List.mem_cons_of_mem _ (List.mem_append_left _ hn))
    rw [← dir.address_join hname] at hnode hchildren
    exact .directory (hchildren.entries_eq hnode hbelow) (ihc hchildren hbelow)
      (ih hrest fun n hn => hnormal n (List.mem_cons_of_mem _ (List.mem_append_right _ hn)))

/-! ## Depth -/

theorem length_lt_depth (h : (s.node? above).isSome) : above.length < s.depth := by
  have hget : ∀ nodes : Table Address Node, (nodes.get? above).isSome → above ∈ nodes.keys := by
    intro nodes
    induction nodes with
    | nil => simp [Table.get?]
    | cons pair rest ih =>
      rcases pair with ⟨key, node⟩
      by_cases hkey : key = above
      · simp [Table.keys, hkey]
      · intro hrest
        rw [Table.get?, if_neg hkey] at hrest
        exact List.mem_cons_of_mem _ (ih hrest)
  have hmax : ∀ (lengths : List Nat) (start : Nat), start ≤ lengths.foldl max start ∧
      ∀ n ∈ lengths, n ≤ lengths.foldl max start := by
    intro lengths
    induction lengths with
    | nil => simp
    | cons n rest ih =>
      intro start
      obtain ⟨hstart, hrest⟩ := ih (max start n)
      rw [List.foldl_cons]
      refine ⟨by omega, fun m hm => ?_⟩
      rcases List.mem_cons.mp hm with rfl | hm
      · omega
      · exact hrest m hm
  have hmem : above.length ∈ s.nodes.keys.map List.length := List.mem_map_of_mem (hget s.nodes h)
  have hle := (hmax (s.nodes.keys.map List.length) 0).2 _ hmem
  exact Nat.lt_succ_of_le hle

/-- A forest in a store is not deeper than the store. -/
theorem Carries.height_lt (h : s.Carries above f) (hstands : (s.node? above).isSome) :
    f.height + above.length < s.depth := by
  induction f generalizing above with
  | nil =>
    rw [Forest.height, Nat.zero_add]
    exact length_lt_depth hstands
  | file name contents rest ih => exact ih h.2 hstands
  | directory name children rest ihc ih =>
    have hchildren := ihc h.2.1 (by rw [h.1]; rfl)
    have hrest := ih h.2.2 hstands
    rw [List.length_cons] at hchildren
    rw [Forest.height]
    omega

/-! ## The forest below a directory -/

/-- What the store has below the directory at `above`. -/
structure Below (s : Store) (above : Address) (f : Forest (Option Bytes)) : Prop where
  node : s.node? above = some (.directory f.tops)
  carries : s.Carries above f

theorem Below.height_lt (h : s.Below above f) : f.height < s.depth := by
  have hheight := h.carries.height_lt (by rw [h.node]; rfl)
  omega

/-- Where nothing is found by a name that is listed, the name has lost something. -/
theorem Hierarchical.nameDefect?_ne_none (h : s.Hierarchical)
    (hnode : s.node? above = some (.directory names)) {name : String} (hname : name ∈ names)
    (habsent : s.node? (.normal (Text.utf8 name) :: above) = none) : nameDefect? name ≠ none := by
  obtain ⟨below, rfl, hbelow⟩ := h.listed above names hnode
  obtain ⟨n, hn, rfl⟩ := List.mem_map.mp hname
  intro haccepted
  have hkept := Text.utf8_ofUtf8Lossy_of_ascii (ascii_of_nameDefect?_eq_none haccepted)
  have hstands := ((hbelow.mem_iff n).mp hn).2
  rw [← hkept, habsent] at hstands
  cases hstands

/-- The names in a forest lead down, and what is missing has a name that is refused. -/
theorem Hierarchical.normal_and_excused (h : s.Hierarchical)
    (hnode : s.node? above = some (.directory names)) (hcarries : s.Carries above f)
    (htops : ∀ name ∈ f.tops, name ∈ names) : (∀ name ∈ f.names, IsNormal name) ∧ f.Excused := by
  induction f generalizing above names with
  | nil => exact ⟨by simp [Forest.names], trivial⟩
  | file name contents rest ih =>
    obtain ⟨hchild, hrest⟩ := hcarries
    rw [Forest.tops, List.forall_mem_cons] at htops
    obtain ⟨hnormal, hexcused⟩ := ih hnode hrest htops.2
    refine ⟨List.forall_mem_cons.mpr ⟨h.normal hnode name htops.1, hnormal⟩, ?_, hexcused⟩
    rintro rfl
    exact h.nameDefect?_ne_none hnode htops.1 hchild
  | directory name children rest ihc ih =>
    obtain ⟨hchild, hchildren, hrest⟩ := hcarries
    rw [Forest.tops, List.forall_mem_cons] at htops
    obtain ⟨hnormal, hexcused⟩ := ih hnode hrest htops.2
    obtain ⟨hnormal', hexcused'⟩ := ihc hchild hchildren fun _ hn => hn
    refine ⟨List.forall_mem_cons.mpr ⟨h.normal hnode name htops.1, ?_⟩, hexcused', hexcused⟩
    exact List.forall_mem_append.mpr ⟨hnormal', hnormal⟩

theorem Below.isName (hf : s.Below above f) (h : s.Hierarchical) : ∀ name ∈ f.names, IsName name :=
  fun name hname =>
    ((h.normal_and_excused hf.node hf.carries fun _ hn => hn).1 name hname).toIsName

theorem Below.offers (hf : s.Below root.address f) (h : s.Hierarchical) :
    s.source.Offers root f := by
  obtain ⟨hnormal, hexcused⟩ := h.normal_and_excused hf.node hf.carries fun _ hn => hn
  have hdirectory : s.isDirectory root = true := by rw [isDirectory, hf.node]
  exact ⟨hdirectory, ⟨f.listing, hf.carries.entries_eq hf.node hnormal, hf.carries.lists hnormal⟩,
    hexcused⟩

/-- There is a forest with any names that lead down at the top, if there is one in every directory
right below. -/
theorem exists_carried
    (hdeeper : ∀ name listed, s.node? (.normal name :: above) = some (.directory listed) →
      ∃ f, s.Below (.normal name :: above) f) (names : List String) :
    ∃ f, s.Carries above f ∧ f.tops = names := by
  induction names with
  | nil => exact ⟨.nil, trivial, rfl⟩
  | cons name others ih =>
    obtain ⟨rest, hrest, rfl⟩ := ih
    cases hchild : s.node? (.normal (Text.utf8 name) :: above) with
    | none => exact ⟨.file name none rest, ⟨hchild, hrest⟩, rfl⟩
    | some node =>
      cases node with
      | file contents => exact ⟨.file name (some contents) rest, ⟨hchild, hrest⟩, rfl⟩
      | directory listed =>
        obtain ⟨children, hchildren⟩ := hdeeper _ listed hchild
        exact ⟨.directory name children rest, ⟨hchildren.node, hchildren.carries, hrest⟩, rfl⟩

/-- Every directory has a forest below it. The nodes are finitely many, so that their addresses
cannot become longer and longer. -/
theorem exists_below (hnode : s.node? above = some (.directory names)) : ∃ f, s.Below above f := by
  have hbound : ∃ room, s.depth ≤ above.length + room := ⟨s.depth, Nat.le_add_left _ _⟩
  obtain ⟨room, hroom⟩ := hbound
  induction room generalizing above names with
  | zero =>
    have hlength : above.length < s.depth := length_lt_depth (by rw [hnode]; rfl)
    omega
  | succ room ih =>
    have hdeeper : ∀ name listed, s.node? (.normal name :: above) = some (.directory listed) →
        ∃ f, s.Below (.normal name :: above) f :=
      fun name listed hchild => ih hchild (by rw [List.length_cons]; omega)
    obtain ⟨f, hcarries, rfl⟩ := exists_carried hdeeper names
    exact ⟨f, hnode, hcarries⟩

end Store

end TreeImage
