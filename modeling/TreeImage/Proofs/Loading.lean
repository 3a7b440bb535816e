import TreeImage.Proofs.Carrying

/-!
# Loading a forest

A forest is put into a store by one edit per node, in pre-order and each at its joined path. Every
edit finds the directory above it and nothing at its own place, so that the store carries the forest
afterwards, listed in the order of its trees, and is otherwise what it was.
-/

namespace TreeImage

/-- The edits that put a forest below `dir`. -/
def Forest.edits (dir : Path) : Forest Bytes → List Store.Edit
  | .nil => []
  | .file name contents rest => .addFile (dir.join name) contents :: rest.edits dir
  | .directory name children rest =>
    .addDirectory (dir.join name) :: (children.edits (dir.join name) ++ rest.edits dir)

namespace Store

variable {s t u v : Store} {dir : Path} {above address other : Address} {name : String}
  {names : List String} {g : Forest Bytes}

/-- A forest stays where nothing changes from there on down. -/
theorem Carries.congr {f : Forest (Option Bytes)} (h : s.Carries above f)
    (hsame : ∀ other, above <:+ other → t.node? other = s.node? other) : t.Carries above f := by
  induction f generalizing above with
  | nil => trivial
  | file name contents rest ih =>
    obtain ⟨hnode, hrest⟩ := h
    exact ⟨(hsame _ (List.suffix_cons _ _)).trans hnode, ih hrest hsame⟩
  | directory name children rest ihc ih =>
    obtain ⟨hnode, hchildren, hrest⟩ := h
    refine ⟨(hsame _ (List.suffix_cons _ _)).trans hnode, ihc hchildren fun other hother => ?_,
      ih hrest hsame⟩
    exact hsame other ((List.suffix_cons _ _).trans hother)

/-- `t` is `s` with a node entered below the directory at `above`, which listed `names` before. -/
def Entered (s t : Store) (above : Address) (names : List String) (name : String) (node : Node) :
    Prop :=
  ∀ other, t.node? other = if other = .normal (Text.utf8 name) :: above then some node
    else if other = above then some (.directory (names ++ [name])) else s.node? other

theorem entered_link (hne : above ≠ []) (habove : s.node? above = some (.directory names))
    (name : String) (node : Node) :
    Entered s ((s.link (.normal (Text.utf8 name) :: above)).setNode
      (.normal (Text.utf8 name) :: above) node) above names name node := by
  have hensured : s.ensure above = s := by rw [ensure, habove]; rfl
  rcases s.link_cases (.normal (Text.utf8 name) :: above) with
    ⟨halone, -⟩ | ⟨n, below, haddress, -, hlink⟩
  · exact absurd (halone _ above rfl) hne
  · obtain ⟨hname, rfl⟩ := List.cons.inj haddress
    cases hname
    intro other
    rw [hlink, hensured, node?_setNode, node?_appendName, habove, Text.ofUtf8Lossy_utf8]
    rfl

section Edits

variable (hne : dir.address ≠ []) (habove : s.node? dir.address = some (.directory names))
  (hname : IsNormal name) (habsent : s.node? (.normal (Text.utf8 name) :: dir.address) = none)

include hne habove hname habsent

theorem entered_addFile (contents : Bytes) :
    Entered s (s.addFile (dir.join name) contents) dir.address names name (.file contents) := by
  rw [addFile, dir.address_join hname, habsent, if_neg (by simp)]
  exact entered_link hne habove name _

theorem entered_addDirectory :
    Entered s (s.addDirectory (dir.join name)) dir.address names name (.directory []) := by
  rw [addDirectory, dir.address_join hname, habsent, if_neg (by simp)]
  exact entered_link hne habove name _

end Edits

/-- Nothing stands at these names below `above`, or further down. -/
def Free (s : Store) (above : Address) (names : List String) : Prop :=
  ∀ name ∈ names, ∀ other, .normal (Text.utf8 name) :: above <:+ other → s.node? other = none

theorem ne_of_suffix {last : Component} (h : last :: above <:+ other) : other ≠ above := by
  rintro rfl
  have hlength := h.length_le
  rw [List.length_cons] at hlength
  omega

namespace Entered

variable {node : Node} {others : List String}

theorem node?_self (h : Entered s t above names name node) :
    t.node? (.normal (Text.utf8 name) :: above) = some node := by rw [h, if_pos rfl]

theorem node?_above (h : Entered s t above names name node) :
    t.node? above = some (.directory (names ++ [name])) := by
  rw [h, if_neg (ne_of_suffix List.suffix_rfl).symm, if_pos rfl]

theorem node?_other (h : Entered s t above names name node) (habove : other ≠ above)
    (hname : ¬.normal (Text.utf8 name) :: above <:+ other) : t.node? other = s.node? other := by
  have hself : other ≠ .normal (Text.utf8 name) :: above := by
    rintro rfl
    exact hname List.suffix_rfl
  rw [h, if_neg hself, if_neg habove]

/-- The names behind the one that was entered stay free. -/
theorem free (h : Entered s t above names name node) (hfree : s.Free above (name :: others))
    (hname : name ∉ others) : t.Free above others := by
  intro n hn other hother
  rw [h.node?_other (ne_of_suffix hother) fun hsuffix => ?_]
  · exact hfree n (List.mem_cons_of_mem _ hn) other hother
  · rw [Address.eq_of_suffix hsuffix hother] at hname
    exact hname hn

/-- Below the node that was entered everything is free. -/
theorem free_below (h : Entered s t above names name node)
    (hfree : s.Free above (name :: others)) (below : List String) :
    t.Free (.normal (Text.utf8 name) :: above) below := by
  intro n _ other hother
  have hsuffix : .normal (Text.utf8 name) :: above <:+ other := (List.suffix_cons _ _).trans hother
  rw [h, if_neg (ne_of_suffix hother), if_neg (ne_of_suffix hsuffix)]
  exact hfree name (List.mem_cons_self ..) other hsuffix

end Entered

/-- `t` is `s` with a forest below the directory at `above`, which listed `names` before. -/
structure Loaded (s t : Store) (above : Address) (names : List String) (g : Forest Bytes) :
    Prop where
  listed : t.node? above = some (.directory (names ++ g.tops))
  carries : t.Carries above (g.map some)
  elsewhere : ∀ other, other ≠ above →
    (∀ name ∈ g.tops, ¬.normal (Text.utf8 name) :: above <:+ other) →
      t.node? other = s.node? other

/-- What is entered below one name is not touched by a forest below other names. -/
theorem Loaded.node?_below (h : Loaded s t above names g) (hname : name ∉ g.tops)
    (hother : .normal (Text.utf8 name) :: above <:+ other) : t.node? other = s.node? other := by
  apply h.elsewhere other (ne_of_suffix hother)
  intro n hn hsuffix
  rw [Address.eq_of_suffix hother hsuffix] at hname
  exact hname hn

/-- Outside the directory that a forest was loaded into, everything is as it was. -/
theorem Loaded.node?_outside (h : Loaded s t (.normal (Text.utf8 name) :: above) names g)
    (hother : ¬.normal (Text.utf8 name) :: above <:+ other) : t.node? other = s.node? other := by
  apply h.elsewhere
  · rintro rfl
    exact hother List.suffix_rfl
  · exact fun n _ hsuffix => hother ((List.suffix_cons _ _).trans hsuffix)

/-- A file was entered, and the forest behind it loaded. -/
theorem Loaded.file {contents : Bytes} (h : Entered s t above names name (.file contents))
    (hbehind : Loaded t u above (names ++ [name]) g) (hnew : name ∉ g.tops) :
    Loaded s u above names (.file name contents g) := by
  constructor
  · rw [Forest.tops, ← List.singleton_append, ← List.append_assoc]
    exact hbehind.listed
  · exact ⟨(hbehind.node?_below hnew List.suffix_rfl).trans h.node?_self, hbehind.carries⟩
  · intro other hother hnone
    rw [hbehind.elsewhere other hother fun n hn => hnone n (List.mem_cons_of_mem _ hn)]
    exact h.node?_other hother (hnone name (List.mem_cons_self ..))

/-- A directory was entered, and what is below it loaded before the forest behind it. -/
theorem Loaded.directory {children : Forest Bytes}
    (h : Entered s t above names name (.directory []))
    (hinside : Loaded t u (.normal (Text.utf8 name) :: above) [] children)
    (hbehind : Loaded u v above (names ++ [name]) g) (hnew : name ∉ g.tops) :
    Loaded s v above names (.directory name children g) := by
  constructor
  · rw [Forest.tops, ← List.singleton_append, ← List.append_assoc]
    exact hbehind.listed
  · refine ⟨?_, ?_, hbehind.carries⟩
    · rw [hbehind.node?_below hnew List.suffix_rfl, Forest.tops_map]
      exact hinside.listed
    · exact hinside.carries.congr fun other hother => hbehind.node?_below hnew hother
  · intro other hother hnone
    have hself := hnone name (List.mem_cons_self ..)
    rw [hbehind.elsewhere other hother fun n hn => hnone n (List.mem_cons_of_mem _ hn),
      hinside.node?_outside hself]
    exact h.node?_other hother hself

/-- The edits for a forest put it below its directory and touch nothing else. -/
theorem loaded_edits (hne : dir.address ≠ [])
    (habove : s.node? dir.address = some (.directory names))
    (hnormal : ∀ name ∈ g.names, IsNormal name) (hdistinct : g.Distinct)
    (hfree : s.Free dir.address g.tops) :
    Loaded s ((g.edits dir).foldl apply s) dir.address names g := by
  induction g generalizing s dir names with
  | nil => exact ⟨by rw [Forest.tops, List.append_nil]; exact habove, trivial, fun _ _ _ => rfl⟩
  | file name contents rest ih =>
    have hname := hnormal name (List.mem_cons_self ..)
    have habsent := hfree name (List.mem_cons_self ..) _ List.suffix_rfl
    have hentered := entered_addFile hne habove hname habsent contents
    have hrest := ih hne hentered.node?_above (fun n hn => hnormal n (List.mem_cons_of_mem _ hn))
      hdistinct.2 (hentered.free hfree hdistinct.1)
    exact .file hentered hrest hdistinct.1
  | directory name children rest ihc ih =>
    obtain ⟨hnew, hchildren, hrest⟩ := hdistinct
    have hname := hnormal name (List.mem_cons_self ..)
    have habsent := hfree name (List.mem_cons_self ..) _ List.suffix_rfl
    have hentered := entered_addDirectory hne habove hname habsent
    have haddress := dir.address_join hname
    generalize ht : s.addDirectory (dir.join name) = t at hentered
    have hinside : Loaded t ((children.edits (dir.join name)).foldl apply t)
        (.normal (Text.utf8 name) :: dir.address) [] children := by
      rw [← haddress]
      refine ihc (by rw [haddress]; simp) ?_ (fun n hn => hnormal n (List.mem_cons_of_mem _
        (List.mem_append_left _ hn))) hchildren ?_
      · rw [haddress]
        exact hentered.node?_self
      · rw [haddress]
        exact hentered.free_below hfree _
    generalize hu : (children.edits (dir.join name)).foldl apply t = u at hinside
    have hbehind := ih hne
      ((hinside.node?_outside fun hsuffix => ne_of_suffix hsuffix rfl).trans hentered.node?_above)
      (fun n hn => hnormal n (List.mem_cons_of_mem _ (List.mem_append_right _ hn))) hrest
      (fun n hn other hother => by
        rw [hinside.node?_outside fun hsuffix => hnew (Address.eq_of_suffix hsuffix hother ▸ hn)]
        exact hentered.free hfree hnew n hn other hother)
    rw [Forest.edits, List.foldl_cons, List.foldl_append, Store.apply, ht, hu]
    exact .directory hentered hinside hbehind hnew

end Store

end TreeImage
