import TreeImage.Proofs.Success

/-!
# Going down a forest

Names lead down from the top of a forest, through directories, to what is below the last of them.
A source that lists the forest lists what is below at the joined path, and the loads of what is
below stand in one piece behind that of its directory. Every directory among the loads is found this
way.
-/

namespace TreeImage

/-- What the paths of the entries of a directory begin with, if `names` lead there from the root. -/
def Entry.base : List String → String
  | [] => ""
  | name :: names => name ++ "/" ++ base names

namespace Entry

theorem words_base {names : List String} (h : ∀ name ∈ names, IsName name) :
    Text.words '/' (base names) = names := by
  induction names with
  | nil => rfl
  | cons name names ih =>
    have hname := h name (List.mem_cons_self ..)
    have hrest := ih fun n hn => h n (List.mem_cons_of_mem _ hn)
    have hparts : Text.parts '/' (base (name :: names)).toList =
        name.toList :: Text.parts '/' (base names).toList := by
      have hslash : (base (name :: names)).toList = name.toList ++ '/' :: (base names).toList := by
        simp [base]
      rw [hslash, Text.parts_append, Text.parts_of_notMem hname.noSlash, List.singleton_append]
    rw [Text.words_eq] at hrest
    rw [Text.words_eq, hparts, List.map_cons, String.ofList_toList, List.filter_cons, hrest]
    simp [hname.ne_empty]

theorem base_inj {names others : List String} (h : ∀ name ∈ names, IsName name)
    (hothers : ∀ name ∈ others, IsName name) (heq : base names = base others) : names = others := by
  rw [← words_base h, heq, words_base hothers]

end Entry

theorem Path.Leads.foldl {root dir : Path} {base : String} (h : root.Leads base dir)
    {names : List String} (hnames : ∀ name ∈ names, IsName name) :
    root.Leads (base ++ Entry.base names) (names.foldl Path.join dir) := by
  induction names generalizing base dir with
  | nil => simpa [Entry.base] using h
  | cons name names ih =>
    have hrest := ih (h.join (hnames name (List.mem_cons_self ..)))
      fun n hn => hnames n (List.mem_cons_of_mem _ hn)
    rw [Entry.base, ← String.append_assoc, ← String.append_assoc]
    exact hrest

namespace Forest

variable {α : Type}

/-- The names lead down to `below`: each is that of a directory, the first of one at the top, and
every other of one inside the directory before it. Without names it is the forest itself. -/
inductive Leads : Forest α → List String → Forest α → Prop
  | self (g : Forest α) : Leads g [] g
  | inside {children below : Forest α} {names : List String} (name : String) (rest : Forest α) :
      Leads children names below → Leads (.directory name children rest) (name :: names) below
  | file {rest below : Forest α} {names : List String} (name : String) (content : α) :
      names ≠ [] → Leads rest names below → Leads (.file name content rest) names below
  | directory {rest below : Forest α} {names : List String} (name : String)
      (children : Forest α) :
      names ≠ [] → Leads rest names below → Leads (.directory name children rest) names below

namespace Leads

variable {g below : Forest α} {names : List String}

theorem trans {middle : Forest α} {others : List String} (h : g.Leads names middle)
    (hothers : middle.Leads others below) : g.Leads (names ++ others) below := by
  induction h with
  | self => exact hothers
  | inside name rest _ ih => exact .inside name rest (ih hothers)
  | file name content hne _ ih =>
    exact .file name content (List.append_ne_nil_of_left_ne_nil hne _) (ih hothers)
  | directory name children hne _ ih =>
    exact .directory name children (List.append_ne_nil_of_left_ne_nil hne _) (ih hothers)

theorem eq_self (h : g.Leads [] below) : below = g := by
  cases h with
  | self => rfl
  | file _ _ hne => exact absurd rfl hne
  | directory _ _ hne => exact absurd rfl hne

theorem mem_names (h : g.Leads names below) : ∀ name ∈ names, name ∈ g.names := by
  induction h with
  | self => simp
  | inside name rest _ ih =>
    intro n hn
    rcases List.mem_cons.mp hn with rfl | hn
    · exact List.mem_cons_self ..
    · exact List.mem_cons_of_mem _ (List.mem_append_left _ (ih n hn))
  | file name content _ _ ih => exact fun n hn => List.mem_cons_of_mem _ (ih n hn)
  | directory name children _ _ ih =>
    exact fun n hn => List.mem_cons_of_mem _ (List.mem_append_right _ (ih n hn))

theorem names_subset (h : g.Leads names below) : ∀ name ∈ below.names, name ∈ g.names := by
  induction h with
  | self => exact fun _ hn => hn
  | inside name rest _ ih =>
    exact fun n hn => List.mem_cons_of_mem _ (List.mem_append_left _ (ih n hn))
  | file name content _ _ ih => exact fun n hn => List.mem_cons_of_mem _ (ih n hn)
  | directory name children _ _ ih =>
    exact fun n hn => List.mem_cons_of_mem _ (List.mem_append_right _ (ih n hn))

theorem files_subset (h : g.Leads names below) (dir : Path) :
    ∀ file ∈ below.files (names.foldl Path.join dir), file ∈ g.files dir := by
  induction h generalizing dir with
  | self => exact fun _ hfile => hfile
  | inside name rest _ ih => exact fun file hfile => List.mem_append_left _ (ih _ file hfile)
  | file name content _ _ ih => exact fun file hfile => List.mem_cons_of_mem _ (ih dir file hfile)
  | directory name children _ _ ih =>
    exact fun file hfile => List.mem_append_right _ (ih dir file hfile)

/-- Every name leads one directory deeper. -/
theorem height_add_le (h : g.Leads names below) : below.height + names.length ≤ g.height := by
  induction h with
  | self => exact Nat.le_refl _
  | inside name rest _ ih =>
    rw [height, List.length_cons]
    omega
  | file name content _ _ ih =>
    rw [height]
    exact ih
  | directory name children _ _ ih =>
    rw [height]
    omega

end Leads

/-! ## Loads -/

namespace Leads

variable {g below : Forest Bytes} {names : List String}

/-- The loads of what is below stand in one piece, behind that of its directory. -/
theorem exists_loads (h : g.Leads names below) (hne : names ≠ []) (base : String) :
    ∃ before after, g.loads base =
      before ++ ⟨.directory (base ++ Entry.base names) (UInt32.ofNat below.length), []⟩ ::
        (below.loads (base ++ Entry.base names) ++ after) := by
  induction h generalizing base with
  | self => exact absurd rfl hne
  | @inside children below names name rest hbelow ih =>
    have hbase : base ++ Entry.base (name :: names) = base ++ name ++ "/" ++ Entry.base names := by
      rw [Entry.base, String.append_assoc, String.append_assoc, String.append_assoc]
    rw [loads, hbase]
    by_cases hlast : names = []
    · subst hlast
      refine ⟨[], rest.loads base, ?_⟩
      rw [hbelow.eq_self, Entry.base, String.append_empty, List.nil_append]
    · obtain ⟨before, after, hloads⟩ := ih hlast (base ++ name ++ "/")
      refine ⟨⟨.directory (base ++ name ++ "/") (UInt32.ofNat children.length), []⟩ :: before,
        after ++ rest.loads base, ?_⟩
      rw [hloads]
      simp
  | file name contents _ _ ih =>
    obtain ⟨before, after, hloads⟩ := ih hne base
    refine ⟨⟨.file (base ++ name), contents⟩ :: before, after, ?_⟩
    rw [loads, hloads, List.cons_append]
  | directory name children _ _ ih =>
    obtain ⟨before, after, hloads⟩ := ih hne base
    refine ⟨⟨.directory (base ++ name ++ "/") (UInt32.ofNat children.length), []⟩ ::
      (children.loads (base ++ name ++ "/") ++ before), after, ?_⟩
    rw [loads, hloads, List.cons_append, List.append_assoc]

end Leads

theorem length_loads (g : Forest Bytes) (base : String) : (g.loads base).length = g.size := by
  rw [← g.length_entries base, ← g.map_entry_loads base, List.length_map]

/-- Names lead to every directory among the loads. -/
theorem exists_leads_of_loads {g : Forest Bytes} {base path : String} {count : UInt32}
    {contents : Bytes} {before behind : List Load}
    (h : g.loads base = before ++ ⟨.directory path count, contents⟩ :: behind) :
    ∃ names below after, names ≠ [] ∧ g.Leads names below ∧ path = base ++ Entry.base names ∧
      count = UInt32.ofNat below.length ∧ contents = [] ∧ behind = below.loads path ++ after := by
  induction g generalizing base before behind with
  | nil => simp [loads] at h
  | file name content rest ih =>
    -- The load of a file is not the one of the directory, which comes later then.
    cases before with
    | nil => simp [loads] at h
    | cons first before =>
      obtain ⟨-, hrest⟩ := List.cons.inj h
      obtain ⟨names, below, after, hne, hleads, hparts⟩ := ih hrest
      exact ⟨names, below, after, hne, .file name content hne hleads, hparts⟩
  | directory name children rest ihc ih =>
    cases before with
    | nil =>
      obtain ⟨hload, hbehind⟩ := List.cons.inj h
      rw [Load.mk.injEq, Entry.directory.injEq] at hload
      obtain ⟨⟨rfl, rfl⟩, rfl⟩ := hload
      refine ⟨[name], children, rest.loads base, by simp, .inside name rest (.self children), ?_,
        rfl, rfl, hbehind.symm⟩
      simp [Entry.base, String.append_assoc]
    | cons first before =>
      obtain ⟨-, hothers⟩ := List.cons.inj h
      have hcut :
          (∃ front, rest.loads base = front ++ ⟨.directory path count, contents⟩ :: behind) ∨
          ∃ back, children.loads (base ++ name ++ "/") =
              before ++ ⟨.directory path count, contents⟩ :: back ∧
            behind = back ++ rest.loads base := by
        rcases List.append_eq_append_iff.mp hothers with
          ⟨front, -, hrest⟩ | ⟨back, hchildren, hback⟩
        · exact .inl ⟨front, hrest⟩
        · cases back with
          | nil => exact .inl ⟨[], hback.symm⟩
          | cons load back =>
            obtain ⟨rfl, rfl⟩ := List.cons.inj hback
            exact .inr ⟨back, hchildren, rfl⟩
      rcases hcut with ⟨front, hrest⟩ | ⟨back, hchildren, rfl⟩
      · obtain ⟨names, below, after, hne, hleads, hparts⟩ := ih hrest
        exact ⟨names, below, after, hne, .directory name children hne hleads, hparts⟩
      · obtain ⟨names, below, after, -, hleads, rfl, hcount, hcontents, rfl⟩ := ihc hchildren
        refine ⟨name :: names, below, after ++ rest.loads base, by simp, .inside name rest hleads,
          ?_, hcount, hcontents, List.append_assoc ..⟩
        simp [Entry.base, String.append_assoc]

/-- What is below is as storable as the whole forest. -/
theorem Leads.storable {g below : Forest Bytes} {names : List String} (h : g.Leads names below)
    (hstorable : g.Storable) : below.Storable := by
  refine ⟨fun name hname => hstorable.names name (h.names_subset name hname), ?_⟩
  have hfits := hstorable.fits
  by_cases hne : names = []
  · subst hne
    rwa [h.eq_self]
  · obtain ⟨before, after, hloads⟩ := h.exists_loads hne ""
    have hsize := g.length_loads ""
    have hdata := g.data_loads ""
    rw [hloads, List.length_append, List.length_cons, List.length_append, length_loads] at hsize
    rw [hloads, Load.data_append, Load.data_cons, Load.data_append, data_loads] at hdata
    have hlength := congrArg List.length hdata
    simp only [List.length_append] at hlength
    rw [Record.position, Record.size] at hfits ⊢
    omega

end Forest

/-! ## Sources -/

namespace Source

/-- Each of the names is listed as a directory where those before it lead to from `dir`. -/
def Descends (s : Source) : Path → List String → Prop
  | _, [] => True
  | dir, name :: names =>
    (∃ listing, s.entries dir = .ok listing ∧ (name, .directory) ∈ listing) ∧
      s.Descends (dir.join name) names

variable {α : Type} {s : Source} {root dir : Path} {listing : List (String × Kind)}
  {content : Path → α → Prop} {f below : Forest α} {names : List String}

theorem Reaches.trans {place : Path} (h : s.Reaches root dir) (hplace : s.Reaches dir place) :
    s.Reaches root place := by
  induction hplace with
  | root => exact h
  | step _ hentries hname ih => exact .step ih hentries hname

theorem Descends.reaches (h : s.Descends dir names) (hreaches : s.Reaches root dir) :
    s.Reaches root (names.foldl Path.join dir) := by
  induction names generalizing dir with
  | nil => exact hreaches
  | cons name names ih =>
    obtain ⟨⟨listing, hlisting, hname⟩, hrest⟩ := h
    exact ih hrest (.step hreaches hlisting hname)

/-- Where the names lead, the source lists what is below. -/
theorem Lists.of_leads (h : s.Lists content dir listing f) (hleads : f.Leads names below)
    (hlisting : names = [] → s.entries dir = .ok listing) :
    ∃ inner, s.entries (names.foldl Path.join dir) = .ok inner ∧
      s.Lists content (names.foldl Path.join dir) inner below := by
  induction hleads generalizing dir listing with
  | self => exact ⟨listing, hlisting rfl, h⟩
  | inside name rest _ ih =>
    cases h with
    | directory hinner hchildren hrest => exact ih hchildren fun _ => hinner
  | file name content hne _ ih =>
    cases h with
    | file hcontent hrest => exact ih hrest fun hempty => absurd hempty hne
  | directory name children hne _ ih =>
    cases h with
    | directory hinner hchildren hrest => exact ih hrest fun hempty => absurd hempty hne

/-- A directory that is listed leads to what it lists in turn. -/
theorem Lists.exists_child {name : String} (h : s.Lists content dir listing f)
    (hname : (name, .directory) ∈ listing) :
    ∃ inner children, s.entries (dir.join name) = .ok inner ∧
      s.Lists content (dir.join name) inner children ∧ f.Leads [name] children := by
  induction h with
  | nil => cases hname
  | @file dir other a others rest _ _ ih =>
    have hlater : (name, Kind.directory) ∈ others := by simpa using hname
    obtain ⟨inner, children, hinner, hlists, hleads⟩ := ih hlater
    exact ⟨inner, children, hinner, hlists, .file other a (by simp) hleads⟩
  | @directory dir other inner others children rest hinner hchildren _ _ ih =>
    rcases List.mem_cons.mp hname with heq | hlater
    · obtain ⟨rfl, -⟩ := Prod.mk.inj heq
      exact ⟨inner, children, hinner, hchildren, .inside name rest (.self children)⟩
    · obtain ⟨inner', children', hinner', hlists, hleads⟩ := ih hlater
      exact ⟨inner', children', hinner', hlists, .directory other children (by simp) hleads⟩

theorem Lists.exists_leads (h : s.Lists content dir listing f)
    (hlisting : s.entries dir = .ok listing) (hdescends : s.Descends dir names) :
    ∃ below, f.Leads names below := by
  induction names generalizing dir listing f with
  | nil => exact ⟨f, .self f⟩
  | cons name names ih =>
    obtain ⟨⟨listed, hlisted, hname⟩, hrest⟩ := hdescends
    rw [hlisting, Except.ok.injEq] at hlisted
    subst hlisted
    obtain ⟨inner, children, hinner, hlists, hchild⟩ := h.exists_child hname
    obtain ⟨below, hbelow⟩ := ih hlists hinner hrest
    exact ⟨below, hchild.trans hbelow⟩

/-- What is below a directory of the forest is borne there, if the source says that it is one. -/
theorem Bears.of_leads {g below : Forest Bytes} (h : s.Bears root g) (hleads : g.Leads names below)
    (hdirectory : s.isDirectory (names.foldl Path.join root) = true) :
    s.Bears (names.foldl Path.join root) below := by
  obtain ⟨listing, hlisting, hlists⟩ := h.holds
  refine ⟨hdirectory, hlists.of_leads hleads fun _ => hlisting, fun file hfile => ?_⟩
  exact h.sizes file (hleads.files_subset root file hfile)

end Source

end TreeImage
