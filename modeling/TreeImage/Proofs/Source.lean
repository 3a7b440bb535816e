import TreeImage.Proofs.Contents
import TreeImage.Proofs.Naming

/-!
# Builds from a source

A source answers by nothing but the text of a path. `Source.Lists` says which forest its listings
give when they are followed from a directory, every name joined onto the path of the directory that
listed it. What a build captures is that forest, and what it reads for the files are the contents at
those paths, although it asks for them by the paths of the layout. So the image holds the forest.
-/

namespace TreeImage

structure Source where
  isDirectory : Path → Bool
  entries : Path → Except Failure (List (String × Kind))
  size : Path → Except Failure Nat
  contents : Path → Except Failure Bytes

namespace Source

/-- Requests for reading are answered by the source, in every state. -/
structure Answers {σ : Type} (s : Source)
    (respond : (request : Request) → σ → request.Answer × σ) : Prop where
  isDirectory : ∀ path state, (respond (.isDirectory path) state).1 = s.isDirectory path
  entries : ∀ path state, (respond (.entries path) state).1 = s.entries path
  size : ∀ path state, (respond (.size path) state).1 = s.size path
  contents : ∀ path state, (respond (.contents path) state).1 = s.contents path

def answer (s : Source) : (request : Request) → request.Answer
  | .isDirectory path => s.isDirectory path
  | .entries path => s.entries path
  | .size path => s.size path
  | .contents path => s.contents path
  | .write _ _ => .ok ()

/-- The surroundings without a state that answer by the source, and let everything be written. -/
def respond (s : Source) (request : Request) (state : Unit) : request.Answer × Unit :=
  (s.answer request, state)

theorem answers_respond (s : Source) : s.Answers s.respond :=
  ⟨fun _ _ => rfl, fun _ _ => rfl, fun _ _ => rfl, fun _ _ => rfl⟩

/-- The forest that a listing of `dir` leads to. Its files carry what `content` says. -/
inductive Lists {α : Type} (s : Source) (content : Path → α → Prop) :
    Path → List (String × Kind) → Forest α → Prop
  | nil (dir : Path) : Lists s content dir [] .nil
  | file {dir : Path} {name : String} {a : α} {others : List (String × Kind)} {rest : Forest α} :
      content (dir.join name) a → Lists s content dir others rest →
      Lists s content dir ((name, .file) :: others) (.file name a rest)
  | directory {dir : Path} {name : String} {inner others : List (String × Kind)}
      {children rest : Forest α} :
      s.entries (dir.join name) = .ok inner → Lists s content (dir.join name) inner children →
      Lists s content dir others rest →
      Lists s content dir ((name, .directory) :: others) (.directory name children rest)

/-- The forest below `dir`, with the contents of its files. -/
def Holds (s : Source) (dir : Path) (g : Forest Bytes) : Prop :=
  ∃ listing, s.entries dir = .ok listing ∧
    s.Lists (fun path contents => s.contents path = .ok contents) dir listing g

/-- The directories that the listings lead to from `root`. -/
inductive Reaches (s : Source) (root : Path) : Path → Prop
  | root : Reaches s root root
  | step {dir : Path} {listing : List (String × Kind)} {name : String} : Reaches s root dir →
      s.entries dir = .ok listing → (name, .directory) ∈ listing → Reaches s root (dir.join name)

/-- Whether all names that are listed anywhere below `root` are as `allowed` says. -/
def Names (s : Source) (allowed : String → Prop) (root : Path) : Prop :=
  ∀ dir listing, s.Reaches root dir → s.entries dir = .ok listing →
    ∀ entry ∈ listing, allowed entry.1

variable {s : Source} {root dir : Path} {listing : List (String × Kind)}

theorem Lists.length_eq {α : Type} {content : Path → α → Prop} {f : Forest α}
    (h : s.Lists content dir listing f) : f.length = listing.length := by
  induction h with
  | nil => rfl
  | file _ _ ih => rw [Forest.length, List.length_cons, ih]
  | directory _ _ _ _ ih => rw [Forest.length, List.length_cons, ih]

/-- What holds of all listed names holds of all names of the forest. The listing is taken as the end
of what the directory lists. -/
theorem Lists.names {α : Type} {content : Path → α → Prop} {f : Forest α} {allowed : String → Prop}
    (hnames : s.Names allowed root) (h : s.Lists content dir listing f)
    (hreaches : s.Reaches root dir) (before : List (String × Kind))
    (hentries : s.entries dir = .ok (before ++ listing)) : ∀ name ∈ f.names, allowed name := by
  induction h generalizing before with
  | nil => simp [Forest.names]
  | @file dir name a others rest _ _ ih =>
    have hname := hnames dir _ hreaches hentries (name, .file) (by simp)
    have hothers := ih hreaches (before ++ [(name, .file)]) (by simpa using hentries)
    simpa [Forest.names] using ⟨hname, hothers⟩
  | @directory dir name inner others children rest hinner _ _ ihc ih =>
    have hname := hnames dir _ hreaches hentries (name, .directory) (by simp)
    have hbelow : s.Reaches root (dir.join name) := .step hreaches hentries (by simp)
    have hchildren := ihc hbelow [] hinner
    have hothers := ih hreaches (before ++ [(name, .directory)]) (by simpa using hentries)
    intro n hn
    simp only [Forest.names, List.mem_cons, List.mem_append] at hn
    rcases hn with rfl | hn | hn
    · exact hname
    · exact hchildren n hn
    · exact hothers n hn

/-! ## The loads of a forest -/

end Source

namespace Forest

variable {α β : Type}

@[simp] theorem entries_map (f : α → β) (g : Forest α) (base : String) :
    (g.map f).entries base = g.entries base := by
  induction g generalizing base with
  | nil => rfl
  | file name content rest ih => simp [map, entries, ih]
  | directory name children rest ihc ih => simp [map, entries, ihc, ih]

@[simp] theorem fileCount_map (f : α → β) (g : Forest α) : (g.map f).fileCount = g.fileCount := by
  induction g with
  | nil => rfl
  | file name content rest ih => simp [map, fileCount, ih]
  | directory name children rest ihc ih => simp [map, fileCount, ihc, ih]

/-- The entries of a forest whose paths begin with `base`, with the contents of the files. -/
def loads (base : String) : Forest Bytes → List Load
  | .nil => []
  | .file name contents rest => ⟨.file (base ++ name), contents⟩ :: rest.loads base
  | .directory name children rest =>
    ⟨.directory (base ++ name ++ "/") (UInt32.ofNat children.length), []⟩ ::
      (children.loads (base ++ name ++ "/") ++ rest.loads base)

theorem map_entry_loads (g : Forest Bytes) (base : String) :
    (g.loads base).map Load.entry = g.entries base := by
  induction g generalizing base with
  | nil => rfl
  | file name contents rest ih => simp [loads, entries, ih]
  | directory name children rest ihc ih => simp [loads, entries, ihc, ih]

theorem data_loads (g : Forest Bytes) (base : String) : Load.data (g.loads base) = g.data := by
  induction g generalizing base with
  | nil => rfl
  | file name contents rest ih => rw [loads, Load.data_cons, ih, data]
  | directory name children rest ihc ih =>
    rw [loads, Load.data_cons, Load.data_append, ihc, ih, data, List.nil_append]

/-- The paths of the entries end with the names of the nodes. -/
theorem records_loads {root dir : Path} {base : String} {g : Forest Bytes}
    (hleads : root.Leads base dir) (hnames : ∀ name ∈ g.names, IsName name) (offset : Nat) :
    Load.records offset (g.loads base) = g.records offset := by
  induction g generalizing dir base offset with
  | nil => rfl
  | file name contents rest ih =>
    have hname := hnames name (List.mem_cons_self ..)
    have hrest := ih hleads (fun n hn => hnames n (List.mem_cons_of_mem _ hn))
      (offset + contents.length)
    rw [loads, Load.records, hrest, records, Load.record, hleads.name_file hname]
  | directory name children rest ihc ih =>
    have hname := hnames name (List.mem_cons_self ..)
    have hchildren := ihc (hleads.join hname)
      (fun n hn => hnames n (List.mem_cons_of_mem _ (List.mem_append_left _ hn))) offset
    have hrest := ih hleads
      (fun n hn => hnames n (List.mem_cons_of_mem _ (List.mem_append_right _ hn)))
      (offset + children.data.length)
    rw [loads, Load.records, Load.records_append, records, Load.record,
      hleads.name_directory hname, data_loads, List.length_nil, Nat.add_zero, hchildren, hrest]

end Forest

namespace Source

variable {s : Source} {root dir : Path} {listing : List (String × Kind)}

/-! ## Capturing -/

section Runs

variable {σ : Type} {respond : (request : Request) → σ → request.Answer × σ} {before after : σ}

theorem lists_of_ofListing {below : Path → Session (Forest Unit)} {f : Forest Unit}
    (hbelow : ∀ path f before after, (below path).Ends respond before f after →
      ∃ listing, s.entries path = .ok listing ∧ s.Lists (fun _ _ => True) path listing f)
    (h : (Forest.ofListing below dir listing).Ends respond before f after) :
    s.Lists (fun _ _ => True) dir listing f := by
  induction listing generalizing f before after with
  | nil =>
    simp only [Forest.ofListing, Session.pure_eq_done, Session.ends_done_iff] at h
    rcases h with ⟨rfl, -⟩
    exact .nil dir
  | cons entry others ih =>
    rcases entry with ⟨name, kind⟩
    cases kind with
    | file =>
      simp only [Forest.ofListing, Session.ends_bind_iff, Session.pure_eq_done,
        Session.ends_done_iff] at h
      rcases h with ⟨rest, _, hrest, rfl, -⟩
      exact .file trivial (ih hrest)
    | directory =>
      simp only [Forest.ofListing, Session.ends_bind_iff, Session.pure_eq_done,
        Session.ends_done_iff] at h
      rcases h with ⟨children, _, hchildren, rest, _, hrest, rfl, -⟩
      obtain ⟨inner, hinner, hlists⟩ := hbelow _ _ _ _ hchildren
      exact .directory hinner hlists (ih hrest)

theorem lists_of_capture (hs : s.Answers respond) {depth : Nat} {path : Path} {f : Forest Unit}
    (h : (Forest.capture depth path).Ends respond before f after) :
    ∃ listing, s.entries path = .ok listing ∧ s.Lists (fun _ _ => True) path listing f := by
  induction depth generalizing path f before after with
  | zero => simp [Forest.capture, Session.Ends, Session.run] at h
  | succ depth ih =>
    simp only [Forest.capture, Session.entries, Session.ends_bind_iff, Session.ends_ask_iff,
      Session.ends_ofExcept_iff, hs.entries, Session.ends_report_iff] at h
    rcases h with ⟨listing, _, ⟨hlisting, -⟩, ⟨⟩, _, -, hof⟩
    exact ⟨listing, hlisting, lists_of_ofListing (fun path f before after h => ih h) hof⟩

/-- Loads for the entries of a forest, with the contents that were answered, are those of the forest
filled with the contents at its places. -/
theorem Lists.exists_filled (hs : s.Answers respond) {base : String} {f : Forest Unit}
    {loads : List Load} (h : s.Lists (fun _ _ => True) dir listing f)
    (hleads : root.Leads base dir) (hnames : ∀ name ∈ f.names, IsName name)
    (hloads : loads.map Load.entry = f.entries base)
    (hanswered : ∀ load ∈ loads, load.Answered respond root) :
    ∃ g : Forest Bytes, g.map (fun _ => ()) = f ∧
      s.Lists (fun path contents => s.contents path = .ok contents) dir listing g ∧
      loads = g.loads base := by
  -- The induction follows the listings. The loads of what is below a directory end where the
  -- entries of its children do, and what was answered for a file is looked up at its joined path.
  induction h generalizing base loads with
  | nil dir =>
    rw [Forest.entries, List.map_eq_nil_iff] at hloads
    subst hloads
    exact ⟨.nil, rfl, .nil dir, rfl⟩
  | @file dir name a others rest _ _ ih =>
    rw [Forest.entries, List.map_eq_cons_iff] at hloads
    rcases hloads with ⟨⟨entry, contents⟩, later, rfl, rfl, hlater⟩
    have hname := hnames name (List.mem_cons_self ..)
    obtain ⟨g, rfl, hlists, rfl⟩ := ih hleads
      (fun n hn => hnames n (List.mem_cons_of_mem _ hn)) hlater
      (fun load hload => hanswered load (List.mem_cons_of_mem _ hload))
    obtain ⟨state, hcontents⟩ := hanswered _ (List.mem_cons_self ..)
    rw [hs.contents, hleads.append_eq hname] at hcontents
    exact ⟨.file name contents g, rfl, .file hcontents hlists, rfl⟩
  | @directory dir name inner others children rest hinner _ _ ihc ih =>
    rw [Forest.entries, List.map_eq_cons_iff] at hloads
    rcases hloads with ⟨⟨entry, contents⟩, later, rfl, rfl, hlater⟩
    obtain ⟨below, behind, rfl, hbelow, hbehind⟩ := List.map_eq_append_iff.mp hlater
    have hname := hnames name (List.mem_cons_self ..)
    obtain ⟨g, rfl, hlists, rfl⟩ := ihc (hleads.join hname)
      (fun n hn => hnames n (List.mem_cons_of_mem _ (List.mem_append_left _ hn))) hbelow
      (fun load hload => hanswered load (List.mem_cons_of_mem _ (List.mem_append_left _ hload)))
    obtain ⟨g', rfl, hlists', rfl⟩ := ih hleads
      (fun n hn => hnames n (List.mem_cons_of_mem _ (List.mem_append_right _ hn))) hbehind
      (fun load hload => hanswered load (List.mem_cons_of_mem _ (List.mem_append_right _ hload)))
    have hempty : contents = [] := hanswered _ (List.mem_cons_self ..)
    subst hempty
    refine ⟨.directory name g g', rfl, .directory hinner hlists hlists', ?_⟩
    rw [Forest.loads, Forest.length_map]

theorem capture_eq (hs : s.Answers respond) {depth : Nat} {tree : Tree Unit}
    (h : (Tree.capture depth root).Ends respond before tree after) :
    ∃ f listing, tree = .directory (root.fileName?.getD "") f ∧ s.entries root = .ok listing ∧
      s.Lists (fun _ _ => True) root listing f := by
  simp only [Tree.capture, Session.isDirectory, Session.ends_bind_iff, Session.ends_ask_iff,
    Session.ends_done_iff] at h
  rcases h with ⟨_, state, -, h⟩
  split at h
  · simp only [Session.ends_bind_iff, Session.pure_eq_done, Session.ends_done_iff] at h
    rcases h with ⟨f, _, hf, rfl, -⟩
    obtain ⟨listing, hlisting, hlists⟩ := lists_of_capture hs hf
    exact ⟨f, listing, rfl, hlisting, hlists⟩
  · simp at h

/-- The image of a build is packed from the forest below its root. -/
theorem packs_of_build (hs : s.Answers respond) (hnames : s.Names IsName root) {depth : Nat}
    {image : Image} (h : (Image.build depth root).Ends respond before image after) :
    ∃ (g : Forest Bytes) (layout : Layout), s.Holds root g ∧ (∀ name ∈ g.names, IsName name) ∧
      g.Countable ∧ layout.fileCount = g.fileCount ∧ layout.rootEntries.toNat = g.length ∧
      image.Packs layout (g.loads "") ∧
      ((Tree.capture depth root).run respond before).outcome =
        .done (.directory (root.fileName?.getD "") (g.map fun _ => ())) := by
  obtain ⟨tree, layout, captured, hcapture, hplan, hpack⟩ := Image.planned_of_build h
  obtain ⟨loads, hpacks, hanswered⟩ := Image.packs_of_ends hpack
  obtain ⟨f, listing, rfl, hlisting, hlists⟩ := capture_eq hs hcapture
  obtain ⟨hcountable, hentries, hfileCount, hroots⟩ := Tree.plan_eq_ok hplan
  simp only [Tree.children] at hcountable hentries hfileCount hroots
  have hf : ∀ name ∈ f.names, IsName name := hlists.names hnames .root [] hlisting
  have hloads : loads.map Load.entry = f.entries "" := hpacks.entries.trans hentries
  obtain ⟨g, rfl, hfilled, rfl⟩ :=
    hlists.exists_filled hs (Path.Leads.self root) hf hloads hanswered
  rw [Forest.names_map] at hf
  rw [Forest.countable_map] at hcountable
  rw [Forest.fileCount_map] at hfileCount
  rw [Forest.length_map] at hroots
  exact ⟨g, layout, ⟨listing, hlisting, hfilled⟩, hf, hcountable, hfileCount, hroots, hpacks,
    hcapture.1⟩

/-- The image of a build holds the forest below its root. -/
theorem holds_of_build (hs : s.Answers respond) (hnames : s.Names IsName root) {depth : Nat}
    {image : Image} (h : (Image.build depth root).Ends respond before image after) :
    ∃ g : Forest Bytes, s.Holds root g ∧ image.Holds g ∧
      ((Tree.capture depth root).run respond before).outcome =
        .done (.directory (root.fileName?.getD "") (g.map fun _ => ())) := by
  obtain ⟨g, layout, hholds, hg, hcountable, hfileCount, hroots, hpacks, hcapture⟩ :=
    packs_of_build hs hnames h
  have hrecords := Forest.records_loads (Path.Leads.self root) hg 0
  have hdata := g.data_loads ""
  have hwithin := Load.within_data (g.loads "")
  have hassembled := hpacks.assembled
  have hfiles := Load.countP_records 0 (g.loads "")
  rw [hrecords, hdata] at hwithin hassembled
  rw [hrecords, Forest.map_entry_loads, Forest.countP_entries, ← hfileCount,
    ← hpacks.fileCount] at hfiles
  refine ⟨g, hholds, ?_, hcapture⟩
  exact {
    countable := hcountable
    rootEntries := by rw [hpacks.rootEntries, hroots]
    fileCount := hfiles
    within := hwithin
    assembled := hassembled }

end Runs

end Source

end TreeImage
