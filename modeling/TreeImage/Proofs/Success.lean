import TreeImage.Proofs.Storable

/-!
# Builds that succeed

`Source.Bears` says that a source has a forest below a directory and is right about the sizes of its
files. Given steps for its height, the build from there ends: with an image if the forest is
storable, and else with a failure that says what an image cannot hold. That is so too if files are
missing whose names are refused, which `Source.Offers` allows. Conversely, where a build succeeded
there is such a forest. So success can be carried from one source or one root to another by looking
at forests only.
-/

namespace TreeImage

theorem Tree.Captured.isDirectory_eq {root : Path} {isDirectory : Bool} {listed : List Call}
    {tree : Tree Unit} (h : Tree.Captured root isDirectory listed (.done tree)) :
    isDirectory = true := by
  generalize hdone : Outcome.done tree = outcome at h
  cases h with
  | refused => cases hdone
  | walked => rfl

namespace Source

/-- The source has the forest below the directory `root`, and is right about the sizes. -/
structure Bears (s : Source) (root : Path) (g : Forest Bytes) : Prop where
  isDirectory : s.isDirectory root = true
  holds : s.Holds root g
  sizes : ∀ file ∈ g.files root, s.size file.1 = .ok file.2.length

variable {s : Source} {root dir : Path} {listing : List (String × Kind)} {g : Forest Bytes}

theorem Lists.contents {α : Type} {content : Path → α → Prop} {g : Forest α}
    (h : s.Lists content dir listing g) : ∀ file ∈ g.files dir, content file.1 file.2 := by
  induction h with
  | nil => simp [Forest.files]
  | file hcontent _ ih =>
    intro file hfile
    rcases List.mem_cons.mp hfile with rfl | hfile
    · exact hcontent
    · exact ih file hfile
  | directory _ _ _ ihc ih =>
    intro file hfile
    rcases List.mem_append.mp hfile with hfile | hfile
    · exact ihc file hfile
    · exact ih file hfile

theorem Bears.supplies (h : s.Bears root g) : s.Supplies (g.files root) := by
  obtain ⟨listing, -, hlists⟩ := h.holds
  exact fun file hfile => ⟨hlists.contents file hfile, h.sizes file hfile⟩

/-! ## Capturing -/

section Runs

variable {σ : Type} {respond : (request : Request) → σ → request.Answer × σ}

/-- What is listed is captured, if there are steps for its height. -/
theorem Lists.ends_ofListing {α : Type} {content : Path → α → Prop} {f : Forest α}
    (hs : s.Answers respond) (h : s.Lists content dir listing f) {depth : Nat}
    (hdepth : f.height ≤ depth) (state : σ) :
    ∃ after, (Forest.ofListing (Forest.capture depth) dir listing).Ends respond state
      (f.map fun _ => ()) after := by
  induction h generalizing depth state with
  | nil => exact ⟨state, rfl, rfl⟩
  | @file dir name a others rest _ _ ih =>
    obtain ⟨after, hrest⟩ := ih hdepth state
    exact ⟨after, Session.ends_bind_iff.mpr ⟨_, after, hrest, rfl, rfl⟩⟩
  | @directory dir name inner others children rest hinner _ _ ihc ih =>
    rw [Forest.height] at hdepth
    cases depth with
    | zero => omega
    | succ depth =>
      have hbelow : children.height ≤ depth := by omega
      have hbehind : rest.height ≤ depth + 1 := by omega
      obtain ⟨middle, hchildren⟩ := ihc hbelow (respond (.entries (dir.join name)) state).2
      obtain ⟨after, hrest⟩ := ih hbehind middle
      refine ⟨after, Session.ends_bind_iff.mpr ⟨children.map fun _ => (), middle, ?_, ?_⟩⟩
      · simp only [Forest.capture, Session.entries, Session.ends_bind_iff, Session.ends_ask_iff,
          Session.ends_ofExcept_iff, hs.entries, Session.ends_report_iff]
        exact ⟨inner, _, ⟨hinner, rfl⟩, (), _, rfl, hchildren⟩
      · exact Session.ends_bind_iff.mpr ⟨_, after, hrest, rfl, rfl⟩

theorem ends_capture {α : Type} {content : Path → α → Prop} {f : Forest α}
    (hs : s.Answers respond) (hdirectory : s.isDirectory root = true)
    (hlisting : s.entries root = .ok listing) (h : s.Lists content root listing f) {depth : Nat}
    (hdepth : f.height < depth) (state : σ) :
    ∃ after, (Tree.capture depth root).Ends respond state
      (.directory (root.fileName?.getD "") (f.map fun _ => ())) after := by
  cases depth with
  | zero => omega
  | succ depth =>
    have hasked : (respond (.isDirectory root) state).1 = true := by
      rw [hs.isDirectory, hdirectory]
    obtain ⟨after, hends⟩ := h.ends_ofListing hs (Nat.le_of_lt_succ hdepth)
      (respond (.entries root) (respond (.isDirectory root) state).2).2
    refine ⟨after, ?_⟩
    simp only [Tree.capture, Session.isDirectory, Session.ends_bind_iff, Session.ends_ask_iff,
      Session.ends_done_iff]
    refine ⟨true, _, ⟨hasked, rfl⟩, ?_⟩
    simp only [if_true, Forest.capture, Session.entries, Session.ends_bind_iff,
      Session.ends_ask_iff, Session.ends_ofExcept_iff, hs.entries, Session.ends_report_iff]
    exact ⟨_, after, ⟨listing, _, ⟨hlisting, rfl⟩, (), _, rfl, hends⟩, rfl, rfl⟩

theorem height_le_of_ofListing {below : Path → Session (Forest Unit)} {depth : Nat}
    (hbelow : ∀ path f before after, (below path).Ends respond before f after → f.height < depth)
    {before after : σ} {f : Forest Unit}
    (h : (Forest.ofListing below dir listing).Ends respond before f after) : f.height ≤ depth := by
  induction listing generalizing f before after with
  | nil =>
    simp only [Forest.ofListing, Session.pure_eq_done, Session.ends_done_iff] at h
    rcases h with ⟨rfl, -⟩
    exact Nat.zero_le _
  | cons entry others ih =>
    rcases entry with ⟨name, kind⟩
    cases kind with
    | file =>
      simp only [Forest.ofListing, Session.ends_bind_iff, Session.pure_eq_done,
        Session.ends_done_iff] at h
      rcases h with ⟨rest, _, hrest, rfl, -⟩
      rw [Forest.height]
      exact ih hrest
    | directory =>
      simp only [Forest.ofListing, Session.ends_bind_iff, Session.pure_eq_done,
        Session.ends_done_iff] at h
      rcases h with ⟨children, _, hchildren, rest, _, hrest, rfl, -⟩
      rw [Forest.height]
      exact Nat.max_le.mpr ⟨hbelow _ _ _ _ hchildren, ih hrest⟩

/-- A capture takes a step for every directory that it goes down. -/
theorem height_lt_of_capture {depth : Nat} {path : Path} {before after : σ} {f : Forest Unit}
    (h : (Forest.capture depth path).Ends respond before f after) : f.height < depth := by
  induction depth generalizing path f before after with
  | zero => simp [Forest.capture, Session.Ends, Session.run] at h
  | succ depth ih =>
    simp only [Forest.capture, Session.ends_bind_iff] at h
    rcases h with ⟨listing, _, -, _, _, -, hof⟩
    exact Nat.lt_succ_of_le (height_le_of_ofListing (fun path f before after h => ih h) hof)

theorem height_lt_of_tree {depth : Nat} {state : σ} {name : String} {f : Forest Unit}
    (h : ((Tree.capture depth root).run respond state).outcome = .done (.directory name f)) :
    f.height < depth := by
  obtain ⟨after, hends⟩ := Session.outcome_eq_done_iff.mp h
  simp only [Tree.capture, Session.isDirectory, Session.ends_bind_iff, Session.ends_ask_iff,
    Session.ends_done_iff] at hends
  rcases hends with ⟨_, _, -, hends⟩
  split at hends
  · simp only [Session.ends_bind_iff, Session.pure_eq_done, Session.ends_done_iff,
      Tree.directory.injEq] at hends
    rcases hends with ⟨_, _, hf, ⟨-, rfl⟩, -⟩
    exact height_lt_of_capture hf
  · simp at hends

/-! ## Building -/

/-- A planned forest fits where its source is right about the sizes, just if it can be stored. -/
theorem fits_iff_storable (root : Path) {layout : Layout} (hnames : ∀ name ∈ g.names, IsName name)
    (hentries : layout.entries = g.entries "") (hfileCount : layout.fileCount = g.fileCount) :
    layout.Fits root ((g.files root).map measure) ↔ g.Storable := by
  have hlength : layout.entries.length = g.size := by rw [hentries, g.length_entries]
  have hentryNames := Forest.map_name_entries (Path.Leads.self root) hnames
  have hsources := Forest.filterMap_source?_entries (Path.Leads.self root) hnames
  have htotal := g.totalSize_files root
  constructor
  · intro h
    refine ⟨fun name hname => ?_, ?_⟩
    · rw [← hentryNames, ← hentries] at hname
      obtain ⟨entry, hentry, rfl⟩ := List.mem_map.mp hname
      exact h.sized.names entry hentry
    · rw [← htotal, ← hlength]
      exact h.totalSize
  · intro h
    have hfits := h.fits
    refine ⟨⟨fun entry hentry => ?_, ?_⟩, ?_, ?_⟩
    · apply h.names
      rw [← hentryNames, ← hentries]
      exact List.mem_map_of_mem hentry
    · rw [hentries, hsources, List.map_map]
      rfl
    · have hfiles := g.fileCount_le_size
      rw [Record.position, Record.size] at hfits
      omega
    · rw [htotal, hlength]
      exact hfits

/-- With steps for its height, what is listed is captured, and laid out and packed if it is not too
large. -/
theorem Lists.build_cases {α : Type} {content : Path → α → Prop} {f : Forest α}
    (hs : s.Answers respond) (hdirectory : s.isDirectory root = true)
    (hlisting : s.entries root = .ok listing) (h : s.Lists content root listing f) {depth : Nat}
    (hdepth : f.height < depth) (state : σ) :
    (∃ failure, ((Image.build depth root).run respond state).outcome = .failed failure ∧
        failure.Unstorable ∧ ¬f.size < UInt32.size) ∨
      ∃ layout sized read, layout.entries = f.entries "" ∧ layout.fileCount = f.fileCount ∧
        Image.Packed root layout sized read
          ((Image.build depth root).run respond state).outcome ∧
        ∀ call ∈ sized ++ read, s.Gives call := by
  obtain ⟨captured, hcapture⟩ := ends_capture hs hdirectory hlisting h hdepth state
  obtain ⟨isDirectory, listed, sized, read, hcalls, -, hbuilt⟩ :=
    Image.build_calls respond depth root state
  have hgives := hs.gives (Image.build depth root) state
  rw [hcalls] at hgives
  rw [hcapture.1] at hbuilt
  generalize ((Image.build depth root).run respond state).outcome = outcome at hbuilt ⊢
  cases hbuilt with
  | unplanned hplan =>
    rcases Tree.plan_ok_or_unstorable (.directory (root.fileName?.getD "") (f.map fun _ => ())) with
      ⟨l, hl⟩ | ⟨failure, hfailure, hunstorable, hlarge⟩
    · rw [hplan] at hl
      cases hl
    · rw [hplan, Except.error.injEq] at hfailure
      subst hfailure
      rw [Tree.children, Forest.size_map] at hlarge
      exact .inl ⟨_, rfl, hunstorable, hlarge⟩
  | @packed _ layout _ _ _ hplan hpacked =>
    obtain ⟨-, hentries, hfileCount, -⟩ := Tree.plan_eq_ok hplan
    rw [Tree.children, Forest.entries_map] at hentries
    rw [Tree.children, Forest.fileCount_map] at hfileCount
    refine .inr ⟨layout, sized, read, hentries, hfileCount, hpacked, fun call hcall => ?_⟩
    apply hgives call
    rw [List.append_assoc]
    exact List.mem_cons_of_mem _ (List.mem_append_right _ hcall)

/-- With steps for its height, the build of a forest ends, and it succeeds just if an image can hold
the forest. -/
theorem Bears.build_ends (hs : s.Answers respond) (h : s.Bears root g)
    (hnames : ∀ name ∈ g.names, IsName name) {depth : Nat} (hdepth : g.height < depth) (state : σ) :
    ((∃ image, ((Image.build depth root).run respond state).outcome = .done image) ∧ g.Storable) ∨
      ((∃ failure, ((Image.build depth root).run respond state).outcome = .failed failure ∧
        failure.Unstorable) ∧ ¬g.Storable) := by
  obtain ⟨listing, hlisting, hlists⟩ := h.holds
  rcases hlists.build_cases hs h.isDirectory hlisting hdepth state with
    ⟨failure, hfailed, hunstorable, hlarge⟩ |
      ⟨layout, sized, read, hentries, hfileCount, hpacked, hgives⟩
  · refine .inr ⟨⟨failure, hfailed, hunstorable⟩, fun hstorable => hlarge ?_⟩
    have hfits := hstorable.fits
    rw [Record.position, Record.size] at hfits
    omega
  · have hsources := Forest.filterMap_source?_entries (Path.Leads.self root) hnames
    rw [← hentries] at hsources
    rw [← fits_iff_storable root hnames hentries hfileCount]
    exact packed_or_unstorable h.supplies hsources.symm hpacked hgives

/-- What a successful build leaves to say about its source. -/
structure Built (s : Source) (depth : Nat) (root : Path) (image : Image) (g : Forest Bytes) :
    Prop where
  bears : s.Bears root g
  names : ∀ name ∈ g.names, IsName name
  height : g.height < depth
  storable : g.Storable
  rootEntries : image.header.rootEntries.toNat = g.length
  packs : ∃ layout, image.Packs layout (g.loads "")

/-- The answers to a build that succeeded: the source was right about the sizes. -/
theorem sizes_of_packed {layout : Layout} {sized read : List Call} {image : Image}
    (hlists : s.Lists (fun path contents => s.contents path = .ok contents) root listing g)
    (hnames : ∀ name ∈ g.names, IsName name) (hentries : layout.entries = g.entries "")
    (hpacked : Image.Packed root layout sized read (.done image))
    (hgives : ∀ call ∈ sized ++ read, s.Gives call) :
    layout.Fits root ((g.files root).map measure) ∧
      ∀ file ∈ g.files root, s.size file.1 = .ok file.2.length := by
  have hsources := Forest.filterMap_source?_entries (Path.Leads.self root) hnames
  cases hpacked with
  | @done contents _ hfits =>
    have hpaths : contents.map Prod.fst = (g.files root).map Prod.fst := by
      rw [← hsources, ← hentries, ← hfits.sized.sources, List.map_map]
      rfl
    -- What was read at a place is what is there, so that both lists are the same.
    have hsame : contents = g.files root := by
      apply List.ext_getElem (by simpa using congrArg List.length hpaths)
      intro i hi hi'
      have hpath : contents[i].1 = (g.files root)[i].1 := by
        have hget := congrArg (fun paths => paths[i]?) hpaths
        simpa [hi, hi'] using hget
      have hread : s.contents contents[i].1 = .ok contents[i].2 :=
        hgives (Call.ofContents contents[i])
          (List.mem_append_right _ (List.mem_map_of_mem (List.getElem_mem hi)))
      rw [hpath, hlists.contents _ (List.getElem_mem hi'), Except.ok.injEq] at hread
      exact Prod.ext hpath hread.symm
    rw [hsame] at hfits hgives
    refine ⟨hfits, fun file hfile => ?_⟩
    exact hgives (Call.ofSize (measure file)) (List.mem_append_left _
      (List.mem_map_of_mem (List.mem_map_of_mem hfile)))

theorem exists_built (hs : s.Answers respond) (hnames : s.Names IsName root) {depth : Nat}
    {image : Image} {before after : σ}
    (h : (Image.build depth root).Ends respond before image after) :
    ∃ g, s.Built depth root image g := by
  obtain ⟨g, layout, hholds, hg, -, -, hroots, hpacks, hcapture⟩ :=
    packs_of_build hs hnames h
  obtain ⟨isDirectory, listed, sized, read, hcalls, hcaptured, hbuilt⟩ :=
    Image.build_calls respond depth root before
  have hgives := hs.gives (Image.build depth root) before
  rw [hcalls] at hgives
  rw [h.1, hcapture] at hbuilt
  rw [hcapture] at hcaptured
  have hheight := height_lt_of_tree hcapture
  rw [Forest.height_map] at hheight
  have hdirectory : s.isDirectory root = true := by
    have hanswer : s.isDirectory root = isDirectory := hgives _ (List.mem_cons_self ..)
    rw [hanswer, hcaptured.isDirectory_eq]
  cases hbuilt with
  | @packed _ planned _ _ _ hplan hpacked =>
    obtain ⟨-, hentries, hfiles, -⟩ := Tree.plan_eq_ok hplan
    rw [Tree.children, Forest.entries_map] at hentries
    rw [Tree.children, Forest.fileCount_map] at hfiles
    obtain ⟨listing, hlisting, hlists⟩ := hholds
    obtain ⟨hfits, hsizes⟩ := sizes_of_packed hlists hg hentries hpacked fun call hcall => by
      apply hgives call
      rw [List.append_assoc]
      exact List.mem_cons_of_mem _ (List.mem_append_right _ hcall)
    exact ⟨g, {
      bears := ⟨hdirectory, ⟨listing, hlisting, hlists⟩, hsizes⟩
      names := hg
      height := hheight
      storable := (fits_iff_storable root hg hentries hfiles).mp hfits
      rootEntries := by rw [hpacks.rootEntries, hroots]
      packs := ⟨layout, hpacks⟩ }⟩

end Runs

end Source

/-! ## Files that are missing

A directory can list a file that is not there. That does not matter if its name is refused, since
nothing is asked about it then. -/

namespace Forest

variable {α β : Type} {f : Forest (Option Bytes)}

/-- Where there are no contents, the name is refused. -/
def Excused : Forest (Option Bytes) → Prop
  | .nil => True
  | .file name contents rest => (contents = none → nameDefect? name ≠ none) ∧ rest.Excused
  | .directory _ children rest => children.Excused ∧ rest.Excused

/-- The forest with empty files where files are missing. -/
def filled (f : Forest (Option Bytes)) : Forest Bytes := f.map (·.getD [])

@[simp] theorem filled_map_some (g : Forest Bytes) : (g.map some).filled = g := by
  induction g with
  | nil => rfl
  | file name contents rest ih => exact congrArg (Forest.file name contents) ih
  | directory name children rest ihc ih =>
    exact congrArg₂ (Forest.directory name) ihc ih

/-- Nothing is missing where no name is refused. -/
theorem Excused.map_some_filled (h : f.Excused)
    (hnames : ∀ name ∈ f.names, nameDefect? name = none) : f.filled.map some = f := by
  induction f with
  | nil => rfl
  | file name contents rest ih =>
    have hrest := ih h.2 fun n hn => hnames n (List.mem_cons_of_mem _ hn)
    cases contents with
    | none => exact absurd (hnames name (List.mem_cons_self ..)) (h.1 rfl)
    | some contents => exact congrArg (Forest.file name (some contents)) hrest
  | directory name children rest ihc ih =>
    have hchildren := ihc h.1 fun n hn =>
      hnames n (List.mem_cons_of_mem _ (List.mem_append_left _ hn))
    have hrest := ih h.2 fun n hn =>
      hnames n (List.mem_cons_of_mem _ (List.mem_append_right _ hn))
    exact congrArg₂ (Forest.directory name) hchildren hrest

end Forest

namespace Source

variable {s : Source} {root dir : Path} {listing : List (String × Kind)}
  {f : Forest (Option Bytes)}

/-- What there is of a file can be read, and is as long as it is said to be. -/
def Readable (s : Source) (path : Path) (contents : Option Bytes) : Prop :=
  ∀ bytes ∈ contents, s.contents path = .ok bytes ∧ s.size path = .ok bytes.length

/-- The source lists the forest below the directory `root`, and no files are missing but those whose
names are refused. -/
structure Offers (s : Source) (root : Path) (f : Forest (Option Bytes)) : Prop where
  isDirectory : s.isDirectory root = true
  holds : ∃ listing, s.entries root = .ok listing ∧ s.Lists s.Readable root listing f
  excused : f.Excused

theorem Lists.of_map {α β : Type} {content : Path → β → Prop} {φ : α → β} {g : Forest α}
    (h : s.Lists content dir listing (g.map φ)) :
    s.Lists (fun path a => content path (φ a)) dir listing g := by
  induction g generalizing dir listing with
  | nil =>
    cases h
    exact .nil dir
  | file name a rest ih =>
    cases h with
    | file hcontent hrest => exact .file hcontent (ih hrest)
  | directory name children rest ihc ih =>
    cases h with
    | directory hinner hchildren hrest => exact .directory hinner (ihc hchildren) (ih hrest)

theorem Lists.imp {α : Type} {content content' : Path → α → Prop} {g : Forest α}
    (h : s.Lists content dir listing g) (himp : ∀ path a, content path a → content' path a) :
    s.Lists content' dir listing g := by
  induction h with
  | nil dir => exact .nil dir
  | file hcontent _ ih => exact .file (himp _ _ hcontent) ih
  | directory hinner _ _ ihc ih => exact .directory hinner ihc ih

theorem Offers.bears (h : s.Offers root f) (hnames : ∀ name ∈ f.names, nameDefect? name = none) :
    s.Bears root f.filled := by
  obtain ⟨listing, hlisting, hlists⟩ := h.holds
  rw [← h.excused.map_some_filled hnames] at hlists
  have hreadable := hlists.of_map
  refine ⟨h.isDirectory, ⟨listing, hlisting, hreadable.imp ?_⟩, fun file hfile => ?_⟩
  · exact fun path bytes hread => (hread bytes rfl).1
  · exact (hreadable.contents file hfile _ rfl).2

/-- The size of a file can be had, unless its name is refused. -/
theorem Lists.exists_size {base : String} (h : s.Lists s.Readable dir listing f)
    (hexcused : f.Excused) (hleads : root.Leads base dir) (hnames : ∀ name ∈ f.names, IsName name)
    {path : String} (hpath : .file path ∈ f.entries base)
    (hname : nameDefect? (Entry.file path).name = none) :
    ∃ size, s.size (root.append (.ofText path)) = .ok size := by
  induction h generalizing base with
  | nil => cases hpath
  | @file dir name contents others rest hread _ ih =>
    have hisName := hnames name (List.mem_cons_self ..)
    rcases List.mem_cons.mp hpath with heq | hpath
    · obtain rfl := Entry.file.inj heq
      rw [hleads.name_file hisName] at hname
      rw [hleads.append_eq hisName]
      obtain ⟨bytes, rfl⟩ := Option.ne_none_iff_exists'.mp fun hnone => hexcused.1 hnone hname
      exact ⟨_, (hread bytes rfl).2⟩
    · exact ih hexcused.2 hleads (fun n hn => hnames n (List.mem_cons_of_mem _ hn)) hpath
  | @directory dir name inner others children rest _ _ _ ihc ih =>
    have hisName := hnames name (List.mem_cons_self ..)
    rw [Forest.entries, List.mem_cons, List.mem_append] at hpath
    rcases hpath with heq | hpath | hpath
    · cases heq
    · exact ihc hexcused.1 (hleads.join hisName)
        (fun n hn => hnames n (List.mem_cons_of_mem _ (List.mem_append_left _ hn))) hpath
    · exact ih hexcused.2 hleads
        (fun n hn => hnames n (List.mem_cons_of_mem _ (List.mem_append_right _ hn))) hpath

/-- The build of what is offered ends too, and it succeeds just if an image can hold the forest;
then nothing was missing. -/
theorem Offers.build_ends {σ : Type}
    {respond : (request : Request) → σ → request.Answer × σ} (hs : s.Answers respond)
    (h : s.Offers root f) (hnames : ∀ name ∈ f.names, IsName name) {depth : Nat}
    (hdepth : f.height < depth) (state : σ) :
    ((∃ image, ((Image.build depth root).run respond state).outcome = .done image) ∧
        f.filled.Storable) ∨
      ((∃ failure, ((Image.build depth root).run respond state).outcome = .failed failure ∧
        failure.Unstorable) ∧ ¬f.filled.Storable) := by
  have hfilled : f.filled.names = f.names := f.names_map _
  by_cases haccepted : ∀ name ∈ f.names, nameDefect? name = none
  · rw [← hfilled] at hnames
    exact (h.bears haccepted).build_ends hs hnames (by rwa [Forest.filled, Forest.height_map]) state
  · refine .inr ⟨?_, fun hstorable => haccepted (hfilled ▸ hstorable.names)⟩
    obtain ⟨listing, hlisting, hlists⟩ := h.holds
    rcases hlists.build_cases hs h.isDirectory hlisting hdepth state with
      ⟨failure, hfailed, hunstorable, -⟩ |
        ⟨layout, sized, read, hentries, -, hpacked, hgives⟩
    · exact ⟨failure, hfailed, hunstorable⟩
    · have hentryNames := Forest.map_name_entries (Path.Leads.self root) hnames
      apply unstorable_of_defect hpacked _ _ hgives
      · intro hall
        apply haccepted
        rw [← hentryNames, ← hentries]
        simpa using hall
      · intro path hpath
        rw [hentries] at hpath
        exact hlists.exists_size h.excused (Path.Leads.self root) hnames hpath

end Source

end TreeImage
