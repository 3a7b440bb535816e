import TreeImage.Proofs.Conduct
import TreeImage.Proofs.Source

/-!
# What can be stored

A source that is right about the sizes of its files leaves a build nothing to fail on but what the
image cannot store: a name that is refused, or a number that does not fit in 32 bits. `Storable`
says of a forest that there is no such thing in it. The build of a source that has a forest below
its root succeeds just if the forest is storable.
-/

namespace TreeImage

/-- The failures of an image that cannot hold what was captured. -/
def Failure.Unstorable : Failure → Prop
  | .nameTooLong _ _ => True
  | .nameNotAscii _ => True
  | .overflow _ _ => True
  | _ => False

/-! ## Forests -/

namespace Forest

variable {α β : Type}

/-- How deep directories are nested. -/
def height : Forest α → Nat
  | .nil => 0
  | .file _ _ rest => rest.height
  | .directory _ children rest => max (children.height + 1) rest.height

/-- The files with their contents, at the places that their names lead to from `dir`. -/
def files (dir : Path) : Forest α → List (Path × α)
  | .nil => []
  | .file name content rest => (dir.join name, content) :: rest.files dir
  | .directory name children rest => children.files (dir.join name) ++ rest.files dir

/-- An image can hold the forest. -/
structure Storable (g : Forest Bytes) : Prop where
  names : ∀ name ∈ g.names, nameDefect? name = none
  fits : Record.position g.size + g.data.length < UInt32.size

@[simp] theorem height_map (f : α → β) (g : Forest α) : (g.map f).height = g.height := by
  induction g with
  | nil => rfl
  | file name content rest ih => simp [map, height, ih]
  | directory name children rest ihc ih => simp [map, height, ihc, ih]

@[simp] theorem size_map (f : α → β) (g : Forest α) : (g.map f).size = g.size := by
  induction g with
  | nil => rfl
  | file name content rest ih => simp [map, size, ih]
  | directory name children rest ihc ih => simp [map, size, ihc, ih]

theorem length_entries (g : Forest α) (base : String) : (g.entries base).length = g.size := by
  induction g generalizing base with
  | nil => rfl
  | file name content rest ih => simp [entries, size, ih]
  | directory name children rest ihc ih => simp [entries, size, ihc, ih]

theorem length_le_size (g : Forest α) : g.length ≤ g.size := by
  induction g with
  | nil => exact Nat.le_refl _
  | file name content rest ih => exact Nat.succ_le_succ ih
  | directory name children rest _ ih =>
    simp only [length, size]
    omega

theorem fileCount_le_size (g : Forest α) : g.fileCount ≤ g.size := by
  induction g with
  | nil => exact Nat.le_refl _
  | file name content rest ih => exact Nat.succ_le_succ ih
  | directory name children rest ihc ih =>
    simp only [fileCount, size]
    omega

/-- A directory has no more children than there are nodes. -/
theorem countable_of_size_lt {g : Forest α} (h : g.size < UInt32.size) : g.Countable := by
  induction g with
  | nil => trivial
  | file name content rest ih =>
    rw [size] at h
    exact ih (by omega)
  | directory name children rest ihc ih =>
    have hlength := children.length_le_size
    rw [size] at h
    exact ⟨by omega, ihc (by omega), ih (by omega)⟩

theorem totalSize_files (g : Forest Bytes) (dir : Path) :
    totalSize ((g.files dir).map measure) = g.data.length := by
  induction g generalizing dir with
  | nil => rfl
  | file name contents rest ih =>
    rw [files, List.map_cons, totalSize, ih, data, List.length_append, measure]
  | directory name children rest ihc ih =>
    rw [files, List.map_append, totalSize_append, ihc, ih, data, List.length_append]

section Paths

variable {root dir : Path} {base : String} {g : Forest α}

/-- The contents of the entries are found where the names lead. -/
theorem filterMap_source?_entries (hleads : root.Leads base dir)
    (hnames : ∀ name ∈ g.names, IsName name) :
    (g.entries base).filterMap (Entry.source? root) = (g.files dir).map Prod.fst := by
  induction g generalizing base dir with
  | nil => rfl
  | file name content rest ih =>
    have hname := hnames name (List.mem_cons_self ..)
    have hrest := ih hleads fun n hn => hnames n (List.mem_cons_of_mem _ hn)
    rw [entries, List.filterMap_cons, Entry.source?, hleads.append_eq hname, hrest]
    rfl
  | directory name children rest ihc ih =>
    have hname := hnames name (List.mem_cons_self ..)
    have hchildren := ihc (hleads.join hname)
      fun n hn => hnames n (List.mem_cons_of_mem _ (List.mem_append_left _ hn))
    have hrest := ih hleads
      fun n hn => hnames n (List.mem_cons_of_mem _ (List.mem_append_right _ hn))
    rw [entries, List.filterMap_cons, Entry.source?, List.filterMap_append, hchildren, hrest, files,
      List.map_append]

theorem map_name_entries (hleads : root.Leads base dir) (hnames : ∀ name ∈ g.names, IsName name) :
    (g.entries base).map Entry.name = g.names := by
  induction g generalizing base dir with
  | nil => rfl
  | file name content rest ih =>
    have hname := hnames name (List.mem_cons_self ..)
    have hrest := ih hleads fun n hn => hnames n (List.mem_cons_of_mem _ hn)
    rw [entries, List.map_cons, hleads.name_file hname, hrest, names]
  | directory name children rest ihc ih =>
    have hname := hnames name (List.mem_cons_self ..)
    have hchildren := ihc (hleads.join hname)
      fun n hn => hnames n (List.mem_cons_of_mem _ (List.mem_append_left _ hn))
    have hrest := ih hleads
      fun n hn => hnames n (List.mem_cons_of_mem _ (List.mem_append_right _ hn))
    rw [entries, List.map_cons, List.map_append, hleads.name_directory hname, hchildren, hrest,
      names]

end Paths

/-! ## Planning -/

/-- A forest is laid out if every count fits in a word, and else refused. -/
theorem flatten_ok_or_unstorable (f : Forest α) (base : String) :
    (∃ l, f.flatten base = .ok l) ∨
      ∃ failure, f.flatten base = .error failure ∧ failure.Unstorable ∧ ¬f.Countable := by
  induction f generalizing base with
  | nil => exact .inl ⟨_, rfl⟩
  | file name content rest ih =>
    rcases ih base with ⟨l, hl⟩ | ⟨failure, hfailure, hunstorable, hnot⟩
    · exact .inl ⟨_, by rw [flatten, hl]; rfl⟩
    · exact .inr ⟨failure, by rw [flatten, hfailure]; rfl, hunstorable, hnot⟩
  | directory name children rest ihc ih =>
    cases hcount : Field.childCount.fit (base ++ name ++ "/") children.length with
    | error failure =>
      obtain ⟨hlarge, rfl⟩ := Field.fit_eq_error_iff.mp hcount
      refine .inr ⟨.overflow .childCount _, by rw [flatten, hcount]; rfl, trivial, ?_⟩
      intro hcountable
      exact absurd hcountable.1 (Nat.not_lt.mpr hlarge)
    | ok count =>
      rcases ihc (base ++ name ++ "/") with ⟨inner, hinner⟩ | ⟨failure, hfailure, hunstorable, hnot⟩
      · rcases ih base with ⟨l, hl⟩ | ⟨failure, hfailure, hunstorable, hnot⟩
        · exact .inl ⟨_, by rw [flatten, hcount, hinner, hl]; rfl⟩
        · refine .inr ⟨failure, by rw [flatten, hcount, hinner, hfailure]; rfl, hunstorable, ?_⟩
          exact fun hcountable => hnot hcountable.2.2
      · refine .inr ⟨failure, by rw [flatten, hcount, hfailure]; rfl, hunstorable, ?_⟩
        exact fun hcountable => hnot hcountable.2.1

end Forest

theorem Tree.plan_ok_or_unstorable {α : Type} (root : Tree α) :
    (∃ l, root.plan = .ok l) ∨ ∃ failure, root.plan = .error failure ∧ failure.Unstorable ∧
      ¬root.children.size < UInt32.size := by
  rcases root.children.flatten_ok_or_unstorable "" with ⟨l, hl⟩ | ⟨failure, hfailure, hun, hnot⟩
  · cases hcount : Field.childCount.fit "" root.children.length with
    | error failure =>
      obtain ⟨hlarge, rfl⟩ := Field.fit_eq_error_iff.mp hcount
      have hlength := root.children.length_le_size
      refine .inr ⟨.overflow .childCount "", ?_, trivial, by omega⟩
      simp only [plan, hl, hcount, bind, Except.bind]
    | ok count =>
      refine .inl ⟨{ l with spans := ("", ⟨0, l.entries.length, count⟩) :: l.spans }, ?_⟩
      simp only [plan, hl, hcount, bind, Except.bind]
      rfl
  · refine .inr ⟨failure, by rw [plan, hfailure]; rfl, hun, fun hsize => hnot ?_⟩
    exact Forest.countable_of_size_lt hsize

theorem Entry.unstorable_of_check {entry : Entry} {failure : Failure}
    (h : entry.check = .error failure) : failure.Unstorable ∧ nameDefect? entry.name ≠ none := by
  unfold Entry.check at h
  split at h
  · cases h
  · next hdefect =>
    cases h
    exact ⟨trivial, by simp [hdefect]⟩
  · next hdefect =>
    cases h
    exact ⟨trivial, by simp [hdefect]⟩

/-! ## Packing from a source -/

namespace Source

variable {s : Source} {root dir : Path} {layout : Layout} {contents : List (Path × Bytes)}

/-- The source answers a call so. -/
def Gives (s : Source) : Call → Prop
  | ⟨.isDirectory path, answer⟩ => s.isDirectory path = answer
  | ⟨.entries path, answer⟩ => s.entries path = answer
  | ⟨.size path, answer⟩ => s.size path = answer
  | ⟨.contents path, answer⟩ => s.contents path = answer
  | ⟨.write _ _, _⟩ => True

theorem Answers.gives {σ : Type} {respond : (request : Request) → σ → request.Answer × σ}
    (hs : s.Answers respond) {α : Type} (session : Session α) (state : σ) :
    ∀ call ∈ session.calls respond state, s.Gives call := by
  induction session generalizing state with
  | done result => simp [Session.calls]
  | fail failure => simp [Session.calls]
  | unfinished => simp [Session.calls]
  | tell event next ih => exact ih state
  | ask request next ih =>
    intro call hcall
    rcases List.mem_cons.mp hcall with rfl | hcall
    · cases request with
      | isDirectory path => exact (hs.isDirectory path state).symm
      | entries path => exact (hs.entries path state).symm
      | size path => exact (hs.size path state).symm
      | contents path => exact (hs.contents path state).symm
      | write path bytes => trivial
    · exact ih _ _ call hcall

/-- The source has these files, and is right about their sizes. -/
def Supplies (s : Source) (files : List (Path × Bytes)) : Prop :=
  ∀ file ∈ files, s.contents file.1 = .ok file.2 ∧ s.size file.1 = .ok file.2.length

/-- The sizes that are obtained are those of the contents. -/
theorem Supplies.measure_begins (h : s.Supplies contents) {files : List (Path × Nat)}
    (hsources : files.map Prod.fst <+: contents.map Prod.fst)
    (hsizes : ∀ call ∈ files.map Call.ofSize, s.Gives call) : files <+: contents.map measure := by
  induction files generalizing contents with
  | nil => exact List.nil_prefix
  | cons file files ih =>
    cases contents with
    | nil => simp at hsources
    | cons first contents =>
      rw [List.map_cons, List.map_cons, List.cons_prefix_cons] at hsources
      have hrest := ih (fun f hf => h f (List.mem_cons_of_mem _ hf)) hsources.2
        fun call hcall => hsizes call (List.mem_cons_of_mem _ hcall)
      have hsize := hsizes _ (List.mem_cons_self ..)
      have hfirst := (h first (List.mem_cons_self ..)).2
      simp only [Call.ofSize, Gives] at hsize
      rw [hsources.1, hfirst, Except.ok.injEq] at hsize
      rw [List.map_cons, List.cons_prefix_cons]
      exact ⟨Prod.ext hsources.1 hsize.symm, hrest⟩

theorem totalSize_le_of_begins {files others : List (Path × Nat)} (h : files <+: others) :
    totalSize files ≤ totalSize others := by
  obtain ⟨behind, rfl⟩ := h
  rw [totalSize_append]
  exact Nat.le_add_right _ _

/-- Once all sizes are obtained, they are those of the contents. -/
theorem Supplies.measure_eq (h : s.Supplies contents) {files : List (Path × Nat)}
    (hsources : files.map Prod.fst = contents.map Prod.fst)
    (hsizes : ∀ call ∈ files.map Call.ofSize, s.Gives call) : files = contents.map measure := by
  apply (h.measure_begins (hsources ▸ List.prefix_rfl) hsizes).eq_of_length
  simpa using congrArg List.length hsources

/-- What is there can be read, and is as long as it was said to be. -/
theorem Supplies.not_unread (h : s.Supplies contents) {file : Path × Nat}
    (hfile : file ∈ contents.map measure) {call : Call} (hgiven : s.Gives call)
    {failure : Failure} : ¬Unread file call failure := by
  obtain ⟨stored, hstored, rfl⟩ := List.mem_map.mp hfile
  have hcontents := (h stored hstored).1
  intro hunread
  cases hunread with
  | failed =>
    have hfailed : s.contents stored.1 = .error failure := hgiven
    rw [hcontents] at hfailed
    cases hfailed
  | @resized bytes hlength =>
    have hbytes : s.contents stored.1 = .ok bytes := hgiven
    rw [hcontents, Except.ok.injEq] at hbytes
    exact hlength (congrArg List.length hbytes.symm)

/-- The size of a file that comes next counts among the sizes of all contents. -/
theorem Supplies.totalSize_add_le (hsupplies : s.Supplies contents)
    (hsources : contents.map Prod.fst = layout.entries.filterMap (Entry.source? root))
    {passed rest : List Entry} {files : List (Path × Nat)} {path : String} {size : Nat}
    (hentries : layout.entries = passed ++ .file path :: rest)
    (hsized : Entry.Sized root passed files)
    (hgives : ∀ call ∈ files.map Call.ofSize ++ [Call.ofSize (root.append (.ofText path), size)],
      s.Gives call) : totalSize files + size ≤ totalSize (contents.map measure) := by
  have hfiles : (files ++ [(root.append (.ofText path), size)]).map Prod.fst <+:
      contents.map Prod.fst := by
    rw [hsources, hentries, List.map_append, List.filterMap_append, hsized.sources]
    exact (List.prefix_append_right_inj _).mpr ⟨_, rfl⟩
  have hle := totalSize_le_of_begins (hsupplies.measure_begins hfiles (by simpa using hgives))
  simpa [totalSize_append, totalSize] using hle

/-- An entry is refused for what an image cannot hold, if its size can be had. -/
theorem unstorable_of_refused (hsupplies : s.Supplies contents)
    (hsources : contents.map Prod.fst = layout.entries.filterMap (Entry.source? root))
    {passed rest : List Entry} {entry : Entry} {files : List (Path × Nat)} {last : List Call}
    {failure : Failure} (hentries : layout.entries = passed ++ entry :: rest)
    (hsized : Entry.Sized root passed files)
    (hgives : ∀ call ∈ files.map Call.ofSize ++ last, s.Gives call)
    (hrefused : entry.Refused root (totalSize files) last failure) :
    failure.Unstorable ∧ ¬layout.Fits root (contents.map measure) := by
  cases hrefused with
  | @name _ _ hcheck =>
    obtain ⟨hunstorable, hdefect⟩ := Entry.unstorable_of_check hcheck
    exact ⟨hunstorable, fun hfits => hdefect (hfits.sized.names entry (by simp [hentries]))⟩
  | @size path _ =>
    have hmem : root.append (.ofText path) ∈ contents.map Prod.fst := by
      rw [hsources, hentries]
      simp [Entry.source?]
    obtain ⟨file, hfile, hpath⟩ := List.mem_map.mp hmem
    have hsize := (hsupplies file hfile).2
    have hfailed : s.size (root.append (.ofText path)) = .error failure :=
      hgives _ (List.mem_append_right _ (List.mem_cons_self ..))
    rw [hpath, hfailed] at hsize
    cases hsize
  | @length path size _ hlarge =>
    have hle := hsupplies.totalSize_add_le hsources hentries hsized hgives
    refine ⟨trivial, fun hfits => ?_⟩
    have htotal := hfits.totalSize
    omega
  | @offset path size _ _ hlarge =>
    have hle := hsupplies.totalSize_add_le hsources hentries hsized hgives
    refine ⟨trivial, fun hfits => ?_⟩
    have htotal := hfits.totalSize
    omega

/-- Packing from a source that is right about its sizes fails only on what the image cannot hold. -/
theorem packed_or_unstorable (hsupplies : s.Supplies contents)
    (hsources : contents.map Prod.fst = layout.entries.filterMap (Entry.source? root))
    {sized read : List Call} {outcome : Outcome Image}
    (hpacked : Image.Packed root layout sized read outcome)
    (hgives : ∀ call ∈ sized ++ read, s.Gives call) :
    ((∃ image, outcome = .done image) ∧ layout.Fits root (contents.map measure)) ∨
      ((∃ failure, outcome = .failed failure ∧ failure.Unstorable) ∧
        ¬layout.Fits root (contents.map measure)) := by
  have hall : ∀ {files : List (Path × Nat)}, Entry.Sized root layout.entries files →
      (∀ call ∈ files.map Call.ofSize, s.Gives call) → files = contents.map measure :=
    fun hsized hfiles => hsupplies.measure_eq (by rw [hsized.sources, hsources]) hfiles
  cases hpacked with
  | headerRegion hlarge =>
    refine .inr ⟨⟨_, rfl, trivial⟩, fun hfits => ?_⟩
    have htotal := hfits.totalSize
    omega
  | fileCount _ hlarge =>
    refine .inr ⟨⟨_, rfl, trivial⟩, fun hfits => ?_⟩
    have hcount := hfits.fileCount
    omega
  | refused _ _ hplaced =>
    cases hplaced with
    | @failed passed rest entry files last failure hentries hsized _ hrefused =>
      rw [List.append_nil] at hgives
      rw [Nat.zero_add] at hrefused
      obtain ⟨hunstorable, hnot⟩ :=
        unstorable_of_refused hsupplies hsources hentries hsized hgives hrefused
      exact .inr ⟨⟨_, rfl, hunstorable⟩, hnot⟩
  | totalSize hsized _ hlarge =>
    rw [List.append_nil] at hgives
    have hfiles := hall hsized hgives
    refine .inr ⟨⟨_, rfl, trivial⟩, fun hfits => ?_⟩
    have htotal := hfits.totalSize
    rw [← hfiles] at htotal
    omega
  | @unread files read failure hfits hread =>
    have hfiles := hall hfits.sized fun call hcall => hgives call (List.mem_append_left _ hcall)
    cases hread with
    | failed hbehind hunread =>
      refine absurd hunread (hsupplies.not_unread ?_ (hgives _ (by simp)))
      rw [← hfiles, hbehind]
      simp
  | @done given image hfits =>
    have hfiles := hall hfits.sized fun call hcall => hgives call (List.mem_append_left _ hcall)
    rw [← hfiles]
    exact .inl ⟨⟨image, rfl⟩, hfits⟩

/-- An entry is refused for what an image cannot hold, if its size can be had where it is asked
for. -/
theorem unstorable_of_ready {entry : Entry} {offset : Nat} {calls : List Call} {failure : Failure}
    (hrefused : entry.Refused root offset calls failure)
    (hready : ∀ path, entry = .file path → nameDefect? entry.name = none →
      ∃ size, s.size (root.append (.ofText path)) = .ok size)
    (hgives : ∀ call ∈ calls, s.Gives call) : failure.Unstorable := by
  cases hrefused with
  | name hcheck => exact (Entry.unstorable_of_check hcheck).1
  | length => trivial
  | offset => trivial
  | @size path _ hname =>
    obtain ⟨size, hsize⟩ := hready path rfl hname
    have hfailed : s.size (root.append (.ofText path)) = .error failure :=
      hgives _ (List.mem_cons_self ..)
    rw [hsize] at hfailed
    cases hfailed

/-- Where a name is refused, packing fails on it or on what comes before it. Nothing is asked of a
source about a name that is refused, so that only the other files have to be there. -/
theorem unstorable_of_defect {sized read : List Call} {outcome : Outcome Image}
    (hpacked : Image.Packed root layout sized read outcome)
    (hdefect : ¬∀ entry ∈ layout.entries, nameDefect? entry.name = none)
    (hready : ∀ path, .file path ∈ layout.entries → nameDefect? (Entry.file path).name = none →
      ∃ size, s.size (root.append (.ofText path)) = .ok size)
    (hgives : ∀ call ∈ sized ++ read, s.Gives call) :
    ∃ failure, outcome = .failed failure ∧ failure.Unstorable := by
  cases hpacked with
  | headerRegion => exact ⟨_, rfl, trivial⟩
  | fileCount => exact ⟨_, rfl, trivial⟩
  | totalSize hsized => exact absurd hsized.names hdefect
  | unread hfits => exact absurd hfits.sized.names hdefect
  | done _ hfits => exact absurd hfits.sized.names hdefect
  | refused _ _ hplaced =>
    cases hplaced with
    | @failed passed rest entry files last _ hentries _ _ hrefused =>
      have hlast : ∀ call ∈ last, s.Gives call := fun call hcall => hgives call (by simp [hcall])
      refine ⟨_, rfl, unstorable_of_ready hrefused (fun path heq hname => ?_) hlast⟩
      subst heq
      exact hready path (by rw [hentries]; simp) hname

end Source

end TreeImage
