import TreeImage.Proofs.Planning
import TreeImage.Proofs.Rejection
import TreeImage.Proofs.Sizing

/-!
# Layouts in parts

A forest can be laid out in parts. The layout of two forests side by side is that of the first with
that of the second behind it, and what is laid out below a path is what is laid out below no path,
with that path put before every other. Nothing is asked of the names. So paths may be those of many
directories, and where both parts have a span for one path, the later part has its way.
-/

namespace TreeImage

namespace Layout

/-! ## Looking up spans -/

/-- Behind other entries the same spans are found, moved by these. -/
theorem lookup_shiftedSpans (distance : Nat) (l : Layout) (path : String) :
    (l.shiftedSpans distance).lookup path = (l.span? path).map (Span.shift distance) := by
  unfold shiftedSpans span?
  induction l.spans with
  | nil => rfl
  | cons row rows ih =>
    obtain ⟨key, span⟩ := row
    rw [List.map_cons, List.lookup_cons, List.lookup_cons, ih]
    cases path == key <;> rfl

theorem span?_append (l m : Layout) (path : String) :
    (l ++ m).span? path =
      ((m.span? path).map (Span.shift l.entries.length)).or (l.span? path) := by
  rw [span?, spans_append, List.lookup_append, lookup_shiftedSpans]
  rfl

theorem span?_ofDirectory_self (path : String) (childCount : UInt32) (inner : Layout) :
    (ofDirectory path childCount inner).span? path =
      some ⟨1, 1 + inner.entries.length, childCount⟩ := by
  rw [span?, ofDirectory, List.lookup_cons_self]

theorem span?_ofDirectory_of_ne {path other : String} (h : other ≠ path) (childCount : UInt32)
    (inner : Layout) :
    (ofDirectory path childCount inner).span? other = (inner.span? other).map (Span.shift 1) := by
  rw [span?, ofDirectory, List.lookup_cons, beq_eq_false_iff_ne.mpr h]
  exact lookup_shiftedSpans 1 inner other

end Layout

/-! ## Paths below a path -/

/-- The entry with `base` before its path. -/
def Entry.under (base : String) : Entry → Entry
  | .file path => .file (base ++ path)
  | .directory path childCount => .directory (base ++ path) childCount

namespace Layout

/-- The layout with `base` before every path. What stands where does not change. -/
def under (base : String) (l : Layout) : Layout :=
  ⟨l.entries.map (Entry.under base), l.spans.map fun (path, span) => (base ++ path, span),
    l.fileCount⟩

theorem under_ofFile (base path : String) : (ofFile path).under base = ofFile (base ++ path) := rfl

theorem shiftedSpans_under (base : String) (distance : Nat) (l : Layout) :
    (l.under base).shiftedSpans distance =
      (l.shiftedSpans distance).map fun (path, span) => (base ++ path, span) := by
  simp only [under, shiftedSpans, List.map_map, Function.comp_def]

theorem under_append (base : String) (l m : Layout) :
    (l ++ m).under base = l.under base ++ m.under base := by
  show _ = append (l.under base) (m.under base)
  rw [append, shiftedSpans_under]
  simp only [under, entries_append, spans_append, fileCount_append, List.map_append,
    List.length_map]

theorem under_ofDirectory (base path : String) (childCount : UInt32) (inner : Layout) :
    (ofDirectory path childCount inner).under base =
      ofDirectory (base ++ path) childCount (inner.under base) := by
  rw [ofDirectory, ofDirectory, shiftedSpans_under]
  simp only [under, Entry.under, List.map_cons, List.length_map]

/-- Below `base` the span of a path is found for `base` and that path behind it. No other path has
one. -/
theorem span?_under_eq_some_iff {base path : String} {l : Layout} {span : Span} :
    (l.under base).span? path = some span ↔
      ∃ below, path = base ++ below ∧ l.span? below = some span := by
  unfold under span?
  induction l.spans with
  | nil => simp
  | cons row rows ih =>
    obtain ⟨key, found⟩ := row
    rw [List.map_cons, List.lookup_cons]
    by_cases hpath : path = base ++ key
    · subst hpath
      simp only [BEq.rfl, String.append_right_inj, exists_eq_left', List.lookup_cons_self]
    · rw [beq_eq_false_iff_ne.mpr hpath, ih]
      refine exists_congr fun below => and_congr_right fun hbelow => ?_
      have hkey : below ≠ key := fun heq => hpath (heq ▸ hbelow)
      rw [List.lookup_cons, beq_eq_false_iff_ne.mpr hkey]

end Layout

/-! ## Laying out in parts -/

/-- Whether a number fits does not depend on the path that it is of. -/
theorem Field.fit_of_fit {field : Field} {path : String} {n : Nat} {w : UInt32}
    (h : field.fit path n = .ok w) (other : String) : field.fit other n = .ok w :=
  fit_eq_ok_iff.mpr (fit_eq_ok_iff.mp h)

namespace Forest

variable {α : Type}

/-- Two forests side by side are laid out one behind the other. The second one is not looked at if
the first one fails. -/
theorem flatten_append (f g : Forest α) (base : String) :
    (f ++ g).flatten base = (do
      let front ← f.flatten base
      let behind ← g.flatten base
      return front ++ behind) := by
  induction f with
  | nil =>
    show g.flatten base = g.flatten base >>= fun behind => pure (Layout.empty ++ behind)
    simp only [Layout.empty_append, bind_pure]
  | file name content rest ih =>
    simp only [file_append, flatten, ih, bind_assoc, pure_bind, Layout.append_assoc]
  | directory name children rest _ ih =>
    simp only [directory_append, flatten, ih, bind_assoc, pure_bind, Layout.append_assoc]

/-- A longer base stands before every path and changes nothing else. -/
theorem flatten_under {f : Forest α} {base : String} {l : Layout} (h : f.flatten base = .ok l)
    (above : String) : f.flatten (above ++ base) = .ok (l.under above) := by
  induction f generalizing base l with
  | nil =>
    cases h
    rfl
  | file name content rest ih =>
    obtain ⟨others, hothers, rfl⟩ := flatten_file_eq_ok_iff.mp h
    rw [flatten, ih hothers, Layout.under_append, Layout.under_ofFile, String.append_assoc]
    rfl
  | directory name children rest ihc ih =>
    obtain ⟨childCount, inner, others, hcount, hinner, hothers, rfl⟩ :=
      flatten_directory_eq_ok_iff.mp h
    have hpath : above ++ base ++ name ++ "/" = above ++ (base ++ name ++ "/") := by
      simp only [String.append_assoc]
    rw [flatten, hpath, Field.fit_of_fit hcount, ihc hinner, ih hothers, Layout.under_append,
      Layout.under_ofDirectory]
    rfl

/-- A directory with too many children to count fails before it is looked into. -/
theorem flatten_directory_of_large {name : String} {children : Forest α}
    (h : UInt32.size ≤ children.length) (rest : Forest α) (base : String) :
    (Forest.directory name children rest).flatten base =
      .error (.overflow .childCount (base ++ name ++ "/")) := by
  rw [flatten, Field.fit_eq_error_iff.mpr ⟨h, rfl⟩]
  rfl

/-- What fails below a path is a count that does not fit, and it fails below a longer one too. -/
theorem flatten_fails_under {f : Forest α} {base : String} {failure : Failure}
    (h : f.flatten base = .error failure) (above : String) :
    ∃ path, failure = .overflow .childCount path ∧
      f.flatten (above ++ base) = .error (.overflow .childCount (above ++ path)) := by
  induction f generalizing base with
  | nil => cases h
  | file name content rest ih =>
    rcases Except.bind_eq_error_iff.mp h with hothers | ⟨others, -, h⟩
    · obtain ⟨path, hpath, hrest⟩ := ih hothers
      exact ⟨path, hpath, by rw [flatten, hrest]; rfl⟩
    · cases h
  | directory name children rest ihc ih =>
    have hpath : above ++ base ++ name ++ "/" = above ++ (base ++ name ++ "/") := by
      simp only [String.append_assoc]
    rcases Except.bind_eq_error_iff.mp h with hcount | ⟨childCount, hcount, h⟩
    · obtain ⟨hlarge, rfl⟩ := Field.fit_eq_error_iff.mp hcount
      exact ⟨_, rfl, by rw [flatten_directory_of_large hlarge, hpath]⟩
    rw [flatten, hpath, Field.fit_of_fit hcount]
    rcases Except.bind_eq_error_iff.mp h with hinner | ⟨inner, hinner, h⟩
    · obtain ⟨path, hpath, hchildren⟩ := ihc hinner
      exact ⟨path, hpath, by rw [hchildren]; rfl⟩
    rw [flatten_under hinner]
    rcases Except.bind_eq_error_iff.mp h with hothers | ⟨others, -, h⟩
    · obtain ⟨path, hpath, hrest⟩ := ih hothers
      exact ⟨path, hpath, by rw [hrest]; rfl⟩
    · cases h

end Forest

/-- `l` is `front` with `behind` set behind it. For a path that both have a span for, that of
`behind` is found. -/
structure Layout.Joins (front behind l : Layout) : Prop where
  entries : l.entries = front.entries ++ behind.entries
  fileCount : l.fileCount = front.fileCount + behind.fileCount
  spans : ∀ path, l.span? path =
    ((behind.span? path).map (Span.shift front.entries.length)).or (front.span? path)

/-- `l` is `inner` with `base` before the paths of all entries and of all spans. -/
structure Layout.Rebases (base : String) (inner l : Layout) : Prop where
  entries : l.entries = inner.entries.map (Entry.under base)
  fileCount : l.fileCount = inner.fileCount
  spans : ∀ path span, l.span? path = some span ↔
    ∃ below, path = base ++ below ∧ inner.span? below = some span

namespace Layout

theorem joins_append (front behind : Layout) : Joins front behind (front ++ behind) :=
  ⟨entries_append .., fileCount_append .., span?_append front behind⟩

theorem rebases_under (base : String) (l : Layout) : Rebases base l (l.under base) :=
  ⟨rfl, rfl, fun _ _ => span?_under_eq_some_iff⟩

end Layout

namespace Forest

variable {α : Type}

theorem flatten_append_eq_ok_iff {f g : Forest α} {base : String} {l : Layout} :
    (f ++ g).flatten base = .ok l ↔
      ∃ front behind, f.flatten base = .ok front ∧ g.flatten base = .ok behind ∧
        front ++ behind = l := by
  rw [flatten_append, Except.bind_eq_ok_iff]
  refine exists_congr fun front => ?_
  rw [Except.bind_eq_ok_iff]
  simp only [pure, Except.pure, Except.ok.injEq, exists_and_left]

theorem flatten_append_eq_error_iff {f g : Forest α} {base : String} {failure : Failure} :
    (f ++ g).flatten base = .error failure ↔
      f.flatten base = .error failure ∨
        (∃ front, f.flatten base = .ok front) ∧ g.flatten base = .error failure := by
  rw [flatten_append, Except.bind_eq_error_iff]
  refine or_congr_right ?_
  rw [← exists_and_right]
  refine exists_congr fun front => and_congr_right fun _ => ?_
  rw [Except.bind_eq_error_iff]
  simp [pure, Except.pure]

/-- A forest can be laid out in two parts, and it fails as the first part that fails. Below a path
it is laid out as below none, with that path before every other. This is so for all names, also for
those that give two directories one path. -/
theorem flatten_composes (f g : Forest α) (base : String) :
    ((∃ l, (f ++ g).flatten base = .ok l) ↔
      (∃ front, f.flatten base = .ok front) ∧ ∃ behind, g.flatten base = .ok behind) ∧
    (∀ front behind, f.flatten base = .ok front → g.flatten base = .ok behind →
      ∃ l, (f ++ g).flatten base = .ok l ∧ Layout.Joins front behind l) ∧
    (∀ failure, (f ++ g).flatten base = .error failure ↔
      f.flatten base = .error failure ∨
        (∃ front, f.flatten base = .ok front) ∧ g.flatten base = .error failure) ∧
    (∀ inner, f.flatten "" = .ok inner →
      ∃ l, f.flatten base = .ok l ∧ Layout.Rebases base inner l) ∧
    ∀ failure, f.flatten "" = .error failure → ∃ path, failure = .overflow .childCount path ∧
      f.flatten base = .error (.overflow .childCount (base ++ path)) := by
  refine ⟨?_, ?_, fun _ => flatten_append_eq_error_iff, ?_, ?_⟩
  · simp only [flatten_append_eq_ok_iff]
    constructor
    · rintro ⟨-, front, behind, hfront, hbehind, rfl⟩
      exact ⟨⟨front, hfront⟩, behind, hbehind⟩
    · rintro ⟨⟨front, hfront⟩, behind, hbehind⟩
      exact ⟨_, front, behind, hfront, hbehind, rfl⟩
  · intro front behind hfront hbehind
    exact ⟨_, flatten_append_eq_ok_iff.mpr ⟨front, behind, hfront, hbehind, rfl⟩,
      Layout.joins_append front behind⟩
  · intro inner hinner
    have hbelow := flatten_under hinner base
    rw [String.append_empty] at hbelow
    exact ⟨_, hbelow, Layout.rebases_under base inner⟩
  · intro failure hfailure
    have hbelow := flatten_fails_under hfailure base
    rwa [String.append_empty] at hbelow

theorem exists_length_eq (n : Nat) : ∃ f : Forest Unit, f.length = n := by
  induction n with
  | zero => exact ⟨.nil, rfl⟩
  | succ n ih =>
    obtain ⟨f, hlength⟩ := ih
    exact ⟨.file "" () f, congrArg Nat.succ hlength⟩

/-- Two directories, one in the other. -/
def stacked : Forest Unit := .directory "a" (.directory "b" (.file "c" () .nil) .nil) .nil

/-- A directory that has the path of the inner one of `stacked`. -/
def slashed : Forest Unit := .directory "a/b" .nil .nil

/-- Of the two spans for `r/a/b/` the later one is found. A failure names its path below `r/`. -/
theorem colliding_parts_compose :
    (∃ front behind l, stacked.flatten "r/" = .ok front ∧ slashed.flatten "r/" = .ok behind ∧
      (stacked ++ slashed).flatten "r/" = .ok l ∧ Layout.Joins front behind l ∧
      front.span? "r/a/b/" = some ⟨2, 3, 1⟩ ∧ l.span? "r/a/b/" = some ⟨4, 4, 0⟩) ∧
    ∃ f : Forest Unit, f.flatten "" = .error (.overflow .childCount "a/") ∧
      (f ++ slashed).flatten "r/" = .error (.overflow .childCount "r/a/") := by
  constructor
  · obtain ⟨-, hjoin, -⟩ := flatten_composes stacked slashed "r/"
    obtain ⟨l, hl, hjoins⟩ := hjoin _ _ rfl rfl
    exact ⟨_, _, l, rfl, rfl, hl, hjoins, by decide, by rw [hjoins.spans]; decide⟩
  · obtain ⟨children, hlength⟩ := exists_length_eq UInt32.size
    have hlarge : (directory "a" children .nil).flatten "" = .error (.overflow .childCount "a/") :=
      flatten_directory_of_large (Nat.le_of_eq hlength.symm) .nil ""
    obtain ⟨-, -, hfails, -, hbelow⟩ :=
      flatten_composes (.directory "a" children .nil) slashed "r/"
    obtain ⟨path, hpath, hfailure⟩ := hbelow _ hlarge
    cases hpath
    exact ⟨_, hlarge, (hfails _).mpr (.inl hfailure)⟩

end Forest

end TreeImage
