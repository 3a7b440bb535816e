import TreeImage.Proofs.Composition
import TreeImage.Proofs.Spans

/-!
# Listing what is directly below a directory

The direct children of a directory are found by hopping over all that is inside each of them, and
the hop over a directory goes to the end of the span that is found for its path. Where directories
share a path, that span may be another one's. Of these directories it is the last one's then, so
that every hop leads forward, perhaps further than it should. So each walk comes to its end, inside
the span that it started in, whatever the names are.
-/

namespace TreeImage

namespace Layout

/-- A walk from one place on meets these entries and is over, since it has come to `stop` or past
it. How many steps it makes is not bounded. -/
inductive Walks (l : Layout) (stop : Nat) : Nat → List Nat → Prop
  | done {index : Nat} : stop ≤ index → Walks l stop index []
  | hop {index following : Nat} {others : List Nat} : index < stop →
      l.next index = .ok following → Walks l stop following others →
      Walks l stop index (index :: others)

/-- The span found for the path of a directory ends behind that directory, whichever directory of
this path it belongs to. No span ends behind the entries. -/
structure Forward (l : Layout) : Prop where
  ahead : ∀ {index : Nat} {path : String} {childCount : UInt32},
    l.entries[index]? = some (.directory path childCount) →
      ∃ span, l.span? path = some span ∧ index < span.stop
  within : ∀ {path : String} {span : Span}, l.span? path = some span →
    span.stop ≤ l.entries.length

/-! ## Layouts that lead forward -/

theorem stop_shift (distance : Nat) (span : Span) :
    (span.shift distance).stop = span.stop + distance := rfl

theorem forward_empty : empty.Forward := by
  constructor
  · intro index path childCount hentry
    cases hentry
  · intro path span hspan
    cases hspan

theorem forward_ofFile (path : String) : (ofFile path).Forward := by
  constructor
  · intro index other childCount hentry
    cases index <;> cases hentry
  · intro other span hspan
    cases hspan

namespace Forward

variable {l m : Layout}

theorem append (hl : l.Forward) (hm : m.Forward) : (l ++ m).Forward := by
  constructor
  · intro index path childCount hentry
    rw [entries_append] at hentry
    rw [span?_append]
    rcases Nat.lt_or_ge index l.entries.length with hlt | hge
    · rw [List.getElem?_append_left hlt] at hentry
      -- The directory is in `l`. A span that `m` has for its path ends behind all of `l`.
      cases hbehind : m.span? path with
      | none => exact hl.ahead hentry
      | some span => exact ⟨_, rfl, Nat.lt_of_lt_of_le hlt (Nat.le_add_left ..)⟩
    · rw [List.getElem?_append_right hge] at hentry
      obtain ⟨span, hspan, hahead⟩ := hm.ahead hentry
      rw [hspan]
      refine ⟨_, rfl, ?_⟩
      rw [stop_shift]
      omega
  · intro path span hspan
    rw [entries_append, List.length_append]
    rw [span?_append, Option.or_eq_some_iff] at hspan
    rcases hspan with hbehind | ⟨-, hfront⟩
    · obtain ⟨found, hfound, rfl⟩ := Option.map_eq_some_iff.mp hbehind
      have hwithin := hm.within hfound
      rw [stop_shift]
      omega
    · have hwithin := hl.within hfront
      omega

theorem ofDirectory (h : l.Forward) (path : String) (childCount : UInt32) :
    (Layout.ofDirectory path childCount l).Forward := by
  constructor
  · intro index other count hentry
    rw [entries_ofDirectory] at hentry
    by_cases hother : other = path
    · -- No directory inside has the path of the outer one, but that need not be known here.
      have hlt := (List.getElem?_eq_some_iff.mp hentry).choose
      rw [List.length_cons] at hlt
      subst hother
      refine ⟨_, span?_ofDirectory_self .., ?_⟩
      show index < 1 + l.entries.length
      omega
    · cases index with
      | zero =>
        cases hentry
        exact absurd rfl hother
      | succ index =>
        obtain ⟨span, hspan, hahead⟩ := h.ahead hentry
        rw [span?_ofDirectory_of_ne hother, hspan]
        exact ⟨_, rfl, Nat.succ_lt_succ hahead⟩
  · intro other span hspan
    rw [entries_ofDirectory, List.length_cons]
    by_cases hother : other = path
    · rw [hother, span?_ofDirectory_self] at hspan
      cases hspan
      exact Nat.le_of_eq (Nat.add_comm ..)
    · rw [span?_ofDirectory_of_ne hother] at hspan
      obtain ⟨found, hfound, rfl⟩ := Option.map_eq_some_iff.mp hspan
      exact Nat.succ_le_succ (h.within hfound)

theorem ofRoot (h : l.Forward) (path : String) (childCount : UInt32) :
    Forward { l with spans := (path, ⟨0, l.entries.length, childCount⟩) :: l.spans } := by
  constructor
  · intro index other count hentry
    have hlt := (List.getElem?_eq_some_iff.mp hentry).choose
    by_cases hother : other = path
    · subst hother
      exact ⟨_, List.lookup_cons_self, hlt⟩
    · obtain ⟨span, hspan, hahead⟩ := h.ahead hentry
      refine ⟨span, ?_, hahead⟩
      rw [span?, List.lookup_cons, beq_eq_false_iff_ne.mpr hother]
      exact hspan
  · intro other span hspan
    rw [span?, List.lookup_cons] at hspan
    split at hspan
    · cases hspan
      exact Nat.le_refl _
    · exact h.within hspan

/-! ## Walking forward -/

variable {stop index following : Nat} {indices : List Nat}

theorem exists_next (h : l.Forward) (hlt : index < l.entries.length) :
    ∃ following, l.next index = .ok following ∧ index < following := by
  unfold next
  have hentry := List.getElem?_eq_getElem hlt
  cases hkind : l.entries[index] with
  | file path =>
    rw [hkind] at hentry
    rw [hentry]
    exact ⟨_, rfl, Nat.lt_succ_self index⟩
  | directory path childCount =>
    rw [hkind] at hentry
    obtain ⟨span, hspan, hahead⟩ := h.ahead hentry
    rw [hentry]
    dsimp only
    rw [hspan]
    exact ⟨_, rfl, hahead⟩

theorem lt_of_next (h : l.Forward) (hnext : l.next index = .ok following) : index < following := by
  rcases Nat.lt_or_ge index l.entries.length with hlt | hge
  · obtain ⟨other, hother, hahead⟩ := h.exists_next hlt
    cases hother.symm.trans hnext
    exact hahead
  · rw [next, List.getElem?_eq_none hge] at hnext
    cases hnext

/-- Every hop leads nearer to the end, so that a walk comes to it. -/
theorem exists_walks (h : l.Forward) (hstop : stop ≤ l.entries.length) (index : Nat) :
    ∃ indices, l.Walks stop index indices := by
  induction hdistance : stop - index using Nat.strong_induction_on generalizing index with
  | _ distance ih =>
    rcases Nat.lt_or_ge index stop with hlt | hge
    · obtain ⟨following, hnext, hahead⟩ := h.exists_next (Nat.lt_of_lt_of_le hlt hstop)
      obtain ⟨others, hothers⟩ := ih (stop - following) (by omega) following rfl
      exact ⟨index :: others, .hop hlt hnext hothers⟩
    · exact ⟨[], .done hge⟩

theorem bounds_of_walks (h : l.Forward) (hwalks : l.Walks stop index indices) :
    ∀ place ∈ indices, index ≤ place ∧ place < stop := by
  induction hwalks with
  | done => simp
  | hop hlt hnext _ ih =>
    have hahead := h.lt_of_next hnext
    intro place hplace
    rcases List.mem_cons.mp hplace with rfl | hplace
    · exact ⟨Nat.le_refl _, hlt⟩
    · have hothers := ih place hplace
      omega

theorem pairwise_of_walks (h : l.Forward) (hwalks : l.Walks stop index indices) :
    indices.Pairwise (· < ·) := by
  induction hwalks with
  | done => exact .nil
  | hop _ hnext hothers ih =>
    refine .cons (fun place hplace => ?_) ih
    have hbounds := h.bounds_of_walks hothers place hplace
    have hahead := h.lt_of_next hnext
    omega

theorem length_le_of_walks (h : l.Forward) (hwalks : l.Walks stop index indices) :
    indices.length ≤ stop - index := by
  induction hwalks with
  | done => exact Nat.zero_le _
  | hop hlt hnext _ ih =>
    have hahead := h.lt_of_next hnext
    rw [List.length_cons]
    omega

end Forward

/-- A walk that is over was made in as many steps as it met entries. -/
theorem Walks.walk_eq {l : Layout} {stop index steps : Nat} {indices : List Nat}
    (h : l.Walks stop index indices) (hsteps : indices.length ≤ steps) :
    l.walk stop steps index = .ok indices := by
  induction h generalizing steps with
  | done hstop => cases steps <;> rw [walk, if_neg (Nat.not_lt.mpr hstop)]
  | hop hlt hnext _ ih =>
    cases steps with
    | zero => cases hsteps
    | succ steps => exact walk_succ hlt hnext (ih (Nat.le_of_succ_le_succ hsteps))

end Layout

theorem Forest.forward_of_flatten {α : Type} {f : Forest α} {base : String} {l : Layout}
    (h : f.flatten base = .ok l) : l.Forward := by
  induction f generalizing base l with
  | nil =>
    cases h
    exact Layout.forward_empty
  | file name content rest ih =>
    obtain ⟨others, hothers, rfl⟩ := flatten_file_eq_ok_iff.mp h
    exact (Layout.forward_ofFile _).append (ih hothers)
  | directory name children rest ihc ih =>
    obtain ⟨childCount, inner, others, -, hinner, hothers, rfl⟩ :=
      flatten_directory_eq_ok_iff.mp h
    exact ((ihc hinner).ofDirectory _ _).append (ih hothers)

namespace Tree

variable {α : Type} {root : Tree α} {l : Layout}

theorem forward_of_plan (h : root.plan = .ok l) : l.Forward := by
  obtain ⟨inner, childCount, hinner, -, rfl⟩ := exists_flatten_of_plan h
  exact (Forest.forward_of_flatten hinner).ofRoot "" childCount

/-- Whatever the names, the walk for a path comes to its end. What it meets stands in the span that
is found for the path, in rising order, and there is nothing to meet for a path without a span. -/
theorem directChildren_of_plan (h : root.plan = .ok l) (path : String) :
    ∃ indices, l.directChildren path = .ok indices ∧
      indices.Pairwise (· < ·) ∧
      (∀ index ∈ indices, index < l.entries.length) ∧
      (l.span? path = none → indices = []) ∧
      ∀ span, l.span? path = some span → l.Walks span.stop span.first indices ∧
        ∀ index ∈ indices, span.first ≤ index ∧ index < span.stop := by
  have hforward := forward_of_plan h
  unfold Layout.directChildren
  cases hspan : l.span? path with
  | none => exact ⟨[], rfl, .nil, by simp, fun _ => rfl, fun _ hsome => (by cases hsome)⟩
  | some span =>
    have hstop := hforward.within hspan
    obtain ⟨indices, hwalks⟩ := hforward.exists_walks hstop span.first
    have hbounds := hforward.bounds_of_walks hwalks
    have hsteps := hforward.length_le_of_walks hwalks
    refine ⟨indices, hwalks.walk_eq (by omega), hforward.pairwise_of_walks hwalks,
      fun index hindex => Nat.lt_of_lt_of_le (hbounds index hindex).2 hstop,
      fun hnone => (by cases hnone), fun _ hsome => ?_⟩
    cases hsome
    exact ⟨hwalks, hbounds⟩

/-- The directory `a` has a directory `b` and a file `d` in it. Beside it is a directory whose name
is `a/b`, so that two directories have the path `a/b/`. -/
def ambiguous : Tree Unit :=
  .directory "root" <|
    .directory "a" (.directory "b" (.file "c" () .nil) <| .file "d" () .nil) <|
    .directory "a/b" (.file "e" () .nil) .nil

/-- From `a/b/` in `a/` the walk goes to the end of the later directory of that path, so that it
passes over `a/d`. -/
theorem ambiguous_is_walked :
    ∃ l, ambiguous.plan = .ok l ∧
      l.entries.map Entry.path = ["a/", "a/b/", "a/b/c", "a/d", "a/b/", "a/b/e"] ∧
      l.span? "a/" = some ⟨1, 4, 2⟩ ∧ l.span? "a/b/" = some ⟨5, 6, 1⟩ ∧
      l.directChildren "a/" = .ok [1] ∧ l.Walks 4 1 [1] := by
  obtain ⟨l, hplan, hpaths, houter, hinner, hchildren⟩ :
      ∃ l, ambiguous.plan = .ok l ∧
        l.entries.map Entry.path = ["a/", "a/b/", "a/b/c", "a/d", "a/b/", "a/b/e"] ∧
        l.span? "a/" = some ⟨1, 4, 2⟩ ∧ l.span? "a/b/" = some ⟨5, 6, 1⟩ ∧
        l.directChildren "a/" = .ok [1] := ⟨_, rfl, by decide, by decide, by decide, rfl⟩
  obtain ⟨indices, hindices, -, -, -, hwalks⟩ := directChildren_of_plan hplan "a/"
  cases hchildren.symm.trans hindices
  exact ⟨l, hplan, hpaths, houter, hinner, hchildren, (hwalks _ houter).1⟩

end Tree

end TreeImage
