import TreeImage.Store
import TreeImage.Proofs.Source

/-!
# Stores as sources

A store comes about by edits, which add directories and files. A build from a store writes nothing,
so that the store answers like a source during the whole of it and is afterwards what it was before.
-/

namespace TreeImage

/-! ## Builds only read -/

namespace Session

theorem readOnly_entries (path : Path) : (entries path).ReadOnly := .ask trivial readOnly_ofExcept

theorem readOnly_size (path : Path) : (size path).ReadOnly := .ask trivial readOnly_ofExcept

theorem readOnly_contents (path : Path) : (contents path).ReadOnly := .ask trivial readOnly_ofExcept

theorem readOnly_report (event : Event) : (report event).ReadOnly := .tell event (.done ())

end Session

theorem Forest.readOnly_ofListing {below : Path → Session (Forest Unit)}
    (hbelow : ∀ path, (below path).ReadOnly) (parent : Path) (listing : List (String × Kind)) :
    (Forest.ofListing below parent listing).ReadOnly := by
  induction listing with
  | nil => exact .done _
  | cons entry others ih =>
    rcases entry with ⟨name, kind⟩
    cases kind with
    | file => exact ih.bind fun rest => .done _
    | directory => exact (hbelow _).bind fun children => ih.bind fun rest => .done _

theorem Forest.readOnly_capture (depth : Nat) (path : Path) :
    (Forest.capture depth path).ReadOnly := by
  induction depth generalizing path with
  | zero => exact .unfinished
  | succ depth ih =>
    apply (Session.readOnly_entries path).bind
    intro listing
    apply (Session.readOnly_report _).bind
    intro _
    exact readOnly_ofListing ih path listing

theorem Tree.readOnly_capture (depth : Nat) (root : Path) : (Tree.capture depth root).ReadOnly := by
  refine .ask trivial fun isDirectory => ?_
  cases isDirectory with
  | false => exact .fail _
  | true => exact (Forest.readOnly_capture depth root).bind fun children => .done _

theorem Entry.readOnly_place (root : Path) (index offset : Nat) (entry : Entry) :
    (entry.place root index offset).ReadOnly := by
  rw [Entry.place.eq_def]
  apply (Session.readOnly_ofExcept _).bind
  intro _
  cases entry with
  | directory path count => exact .done _
  | file path =>
    apply (Session.readOnly_size _).bind
    intro size
    apply (Session.readOnly_ofExcept _).bind
    intro length
    exact (Session.readOnly_ofExcept _).bind fun _ => .done _

theorem Entry.readOnly_placeAll (root : Path) (index offset : Nat) (entries : List Entry) :
    (Entry.placeAll root index offset entries).ReadOnly := by
  induction entries generalizing index offset with
  | nil => exact .done _
  | cons entry rest ih =>
    apply (readOnly_place root index offset entry).bind
    intro placement
    apply (Session.readOnly_report _).bind
    intro _
    exact (ih _ _).bind fun others => .done _

theorem Placement.readOnly_contents (placement : Placement) : placement.contents.ReadOnly := by
  unfold Placement.contents
  cases placement.source with
  | none => exact .done _
  | some source =>
    apply (Session.readOnly_contents source).bind
    intro bytes
    split
    · exact .done _
    · exact .fail _

theorem Placement.readOnly_readAll (placements : List Placement) :
    (Placement.readAll placements).ReadOnly := by
  induction placements with
  | nil => exact .done _
  | cons placement rest ih =>
    exact (readOnly_contents placement).bind fun bytes => ih.bind fun others => .done _

theorem Image.readOnly_pack (root : Path) (layout : Layout) :
    (Image.pack root layout).ReadOnly := by
  apply (Session.readOnly_ofExcept _).bind
  intro headerSize
  apply (Session.readOnly_ofExcept _).bind
  intro fileCount
  apply (Entry.readOnly_placeAll root _ _ _).bind
  intro placements
  apply (Session.readOnly_ofExcept _).bind
  intro totalSize
  exact (Placement.readOnly_readAll placements).bind fun data => .done _

/-- A build never writes. -/
theorem Image.readOnly_build (depth : Nat) (root : Path) : (Image.build depth root).ReadOnly := by
  apply (Tree.readOnly_capture depth root).bind
  intro tree
  apply (Session.readOnly_ofExcept _).bind
  intro layout
  apply (Session.readOnly_report _).bind
  intro _
  exact readOnly_pack root layout

/-! ## Stores -/

namespace Store

/-- What can be done to a store before it is built from. -/
inductive Edit where
  | addDirectory (path : Path)
  | addFile (path : Path) (contents : Bytes)
  deriving DecidableEq, Repr

def Edit.path : Edit → Path
  | .addDirectory path => path
  | .addFile path _ => path

def apply (s : Store) : Edit → Store
  | .addDirectory path => s.addDirectory path
  | .addFile path contents => s.addFile path contents

/-- The store that came of the edits, first to last. -/
def ofEdits (edits : List Edit) : Store := edits.foldl apply empty

def source (s : Store) : Source := ⟨s.isDirectory, s.entries, s.size, s.contents⟩

/-- A session that only reads ends on a store as on its source, and leaves the store as it was. -/
theorem run_respond {α : Type} {session : Session α} (h : session.ReadOnly) (s : Store) :
    (session.run respond s).outcome = (session.run s.source.respond ()).outcome ∧
      (session.run respond s).state = s := by
  have hread : ∀ request : Request, request.IsRead →
      respond request s = (s.source.answer request, s) := by
    intro request hrequest
    cases request with
    | write path bytes => exact hrequest.elim
    | isDirectory path => rfl
    | entries path => rfl
    | size path => rfl
    | contents path => rfl
  have hrun := h.run_eq s.source.answer hread
  exact ⟨congrArg Transcript.outcome hrun, congrArg Transcript.state hrun⟩

end Store

end TreeImage
