import TreeImage.Manifest.Csv

/-!
# Comma-separated texts

A reader for RFC 4180 texts whose lines end with a line feed. It passes over a text once, character
by character, and keeps what it has read so far. A quote opens a quoted field only where a field
begins; inside it every character counts except for a quote, which ends the field unless it is
doubled. A field without quotes holds no quote and no carriage return.

What is written as lines of fields is read back as the same lines, whatever the fields hold.
-/

namespace TreeImage.Csv

/-! ## The reader -/

inductive Mode where
  /-- Where a field begins, or inside a field without quotes. -/
  | plain
  /-- Between the quotes of a field. -/
  | quoted
  /-- Behind a quote of a quoted field, which ends there unless the quote is doubled. -/
  | closing
  deriving DecidableEq, Repr

/-- What was read: some lines, some fields of the next line, and the beginning of a field. -/
structure Reader where
  mode : Mode
  field : List Char
  fields : List (List Char)
  lines : List (List (List Char))
  deriving DecidableEq, Repr

namespace Reader

/-- The reader where a line begins, behind these lines. -/
def behind (lines : List (List (List Char))) : Reader := ⟨.plain, [], [], lines⟩

def push (r : Reader) (mode : Mode) (c : Char) : Reader :=
  { r with mode := mode, field := r.field ++ [c] }

def endField (r : Reader) : Reader := ⟨.plain, [], r.fields ++ [r.field], r.lines⟩

def endLine (r : Reader) : Reader := behind (r.lines ++ [r.fields ++ [r.field]])

def step (r : Reader) (c : Char) : Option Reader :=
  match r.mode with
  | .plain =>
    if c = ',' then some r.endField
    else if c = '\n' then some r.endLine
    else if c = '"' then if r.field = [] then some { r with mode := .quoted } else none
    else if c = '\r' then none
    else some (r.push .plain c)
  | .quoted => if c = '"' then some { r with mode := .closing } else some (r.push .quoted c)
  | .closing =>
    if c = ',' then some r.endField
    else if c = '\n' then some r.endLine
    else if c = '"' then some (r.push .quoted c)
    else none

def run (r : Reader) (s : List Char) : Option Reader := s.foldlM step r

/-- The lines that were read, if the last one has ended. -/
def lines? (r : Reader) : Option (List (List (List Char))) :=
  if r = behind r.lines then some r.lines else none

end Reader

/-- The lines of a whole text with their fields. -/
def read? (text : String) : Option (List (List (List Char))) :=
  ((Reader.behind []).run text.toList).bind Reader.lines?

/-! ## Steps -/

namespace Reader

variable {mode : Mode} {field : List Char} {fields : List (List Char)}
  {lines : List (List (List Char))}

@[simp] theorem run_nil (r : Reader) : r.run [] = some r := rfl

theorem run_cons_of_step {r next : Reader} {c : Char} (h : r.step c = some next) (s : List Char) :
    r.run (c :: s) = next.run s := by
  simp [run, h]

/-- Outside of quotes a comma ends the field. -/
theorem step_comma (h : mode ≠ .quoted) :
    step ⟨mode, field, fields, lines⟩ ',' = some ⟨.plain, [], fields ++ [field], lines⟩ := by
  cases mode with
  | plain => rfl
  | quoted => exact absurd rfl h
  | closing => rfl

/-- Outside of quotes a line feed ends the line. -/
theorem step_lineFeed (h : mode ≠ .quoted) :
    step ⟨mode, field, fields, lines⟩ '\n' = some (behind (lines ++ [fields ++ [field]])) := by
  cases mode with
  | plain => rfl
  | quoted => exact absurd rfl h
  | closing => rfl

theorem step_plain {c : Char} (h : isSpecial c = false) :
    step ⟨.plain, field, fields, lines⟩ c = some ⟨.plain, field ++ [c], fields, lines⟩ := by
  simp only [isSpecial, Bool.or_eq_false_iff, beq_eq_false_iff_ne] at h
  obtain ⟨⟨⟨hcomma, hquote⟩, hreturn⟩, hfeed⟩ := h
  simp [step, hcomma, hquote, hreturn, hfeed, push]

theorem step_quoted {c : Char} (h : c ≠ '"') :
    step ⟨.quoted, field, fields, lines⟩ c = some ⟨.quoted, field ++ [c], fields, lines⟩ := by
  simp [step, h, push]

/-! ## Runs -/

theorem run_plain {s : List Char} (h : ∀ c ∈ s, isSpecial c = false) (rest : List Char) :
    run ⟨.plain, field, fields, lines⟩ (s ++ rest) =
      run ⟨.plain, field ++ s, fields, lines⟩ rest := by
  induction s generalizing field with
  | nil => simp
  | cons c s ih =>
    obtain ⟨hc, hs⟩ := List.forall_mem_cons.mp h
    rw [List.cons_append, run_cons_of_step (step_plain hc), ih hs, List.append_assoc,
      List.singleton_append]

/-- A quote of the field is doubled and so leaves the quotes open; the closing one does not. -/
theorem run_quoteRest (s rest : List Char) :
    run ⟨.quoted, field, fields, lines⟩ (quoteRest s ++ rest) =
      run ⟨.closing, field ++ s, fields, lines⟩ rest := by
  induction s generalizing field with
  | nil => simpa [quoteRest] using run_cons_of_step rfl rest
  | cons c s ih =>
    rw [quoteRest]
    split
    · next hquote =>
      subst hquote
      have hopen : step ⟨.closing, field, fields, lines⟩ '"' =
          some ⟨.quoted, field ++ ['"'], fields, lines⟩ := rfl
      rw [List.cons_append, List.cons_append, run_cons_of_step rfl, run_cons_of_step hopen, ih,
        List.append_assoc, List.singleton_append]
    · next hquote =>
      rw [List.cons_append, run_cons_of_step (step_quoted hquote), ih, List.append_assoc,
        List.singleton_append]

/-- A field is read as it is, and the reader is outside of quotes behind it. -/
theorem run_printField (field : List Char) (fields : List (List Char))
    (lines : List (List (List Char))) : ∃ mode, mode ≠ .quoted ∧ ∀ rest,
      run ⟨.plain, [], fields, lines⟩ (printField field ++ rest) =
        run ⟨mode, field, fields, lines⟩ rest := by
  cases hspecial : field.any isSpecial with
  | true =>
    refine ⟨.closing, by decide, fun rest => ?_⟩
    have hopen : step ⟨.plain, [], fields, lines⟩ '"' = some ⟨.quoted, [], fields, lines⟩ := rfl
    rw [printField, if_pos hspecial, List.cons_append, run_cons_of_step hopen, run_quoteRest,
      List.nil_append]
  | false =>
    refine ⟨.plain, by decide, fun rest => ?_⟩
    have hplain : ∀ c ∈ field, isSpecial c = false := by simpa using hspecial
    rw [printField, hspecial, if_neg Bool.false_ne_true, run_plain hplain, List.nil_append]

/-- The rest of a line is read behind its first field. -/
theorem run_printRest (h : mode ≠ .quoted) (more : List (List Char)) (rest : List Char) :
    run ⟨mode, field, fields, lines⟩ (printRest more ++ rest) =
      run (behind (lines ++ [fields ++ field :: more])) rest := by
  induction more generalizing mode field fields with
  | nil => rw [printRest, List.singleton_append, run_cons_of_step (step_lineFeed h)]
  | cons next more ih =>
    obtain ⟨mode, hmode, hfield⟩ := run_printField next (fields ++ [field]) lines
    rw [printRest, List.cons_append, run_cons_of_step (step_comma h), List.append_assoc, hfield,
      ih hmode, List.append_assoc, List.singleton_append]

theorem run_printLine {line : List (List Char)} (h : line ≠ []) (rest : List Char) :
    (behind lines).run (printLine line ++ rest) = (behind (lines ++ [line])).run rest := by
  cases line with
  | nil => exact absurd rfl h
  | cons field more =>
    obtain ⟨mode, hmode, hfield⟩ := run_printField field [] lines
    rw [printLine, List.append_assoc, behind, hfield, run_printRest hmode, List.nil_append]

theorem run_flatMap_printLine {written : List (List (List Char))} (h : ∀ line ∈ written, line ≠ []) :
    (behind lines).run (written.flatMap printLine) = some (behind (lines ++ written)) := by
  induction written generalizing lines with
  | nil => simp
  | cons line written ih =>
    obtain ⟨hline, hwritten⟩ := List.forall_mem_cons.mp h
    rw [List.flatMap_cons, run_printLine hline, ih hwritten, List.append_assoc,
      List.singleton_append]

end Reader

/-- What was written is read back, if every line has a field. -/
theorem read?_printLines {lines : List (List (List Char))} (h : ∀ line ∈ lines, line ≠ []) :
    read? (String.ofList (lines.flatMap printLine)) = some lines := by
  rw [read?, String.toList_ofList, Reader.run_flatMap_printLine h]
  exact if_pos rfl

/-- A quote ends its field, and nothing else may follow it. -/
example : read? "\"a,\"\",\"\nb\n" = some [[['a', ',', '"', ',']], [['b']]] ∧
    read? "\"a\"b\n" = none ∧ read? "a\"\n" = none ∧ read? "a" = none := by decide

end TreeImage.Csv
