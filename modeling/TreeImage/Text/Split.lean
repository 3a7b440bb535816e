/-!
# Parts of a text

A text is cut at every occurrence of a separator, be it one of characters or one of bytes. There is
always a first part, so the cut gives it apart from the others; joining the parts with the separator
gives the text back.
-/

namespace TreeImage.Text

section Lists

variable {α : Type} [DecidableEq α]

/-- The part before the first `sep`, and the parts after each `sep`. -/
def cut (sep : α) : List α → List α × List (List α)
  | [] => ([], [])
  | c :: rest =>
    let (first, others) := cut sep rest
    if c = sep then ([], first :: others) else (c :: first, others)

omit [DecidableEq α] in
/-- The inverse of `cut`. -/
def glue (sep : α) : List α × List (List α) → List α
  | (first, others) => first ++ others.flatMap (sep :: ·)

theorem glue_cut (sep : α) (s : List α) : glue sep (cut sep s) = s := by
  induction s with
  | nil => rfl
  | cons c rest ih =>
    by_cases h : c = sep
    · simpa [cut, glue, h] using ih
    · simpa [cut, glue, h] using ih

end Lists

def split (sep : Char) (s : String) : String × List String :=
  let (first, others) := cut sep s.toList
  (String.ofList first, others.map String.ofList)

/-- All parts that are not empty. -/
def words (sep : Char) (s : String) : List String :=
  let (first, others) := split sep s
  (first :: others).filter (· ≠ "")

end TreeImage.Text
