/-!
# Tables

A finite table as a list of pairs with distinct keys, in the order in which the keys entered.
Setting a key that is there already replaces its value in place.
-/

namespace TreeImage

abbrev Table (κ ν : Type) := List (κ × ν)

namespace Table

variable {κ ν : Type} [DecidableEq κ]

def get? : Table κ ν → κ → Option ν
  | [], _ => none
  | (k, v) :: rest, key => if k = key then some v else get? rest key

def set (key : κ) (value : ν) : Table κ ν → Table κ ν
  | [] => [(key, value)]
  | (k, v) :: rest => if k = key then (key, value) :: rest else (k, v) :: set key value rest

def erase (t : Table κ ν) (key : κ) : Table κ ν := t.filter (·.1 ≠ key)

def keys (t : Table κ ν) : List κ := t.map Prod.fst

@[simp] theorem get?_set_self (t : Table κ ν) (key : κ) (value : ν) :
    (t.set key value).get? key = some value := by
  induction t with
  | nil => simp [set, get?]
  | cons pair rest ih =>
    obtain ⟨k, v⟩ := pair
    by_cases h : k = key
    · simp [set, get?, h]
    · simp only [set, h, if_false, get?]
      exact ih

theorem get?_set_ne (t : Table κ ν) {key other : κ} (value : ν) (h : other ≠ key) :
    (t.set key value).get? other = t.get? other := by
  induction t with
  | nil => simp [set, get?, Ne.symm h]
  | cons pair rest ih =>
    obtain ⟨k, v⟩ := pair
    by_cases hk : k = key
    · subst hk
      simp [set, get?, Ne.symm h]
    · simp only [set, hk, if_false, get?]
      split
      · rfl
      · exact ih

/-- A key enters at the end, and stays where it is when it is set again. -/
theorem keys_set (t : Table κ ν) (key : κ) (value : ν) :
    (t.set key value).keys = if key ∈ t.keys then t.keys else t.keys ++ [key] := by
  induction t with
  | nil => simp [set, keys]
  | cons pair rest ih =>
    obtain ⟨k, v⟩ := pair
    by_cases h : k = key
    · simp [set, keys, h]
    · have ih' : (set key value rest).map Prod.fst =
          if key ∈ rest.map Prod.fst then rest.map Prod.fst else rest.map Prod.fst ++ [key] := ih
      simp only [set, h, if_false, keys, List.map_cons, ih', List.mem_cons, Ne.symm h, false_or]
      split <;> simp

end Table

end TreeImage
