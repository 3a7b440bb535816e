/-!
# Sizes for people

A size below a thousand bytes is written in full. A larger one is written in a decimal unit with
one place after the point, computed from the nearest number of 53 significant bits. The unit
changes a little after each power of 1024 while its divisor is a power of 1000, so that 1048576
bytes are still `1048.6 KB`.
-/

namespace TreeImage.Text

/-- The nearest whole number to `num / den`, of two equally near ones the even one. -/
def roundDiv (num den : Nat) : Nat :=
  let q := num / den
  let r := num % den
  if 2 * r < den then q
  else if den < 2 * r then q + 1
  else q + q % 2

structure SizeUnit where
  name : String
  divisor : Nat
  deriving DecidableEq, Repr

/-- The unit that `n` bytes are written in, where `n` is at least a thousand and fits in a
word. -/
def SizeUnit.of (n : Nat) : SizeUnit :=
  if n ≤ 1048576 then ⟨"KB", 1000⟩
  else if n ≤ 1073741825 then ⟨"MB", 1000 * 1000⟩
  else ⟨"GB", 1000 * 1000 * 1000⟩

/-- Tenths of `num / den`, where the quotient is at least one and is first rounded to 53
significant bits. -/
def tenths (num den : Nat) : Nat :=
  let scale := 1 <<< (52 - (num / den).log2)
  roundDiv (10 * roundDiv (num * scale) den) scale

def size (n : Nat) : String :=
  if n < 1000 then toString n ++ " B"
  else
    let unit := SizeUnit.of n
    let t := tenths n unit.divisor
    toString (t / 10) ++ "." ++ toString (t % 10) ++ " " ++ unit.name

end TreeImage.Text
