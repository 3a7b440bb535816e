import TreeImage.Json

/-!
# Writing JSON

A value is written either on one line without any blanks, or with every item and member on a line
of its own, two blanks deeper than its container. Inside a text only the quote, the backslash and
the characters below U+0020 are escaped.
-/

namespace TreeImage.Json

inductive Style where
  | compact
  | pretty
  deriving DecidableEq, Repr

/-- What stands before an item that is `depth` containers deep. -/
def Style.lineBreak : Style → Nat → List Char
  | .compact, _ => []
  | .pretty, depth => '\n' :: List.replicate (2 * depth) ' '

/-- What stands between a key and its value. -/
def Style.colon : Style → List Char
  | .compact => [':']
  | .pretty => [':', ' ']

def printChar (c : Char) : List Char :=
  if c = '"' then ['\\', '"']
  else if c = '\\' then ['\\', '\\']
  else if c = '\x08' then ['\\', 'b']
  else if c = '\x0c' then ['\\', 'f']
  else if c = '\n' then ['\\', 'n']
  else if c = '\r' then ['\\', 'r']
  else if c = '\t' then ['\\', 't']
  else if c.toNat < 0x20 then
    ['\\', 'u', '0', '0', Nat.digitChar (c.toNat / 16), Nat.digitChar (c.toNat % 16)]
  else [c]

def printString (s : String) : List Char := '"' :: (s.toList.flatMap printChar ++ ['"'])

mutual

/-- The text of a value that stands `depth` containers deep. A `foreign` value is written as a
number that is read as `foreign` again. -/
def print (style : Style) (depth : Nat) : Json → List Char
  | .null => ['n', 'u', 'l', 'l']
  | .bool true => ['t', 'r', 'u', 'e']
  | .bool false => ['f', 'a', 'l', 's', 'e']
  | .number n => Nat.toDigits 10 n
  | .string s => printString s
  | .array [] => ['[', ']']
  | .array (item :: rest) =>
    '[' :: (style.lineBreak (depth + 1) ++ print style (depth + 1) item ++
      printItems style depth rest)
  | .object [] => ['{', '}']
  | .object ((key, value) :: rest) =>
    '{' :: (style.lineBreak (depth + 1) ++ printString key ++ style.colon ++
      print style (depth + 1) value ++ printMembers style depth rest)
  | .foreign => ['-', '0']

/-- The items after the first one, and the end of the array. -/
def printItems (style : Style) (depth : Nat) : List Json → List Char
  | [] => style.lineBreak depth ++ [']']
  | item :: rest =>
    ',' :: (style.lineBreak (depth + 1) ++ print style (depth + 1) item ++
      printItems style depth rest)

/-- The members after the first one, and the end of the object. -/
def printMembers (style : Style) (depth : Nat) : List (String × Json) → List Char
  | [] => style.lineBreak depth ++ ['}']
  | (key, value) :: rest =>
    ',' :: (style.lineBreak (depth + 1) ++ printString key ++ style.colon ++
      print style (depth + 1) value ++ printMembers style depth rest)

end

def render (style : Style) (json : Json) : String := String.ofList (print style 0 json)

end TreeImage.Json
