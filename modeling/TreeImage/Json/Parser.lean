import TreeImage.Json

/-!
# Reading JSON

The grammar of RFC 8259 and nothing more: blanks are the space, the tab and the two line ends,
numbers have no leading zeros, texts hold no raw control characters, and nothing but blanks follows
the value. There is no limit on nesting.

A text is read in two steps. First its escapes are undone into pieces, where a `\u` escape is a
UTF-16 unit; then the units are joined into characters, which fails for half of a surrogate pair.
-/

namespace TreeImage.Json

def isBlank (c : Char) : Bool := c == ' ' || c == '\n' || c == '\t' || c == '\r'

def skipBlanks (s : List Char) : List Char := s.dropWhile isBlank

inductive Piece where
  | char (c : Char)
  | unit (value : Nat)
  deriving DecidableEq, Repr

def hexDigit? (c : Char) : Option Nat :=
  if '0' ≤ c ∧ c ≤ '9' then some (c.toNat - '0'.toNat)
  else if 'a' ≤ c ∧ c ≤ 'f' then some (c.toNat - 'a'.toNat + 10)
  else if 'A' ≤ c ∧ c ≤ 'F' then some (c.toNat - 'A'.toNat + 10)
  else none

/-- The number with these four digits in base sixteen. -/
def hexUnit? (a b c d : Char) : Option Nat := do
  let a ← hexDigit? a
  let b ← hexDigit? b
  let c ← hexDigit? c
  let d ← hexDigit? d
  return ((a * 16 + b) * 16 + c) * 16 + d

/-- The character that a backslash and `c` stand for. -/
def simpleEscape? (c : Char) : Option Char :=
  if c = '"' ∨ c = '\\' ∨ c = '/' then some c
  else if c = 'b' then some '\x08'
  else if c = 'f' then some '\x0c'
  else if c = 'n' then some '\n'
  else if c = 'r' then some '\r'
  else if c = 't' then some '\t'
  else none

/-- The pieces of a text up to its closing quote, and what follows that. -/
def readPieces : List Char → Option (List Piece × List Char)
  | [] => none
  | '"' :: rest => some ([], rest)
  | '\\' :: 'u' :: a :: b :: c :: d :: rest => do
    let value ← hexUnit? a b c d
    let (pieces, rest) ← readPieces rest
    return (.unit value :: pieces, rest)
  | '\\' :: escape :: rest => do
    let c ← simpleEscape? escape
    let (pieces, rest) ← readPieces rest
    return (.char c :: pieces, rest)
  | c :: rest =>
    if c.toNat < 0x20 ∨ c = '\\' then none
    else do
      let (pieces, rest) ← readPieces rest
      return (.char c :: pieces, rest)

def isHighSurrogate (n : Nat) : Bool := 0xD800 ≤ n && n < 0xDC00

def isLowSurrogate (n : Nat) : Bool := 0xDC00 ≤ n && n < 0xE000

/-- The characters of the pieces, where each half of a surrogate pair is next to the other one. -/
def joinPieces? : List Piece → Option (List Char)
  | [] => some []
  | .char c :: rest => (joinPieces? rest).map (c :: ·)
  | .unit high :: .unit low :: rest =>
    if isHighSurrogate high then
      if isLowSurrogate low then
        (joinPieces? rest).map
          (Char.ofNat (0x10000 + (high - 0xD800) * 0x400 + (low - 0xDC00)) :: ·)
      else none
    else if isLowSurrogate high then none
    else (joinPieces? (.unit low :: rest)).map (Char.ofNat high :: ·)
  | .unit n :: rest =>
    if isHighSurrogate n || isLowSurrogate n then none
    else (joinPieces? rest).map (Char.ofNat n :: ·)

/-- A text whose opening quote was read, or nothing in its place if it is no sequence of
characters. -/
def readString (s : List Char) : Option (Option String × List Char) := do
  let (pieces, rest) ← readPieces s
  return ((joinPieces? pieces).map String.ofList, rest)

/-- The digits that `s` begins with, and what follows them. -/
def spanDigits (s : List Char) : List Char × List Char :=
  (s.takeWhile Char.isDigit, s.dropWhile Char.isDigit)

/-- What follows a fraction, if `s` begins with one; the second part says whether it does. -/
def readFraction : List Char → Option (List Char × Bool)
  | '.' :: rest =>
    match spanDigits rest with
    | ([], _) => none
    | (_ :: _, rest) => some (rest, true)
  | s => some (s, false)

def dropSign : List Char → List Char
  | '+' :: rest => rest
  | '-' :: rest => rest
  | s => s

/-- What follows an exponent, if `s` begins with one; the second part says whether it does. -/
def readExponent : List Char → Option (List Char × Bool)
  | c :: rest =>
    if c = 'e' ∨ c = 'E' then
      match spanDigits (dropSign rest) with
      | ([], _) => none
      | (_ :: _, rest) => some (rest, true)
    else some (c :: rest, false)
  | [] => some ([], false)

/-- A number without its sign. -/
def readUnsigned (s : List Char) : Option (Json × List Char) := do
  let (digits, rest) := spanDigits s
  if digits = [] ∨ (1 < digits.length ∧ digits.head? = some '0') then none
  else
    let (rest, hasFraction) ← readFraction rest
    let (rest, hasExponent) ← readExponent rest
    if hasFraction || hasExponent then return (.foreign, rest)
    else return (.number (Nat.ofDigitChars 10 digits 0), rest)

def readNumber : List Char → Option (Json × List Char)
  | '-' :: rest => do
    let (_, rest) ← readUnsigned rest
    return (.foreign, rest)
  | s => readUnsigned s

/-- The object with these members, unless one of the keys is no sequence of characters. -/
def ofMembers (members : List (Option String × Json)) : Json :=
  match members.mapM fun (key, value) => key.map (·, value) with
  | some members => .object members
  | none => .foreign

mutual

/-- The value that `s` begins with, and what follows it. Every call takes one unit of fuel. -/
def readValue : Nat → List Char → Option (Json × List Char)
  | 0, _ => none
  | fuel + 1, s =>
    match skipBlanks s with
    | '[' :: rest =>
      match skipBlanks rest with
      | ']' :: rest => some (.array [], rest)
      | rest => do
        let (item, rest) ← readValue fuel rest
        let (items, rest) ← readItems fuel rest
        return (.array (item :: items), rest)
    | '{' :: rest =>
      match skipBlanks rest with
      | '}' :: rest => some (.object [], rest)
      | rest => do
        let (member, rest) ← readMember fuel rest
        let (members, rest) ← readMembers fuel rest
        return (ofMembers (member :: members), rest)
    | '"' :: rest => do
      let (text, rest) ← readString rest
      return (text.elim .foreign .string, rest)
    | 'n' :: 'u' :: 'l' :: 'l' :: rest => some (.null, rest)
    | 't' :: 'r' :: 'u' :: 'e' :: rest => some (.bool true, rest)
    | 'f' :: 'a' :: 'l' :: 's' :: 'e' :: rest => some (.bool false, rest)
    | s => readNumber s

/-- The items after the first one, up to the end of the array. -/
def readItems : Nat → List Char → Option (List Json × List Char)
  | 0, _ => none
  | fuel + 1, s =>
    match skipBlanks s with
    | ']' :: rest => some ([], rest)
    | ',' :: rest => do
      let (item, rest) ← readValue fuel rest
      let (items, rest) ← readItems fuel rest
      return (item :: items, rest)
    | _ => none

def readMember : Nat → List Char → Option ((Option String × Json) × List Char)
  | 0, _ => none
  | fuel + 1, s =>
    match skipBlanks s with
    | '"' :: rest => do
      let (key, rest) ← readString rest
      match skipBlanks rest with
      | ':' :: rest =>
        let (value, rest) ← readValue fuel rest
        return ((key, value), rest)
      | _ => none
    | _ => none

/-- The members after the first one, up to the end of the object. -/
def readMembers : Nat → List Char → Option (List (Option String × Json) × List Char)
  | 0, _ => none
  | fuel + 1, s =>
    match skipBlanks s with
    | '}' :: rest => some ([], rest)
    | ',' :: rest => do
      let (member, rest) ← readMember fuel rest
      let (members, rest) ← readMembers fuel rest
      return (member :: members, rest)
    | _ => none

end

/-- The value that a whole text is. Each call of the reader takes at least one character, apart
from the one that it begins with. -/
def parse? (text : String) : Option Json :=
  let s := text.toList
  match readValue (s.length + 1) s with
  | some (json, rest) => if skipBlanks rest = [] then some json else none
  | none => none

end TreeImage.Json
