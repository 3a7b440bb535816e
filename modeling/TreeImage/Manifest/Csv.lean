import TreeImage.Manifest

/-!
# Manifests as comma-separated values

A line of column names, then one line per row; every line ends with a line feed. A field is quoted
only if it holds a comma, a quote or a line end, and a quote inside a quoted field is written
twice. An absent number is an empty field.
-/

namespace TreeImage.Csv

/-- Whether a field with this character has to be quoted. -/
def isSpecial (c : Char) : Bool := c == ',' || c == '"' || c == '\r' || c == '\n'

/-- A field between quotes, without the first one. -/
def quoteRest : List Char → List Char
  | [] => ['"']
  | c :: rest => if c = '"' then '"' :: '"' :: quoteRest rest else c :: quoteRest rest

def printField (field : List Char) : List Char :=
  if field.any isSpecial then '"' :: quoteRest field else field

/-- The fields of a line after the first one, and its end. -/
def printRest : List (List Char) → List Char
  | [] => ['\n']
  | field :: rest => ',' :: (printField field ++ printRest rest)

def printLine : List (List Char) → List Char
  | [] => ['\n']
  | field :: rest => printField field ++ printRest rest

end TreeImage.Csv

namespace TreeImage

/-- A number in decimal digits, nothing if it is absent. -/
def Row.numberField (number : Option UInt32) : List Char :=
  number.elim [] fun w => Nat.toDigits 10 w.toNat

def Row.csvFields (row : Row) : List (List Char) :=
  [Nat.toDigits 10 row.index, row.path.toList, row.kind.word.toList, Row.numberField row.offset,
    Row.numberField row.length, Row.numberField row.children]

def Manifest.columns : List (List Char) :=
  ["index", "path", "kind", "offset", "length", "children"].map String.toList

def Manifest.csvLines (manifest : Manifest) : List (List (List Char)) :=
  Manifest.columns :: manifest.map Row.csvFields

def Manifest.toCsv (manifest : Manifest) : String :=
  String.ofList (manifest.csvLines.flatMap Csv.printLine)

end TreeImage
