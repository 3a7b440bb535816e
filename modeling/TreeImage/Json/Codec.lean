import TreeImage.Build
import TreeImage.Json.Parser
import TreeImage.Json.Printer

/-!
# Values as JSON

The JSON forms of kinds, trees, entries, spans, rows and configurations. A structure is written as
an object with its fields in order; it is read from an object with its fields in any order, among
others that do not count, or from an array of all its fields. A field that may be absent is `null`
or left out. A variant is an object with the name of the variant as its only key, and one without
fields is just that name.

Trees nest, and a text may only nest `maxLevels` containers deep where something is read from it.
-/

namespace TreeImage

namespace Json

/-- How many containers deep a value may be read. -/
def maxLevels : Nat := 127

/-- The member `name`, if there is one; fails if there are several. -/
def member? (members : List (String × Json)) (name : String) : Option (Option Json) :=
  match members.filter (·.1 = name) with
  | [] => some none
  | [(_, value)] => some (some value)
  | _ => none

/-- The values of the fields `names`, in that order. -/
def fields? (names : List String) : Json → Option (List (Option Json))
  | .object members => names.mapM (member? members)
  | .array items => if items.length = names.length then some (items.map some) else none
  | _ => none

def text? : Json → Option String
  | .string s => some s
  | _ => none

def flag? : Json → Option Bool
  | .bool b => some b
  | _ => none

/-- A position in a list, which fits in 64 bits. -/
def position? : Json → Option Nat
  | .number n => if n < UInt64.size then some n else none
  | _ => none

def word? : Json → Option UInt32
  | .number n => TreeImage.word? n
  | _ => none

/-- A field that may be left out or `null`. -/
def optional? {α : Type} (read : Json → Option α) : Option Json → Option (Option α)
  | none => some none
  | some .null => some none
  | some json => (read json).map some

def ofWord (w : UInt32) : Json := .number w.toNat

def ofOption {α : Type} (write : α → Json) : Option α → Json
  | none => .null
  | some a => write a

end Json

def Kind.toJson (kind : Kind) : Json := .string kind.word

def Kind.ofWord? (word : String) : Option Kind :=
  if word = Kind.file.word then some .file
  else if word = Kind.directory.word then some .directory
  else none

def Kind.ofJson? : Json → Option Kind
  | .string word => Kind.ofWord? word
  | .object [(word, .null)] => Kind.ofWord? word
  | _ => none

/-- A value of the variant `name` with these fields. -/
def Json.variant (name : String) (fields : List (String × Json)) : Json :=
  .object [(name, .object fields)]

/-- The fields `names` of a value of the variant `name`. -/
def Json.variantFields? (name : String) (names : List String) : Json → Option (List (Option Json))
  | .object [(key, body)] => if key = name then body.fields? names else none
  | _ => none

def Json.ofFile (name : String) : Json := .variant "File" [("name", .string name)]

def Json.ofDirectory (name : String) (children : List Json) : Json :=
  .variant "Directory" [("name", .string name), ("children", .array children)]

def Forest.toJson : Forest Unit → List Json
  | .nil => []
  | .file name _ rest => Json.ofFile name :: rest.toJson
  | .directory name children rest => Json.ofDirectory name children.toJson :: rest.toJson

def Tree.toJson : Tree Unit → Json
  | .file name _ => Json.ofFile name
  | .directory name children => Json.ofDirectory name children.toJson

/-- A file, which takes two levels. -/
def Tree.fileOfJson? (json : Json) : Option (Tree Unit) :=
  match json.variantFields? "File" ["name"] with
  | some [some name] => name.text?.map (.file · ())
  | _ => none

/-- A tree of at most `levels` containers within each other. A directory takes three: its variant,
its fields and the array of its children. -/
def Tree.ofJson? : Nat → Json → Option (Tree Unit)
  | 0, _ => none
  | 1, _ => none
  | 2, json => Tree.fileOfJson? json
  | levels + 3, json =>
    match json.variantFields? "Directory" ["name", "children"] with
    | some [some name, some (.array items)] => do
      let name ← name.text?
      let children ← items.mapM (Tree.ofJson? levels)
      return .directory name (Forest.ofList children)
    | _ => Tree.fileOfJson? json

def Entry.toJson : Entry → Json
  | .file path => .variant "File" [("path", .string path)]
  | .directory path childCount =>
    .variant "Directory" [("path", .string path), ("direct_child_count", .ofWord childCount)]

def Entry.ofJson? (json : Json) : Option Entry :=
  match json.variantFields? "File" ["path"] with
  | some [some path] => path.text?.map .file
  | _ =>
    match json.variantFields? "Directory" ["path", "direct_child_count"] with
    | some [some path, some childCount] => do
      return .directory (← path.text?) (← childCount.word?)
    | _ => none

def Span.toJson (span : Span) : Json :=
  .object [("first_child", .number span.first), ("end", .number span.stop),
    ("direct_children", .ofWord span.childCount)]

def Span.ofJson? (json : Json) : Option Span :=
  match json.fields? ["first_child", "end", "direct_children"] with
  | some [some first, some stop, some childCount] => do
    return ⟨← first.position?, ← stop.position?, ← childCount.word?⟩
  | _ => none

/-- The fields of a row in their order. -/
def Row.toJson (row : Row) : Json :=
  .object [("index", .number row.index), ("path", .string row.path), ("kind", row.kind.toJson),
    ("offset", .ofOption .ofWord row.offset), ("length", .ofOption .ofWord row.length),
    ("children", .ofOption .ofWord row.children)]

def Row.ofJson? (json : Json) : Option Row :=
  match json.fields? ["index", "path", "kind", "offset", "length", "children"] with
  | some [some index, some path, some kind, offset, length, children] => do
    return ⟨← index.position?, ← path.text?, ← Kind.ofJson? kind,
      ← Json.optional? Json.word? offset, ← Json.optional? Json.word? length,
      ← Json.optional? Json.word? children⟩
  | _ => none

/-- A path that is no text has no value for it. -/
def Path.toJson? (path : Path) : Option Json :=
  if path.IsText then some (.string path.text) else none

def Path.ofJson? (json : Json) : Option Path := json.text?.map Path.ofText

def Config.toJson? (config : Config) : Option Json := do
  let source ← config.source.toJson?
  let output ← config.output.toJson?
  let manifest ← config.manifest.mapM Path.toJson?
  return .object [("source", source), ("output", output), ("manifest", .ofOption id manifest),
    ("verify", .bool config.verify)]

def Config.ofJson? (json : Json) : Option Config :=
  match json.fields? ["source", "output", "manifest", "verify"] with
  | some [some source, some output, manifest, some verify] => do
    return ⟨← Path.ofJson? source, ← Path.ofJson? output, ← Json.optional? Path.ofJson? manifest,
      ← verify.flag?⟩
  | _ => none

def Summary.toJson (summary : Summary) : Json :=
  .object [("files", .ofWord summary.files), ("dirs", .ofWord summary.directories),
    ("data_bytes", .ofWord summary.dataSize), ("total_size", .ofWord summary.totalSize)]

/-- The member of a manifest in JSON, whose fields stand in alphabetical order. -/
def Row.toSortedJson (row : Row) : Json :=
  .object [("children", .ofOption .ofWord row.children), ("index", .number row.index),
    ("kind", row.kind.toJson), ("length", .ofOption .ofWord row.length),
    ("offset", .ofOption .ofWord row.offset), ("path", .string row.path)]

def Manifest.toJson (manifest : Manifest) : Json :=
  .object [("records", .array (manifest.map Row.toSortedJson))]

end TreeImage
