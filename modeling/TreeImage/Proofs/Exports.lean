import TreeImage.Proofs.CsvText
import TreeImage.Proofs.JsonForms

/-!
# Exports of a manifest

Both exports of a manifest keep it whole. The comma-separated text has the line of column names and
then a line for each row, and the fields of a line give the row back. The JSON text, in both styles,
is an object whose only member holds the rows; their members are sorted by name, while a row is read
from members in any order.
-/

namespace TreeImage

/-! ## Rows from fields -/

namespace Csv

/-- The number with these decimal digits. -/
def number? (field : List Char) : Option Nat :=
  if !field.isEmpty && field.all Char.isDigit then some (Nat.ofDigitChars 10 field 0) else none

/-- An empty field is an absent number. -/
def optionalWord? (field : List Char) : Option (Option UInt32) :=
  if field = [] then some none else ((number? field).bind word?).map some

theorem number?_toDigits (n : Nat) : number? (Nat.toDigits 10 n) = some n := by
  have hnumber : (!(Nat.toDigits 10 n).isEmpty && (Nat.toDigits 10 n).all Char.isDigit) = true := by
    rw [Bool.and_eq_true, List.all_eq_true]
    exact ⟨by simp [Nat.toDigits_ne_nil], Json.forall_isDigit n⟩
  rw [number?, if_pos hnumber, Nat.ofDigitChars_ten_toDigits]

theorem optionalWord?_numberField (number : Option UInt32) :
    optionalWord? (Row.numberField number) = some number := by
  cases number with
  | none => rfl
  | some w =>
    have hfield : Row.numberField (some w) = Nat.toDigits 10 w.toNat := rfl
    rw [hfield, optionalWord?, if_neg Nat.toDigits_ne_nil, number?_toDigits, Option.bind_some,
      word?_eq_some_iff.mpr rfl, Option.map_some]

end Csv

/-- The row with these fields: a decimal index, the path as it stands, the word for the kind, and
three numbers that may be absent. -/
def Row.ofFields? : List (List Char) → Option Row
  | [index, path, kind, offset, length, children] => do
    return ⟨← Csv.number? index, String.ofList path, ← Kind.ofWord? (String.ofList kind),
      ← Csv.optionalWord? offset, ← Csv.optionalWord? length, ← Csv.optionalWord? children⟩
  | _ => none

theorem Row.ofFields?_csvFields (row : Row) : Row.ofFields? row.csvFields = some row := by
  simp [Row.ofFields?, Row.csvFields, Csv.number?_toDigits, Kind.ofWord?_word,
    Csv.optionalWord?_numberField]

/-! ## Whole manifests -/

theorem Manifest.read?_toCsv (manifest : Manifest) :
    Csv.read? manifest.toCsv = some (Manifest.columns :: manifest.map Row.csvFields) := by
  refine Csv.read?_printLines fun line hline => ?_
  rcases List.mem_cons.mp hline with rfl | hline
  · simp [Manifest.columns]
  · obtain ⟨row, -, rfl⟩ := List.mem_map.mp hline
    simp [Row.csvFields]

/-- Both exports of a manifest give its rows back, in their order and without any others. In JSON an
index has to be a position, which is a number of 64 bits. -/
theorem Manifest.exports_lossless (manifest : Manifest) :
    (∃ lines, Csv.read? manifest.toCsv = some (Manifest.columns :: lines) ∧
      lines.length = manifest.length ∧ (∀ line ∈ lines, line.length = 6) ∧
      lines.mapM Row.ofFields? = some manifest) ∧
    ((∀ row ∈ manifest, row.index < UInt64.size) → ∀ style, ∃ items,
      Json.parse? (manifest.toJson.render style) = some (.object [("records", .array items)]) ∧
      items.mapM Row.ofJson? = some manifest) := by
  refine ⟨⟨manifest.map Row.csvFields, manifest.read?_toCsv, List.length_map _, ?_, ?_⟩,
    fun hindex style => ⟨manifest.map Row.toSortedJson, Json.parse?_render style _, ?_⟩⟩
  · intro line hline
    obtain ⟨row, -, rfl⟩ := List.mem_map.mp hline
    rfl
  · exact Json.mapM_map_of_read fun row _ => row.ofFields?_csvFields
  · exact Json.mapM_map_of_read fun row hrow => Row.ofJson?_toSortedJson (hindex row hrow)

/-- Paths with every kind of character that an export has to take care of. -/
def Manifest.awkward : Manifest :=
  [⟨0, "a, \"b\"\r\n/", .directory, none, none, some 2⟩,
    ⟨1, "\"", .file, some 4294967295, some 0, none⟩,
    ⟨18446744073709551615, "\\é\x01,", .file, none, none, none⟩]

theorem Manifest.exports_lossless_awkward :
    (∃ lines, Csv.read? awkward.toCsv = some (columns :: lines) ∧
      lines.mapM Row.ofFields? = some awkward) ∧
    ∃ items, Json.parse? (awkward.toJson.render .pretty) =
        some (.object [("records", .array items)]) ∧
      items.mapM Row.ofJson? = some awkward := by
  obtain ⟨⟨lines, hread, -, -, hrows⟩, hjson⟩ := exports_lossless awkward
  exact ⟨⟨lines, hread, hrows⟩, hjson (by decide) .pretty⟩

end TreeImage
