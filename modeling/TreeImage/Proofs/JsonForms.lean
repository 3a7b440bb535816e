import TreeImage.Json.Codec
import TreeImage.Proofs.JsonText
import Mathlib.Data.List.Forall2

/-!
# Values that read back from JSON

A value is read back from its JSON form, as long as its positions fit in 64 bits and a tree is not
nested too deeply. The members of an object may stand in any order, since their keys are distinct,
and no value that may be absent is written as `null`. A directory takes three levels of the text, so
that the levels above the deepest node bound what its tree takes.
-/

namespace TreeImage

namespace Json

/-! ## Members -/

theorem member?_of_mem {members : List (String × Json)} (hkeys : (members.map Prod.fst).Nodup)
    {name : String} {value : Json} (h : (name, value) ∈ members) :
    member? members name = some (some value) := by
  have hfilter : members.filter (·.1 = name) = [(name, value)] := by
    induction members with
    | nil => cases h
    | cons member members ih =>
      rw [List.map_cons, List.nodup_cons] at hkeys
      obtain ⟨hnew, hkeys⟩ := hkeys
      rcases List.mem_cons.mp h with rfl | hmem
      · have hothers : members.filter (·.1 = name) = [] := by
          refine List.filter_eq_nil_iff.mpr fun other hother hname => hnew ?_
          exact List.mem_map.mpr ⟨other, hother, by simpa using hname⟩
        simp [hothers]
      · have hne : member.1 ≠ name := by
          rintro rfl
          exact hnew (List.mem_map.mpr ⟨_, hmem, rfl⟩)
        rw [List.filter_cons_of_neg (by simpa using hne), ih hkeys hmem]
  rw [member?, hfilter]

/-- An object gives the fields that it has, in whatever order it has them. -/
theorem fields?_object {members : List (String × Json)} (hkeys : (members.map Prod.fst).Nodup)
    {names : List String} {values : List Json}
    (h : List.Forall₂ (fun name value => (name, value) ∈ members) names values) :
    fields? names (.object members) = some (values.map some) := by
  rw [fields?]
  induction h with
  | nil => rfl
  | cons hmem _ ih => simp [member?_of_mem hkeys hmem, ih]

theorem variantFields?_variant (name : String) {fields : List (String × Json)}
    (hkeys : (fields.map Prod.fst).Nodup) {names : List String} {values : List Json}
    (h : List.Forall₂ (fun name value => (name, value) ∈ fields) names values) :
    variantFields? name names (variant name fields) = some (values.map some) := by
  rw [variant, variantFields?, if_pos rfl, fields?_object hkeys h]

theorem variantFields?_variant_ne {name other : String} (h : name ≠ other) (names : List String)
    (fields : List (String × Json)) : variantFields? other names (variant name fields) = none :=
  if_neg h

/-! ## Fields -/

theorem position?_number {n : Nat} (h : n < UInt64.size) : position? (.number n) = some n :=
  if_pos h

theorem word?_ofWord (w : UInt32) : (ofWord w).word? = some w := word?_eq_some_iff.mpr rfl

theorem optional?_ofOption {α : Type} {read : Json → Option α} {write : α → Json}
    (hread : ∀ a, read (write a) = some a) (hnull : ∀ a, write a ≠ .null) (value : Option α) :
    optional? read (some (ofOption write value)) = some value := by
  cases value with
  | none => rfl
  | some a =>
    rw [ofOption, optional?]
    · rw [hread, Option.map_some]
    · exact hnull a

theorem optionalWord?_ofOption (value : Option UInt32) :
    optional? word? (some (ofOption ofWord value)) = some value :=
  optional?_ofOption word?_ofWord (fun _ h => nomatch h) value

end Json

/-! ## Values -/

theorem Kind.ofWord?_word (kind : Kind) : Kind.ofWord? kind.word = some kind := by
  cases kind <;> rfl

theorem Kind.ofJson?_toJson (kind : Kind) : Kind.ofJson? kind.toJson = some kind :=
  kind.ofWord?_word

theorem Entry.ofJson?_toJson (entry : Entry) : Entry.ofJson? entry.toJson = some entry := by
  cases entry with
  | file path =>
    have hfields : (Entry.file path).toJson.variantFields? "File" ["path"] =
        some ([.string path].map some) := Json.variantFields?_variant "File" (by simp) (by simp)
    rw [Entry.ofJson?, hfields]
    rfl
  | directory path childCount =>
    have hfile : (Entry.directory path childCount).toJson.variantFields? "File" ["path"] = none :=
      Json.variantFields?_variant_ne (by simp) _ _
    have hfields : (Entry.directory path childCount).toJson.variantFields? "Directory"
        ["path", "direct_child_count"] = some ([.string path, .ofWord childCount].map some) :=
      Json.variantFields?_variant "Directory" (by simp) (by simp)
    rw [Entry.ofJson?, hfile, hfields]
    simp [Json.text?, Json.word?_ofWord]

theorem Span.ofJson?_toJson {span : Span} (hfirst : span.first < UInt64.size)
    (hstop : span.stop < UInt64.size) : Span.ofJson? span.toJson = some span := by
  have hfields : span.toJson.fields? ["first_child", "end", "direct_children"] =
      some ([.number span.first, .number span.stop, .ofWord span.childCount].map some) :=
    Json.fields?_object (by simp) (by simp)
  rw [Span.ofJson?, hfields]
  simp [Json.position?_number hfirst, Json.position?_number hstop, Json.word?_ofWord]

/-- A row is read from any object that has its fields. -/
theorem Row.ofJson?_object {row : Row} (hindex : row.index < UInt64.size)
    {members : List (String × Json)} (hkeys : (members.map Prod.fst).Nodup)
    (h : List.Forall₂ (fun name value => (name, value) ∈ members)
      ["index", "path", "kind", "offset", "length", "children"]
      [.number row.index, .string row.path, row.kind.toJson, .ofOption .ofWord row.offset,
        .ofOption .ofWord row.length, .ofOption .ofWord row.children]) :
    Row.ofJson? (.object members) = some row := by
  rw [Row.ofJson?, Json.fields?_object hkeys h]
  simp [Json.position?_number hindex, Json.text?, Kind.ofJson?_toJson,
    Json.optionalWord?_ofOption]

theorem Row.ofJson?_toJson {row : Row} (hindex : row.index < UInt64.size) :
    Row.ofJson? row.toJson = some row :=
  Row.ofJson?_object hindex (by simp) (by simp)

theorem Row.ofJson?_toSortedJson {row : Row} (hindex : row.index < UInt64.size) :
    Row.ofJson? row.toSortedJson = some row :=
  Row.ofJson?_object hindex (by simp) (by simp)

/-- Only a path that is a text has a form, and is read from it. -/
theorem Path.ofJson?_of_toJson? {path : Path} {json : Json} (h : path.toJson? = some json) :
    Path.ofJson? json = some path := by
  unfold Path.toJson? at h
  split at h
  · next htext =>
    obtain rfl := Option.some.inj h
    rw [Path.ofJson?, Json.text?, Option.map_some, Path.ofText, Path.text,
      Text.isUtf8_iff.mp htext]
  · cases h

/-- The paths of a configuration are texts. -/
structure Config.IsText (config : Config) : Prop where
  source : config.source.IsText
  output : config.output.IsText
  manifest : ∀ path ∈ config.manifest, path.IsText

theorem Path.toJson?_of_isText {path : Path} (h : path.IsText) :
    path.toJson? = some (.string path.text) := if_pos h

theorem Config.exists_toJson? {config : Config} (h : config.IsText) :
    ∃ json, config.toJson? = some json ∧ Config.ofJson? json = some config := by
  obtain ⟨manifest, hmanifest, hread⟩ : ∃ manifest,
      config.manifest.mapM Path.toJson? = some manifest ∧
        Json.optional? Path.ofJson? (some (.ofOption id manifest)) = some config.manifest := by
    cases hpath : config.manifest with
    | none => exact ⟨none, rfl, rfl⟩
    | some path =>
      have hjson := Path.toJson?_of_isText (h.manifest path hpath)
      refine ⟨some (.string path.text), by simp [hjson], ?_⟩
      rw [Json.ofOption, id, Json.optional?, Path.ofJson?_of_toJson? hjson, Option.map_some]
      exact fun hnull => nomatch hnull
  have hsource := Path.toJson?_of_isText h.source
  have houtput := Path.toJson?_of_isText h.output
  let json : Json := .object [("source", .string config.source.text),
    ("output", .string config.output.text), ("manifest", .ofOption id manifest),
    ("verify", .bool config.verify)]
  have hfields : json.fields? ["source", "output", "manifest", "verify"] =
      some ([.string config.source.text, .string config.output.text, .ofOption id manifest,
        .bool config.verify].map some) := Json.fields?_object (by simp) (by simp)
  refine ⟨json, by simp [json, Config.toJson?, hsource, houtput, hmanifest], ?_⟩
  rw [Config.ofJson?, hfields]
  simp [Path.ofJson?_of_toJson? hsource, Path.ofJson?_of_toJson? houtput, hread, Json.flag?]

/-! ## Trees -/

theorem Tree.fileOfJson?_ofFile (name : String) :
    Tree.fileOfJson? (Json.ofFile name) = some (.file name ()) := by
  have hfields : (Json.ofFile name).variantFields? "File" ["name"] =
      some ([.string name].map some) := Json.variantFields?_variant "File" (by simp) (by simp)
  rw [Tree.fileOfJson?, hfields]
  rfl

theorem Tree.ofJson?_ofFile {levels : Nat} (h : 2 ≤ levels) (name : String) :
    Tree.ofJson? levels (Json.ofFile name) = some (.file name ()) := by
  match levels, h with
  | 2, _ => rw [Tree.ofJson?, Tree.fileOfJson?_ofFile]
  | levels + 3, _ =>
    have hother : (Json.ofFile name).variantFields? "Directory" ["name", "children"] = none :=
      Json.variantFields?_variant_ne (by simp) _ _
    rw [Tree.ofJson?, hother]
    exact Tree.fileOfJson?_ofFile name

theorem Tree.ofJson?_ofDirectory {levels : Nat} {items : List Json} {children : List (Tree Unit)}
    (h : items.mapM (Tree.ofJson? levels) = some children) (name : String) :
    Tree.ofJson? (levels + 3) (Json.ofDirectory name items) =
      some (.directory name (Forest.ofList children)) := by
  have hfields : (Json.ofDirectory name items).variantFields? "Directory" ["name", "children"] =
      some ([.string name, .array items].map some) :=
    Json.variantFields?_variant "Directory" (by simp) (by simp)
  rw [Tree.ofJson?, hfields]
  simp [Json.text?, h]

/-- By induction on the forest. Every step down takes three levels and brings the nodes one step
closer to the deepest one. -/
theorem Forest.mapM_ofJson?_toJson {deepest depth levels : Nat} (f : Forest Unit)
    (hdeep : ∀ line ∈ f.outline depth, line.depth ≤ deepest)
    (hlevels : 3 * (deepest + 1 - depth) + 2 ≤ levels) :
    f.toJson.mapM (Tree.ofJson? levels) = some f.toList := by
  induction f generalizing depth levels with
  | nil => rfl
  | file name content rest ih =>
    rw [Forest.outline, List.forall_mem_cons] at hdeep
    have henough : 2 ≤ levels := by omega
    have hfile := Tree.ofJson?_ofFile henough name
    simp [Forest.toJson, Forest.toList, hfile, ih hdeep.2 hlevels]
  | directory name children rest ihc ih =>
    rw [Forest.outline, List.forall_mem_cons, List.forall_mem_append] at hdeep
    obtain ⟨hdepth, hbelow, hrest⟩ := hdeep
    have hdepth : depth ≤ deepest := hdepth
    obtain ⟨below, rfl⟩ := Nat.exists_eq_add_of_le' (m := 3) (n := levels) (by omega)
    have henough : 3 * (deepest + 1 - (depth + 1)) + 2 ≤ below := by omega
    have hchildren := ihc hbelow henough
    have hdirectory := Tree.ofJson?_ofDirectory hchildren name
    rw [Forest.ofList_toList] at hdirectory
    simp [Forest.toJson, Forest.toList, hdirectory, ih hrest hlevels]

theorem Tree.ofJson?_toJson {deepest levels : Nat} (tree : Tree Unit)
    (hdeep : ∀ line ∈ tree.outline, line.depth ≤ deepest)
    (hlevels : 3 * (deepest + 1) + 2 ≤ levels) :
    Tree.ofJson? levels tree.toJson = some tree := by
  have hforest := Forest.mapM_ofJson?_toJson (Forest.cons tree .nil) hdeep hlevels
  have hlist : [tree.toJson].mapM (Tree.ofJson? levels) = some [tree] := by
    cases tree <;> exact hforest
  rw [List.mapM_cons, List.mapM_nil] at hlist
  cases hread : Tree.ofJson? levels tree.toJson with
  | none => simp [hread] at hlist
  | some other => simpa [hread] using hlist

/-! ## Texts -/

namespace Json

variable {α : Type} {write : α → Option Json} {read : Json → Option α} {a : α}

/-- The compact text of a value that has a form. -/
def textOf (write : α → Option Json) (a : α) : Option String := (write a).map (·.render .compact)

/-- The value that a text is read as. -/
def valueOf (read : Json → Option α) (text : String) : Option α := (parse? text).bind read

/-- The compact text of a value is read as that value, and what was read has the same text. -/
structure ReadsBack (write : α → Option Json) (read : Json → Option α) (a : α) : Prop where
  value : (textOf write a).bind (valueOf read) = some a
  text : ((textOf write a).bind (valueOf read)).bind (textOf write) = textOf write a

theorem readsBack_of_read {json : Json} (hwrite : write a = some json)
    (hread : read json = some a) : ReadsBack write read a := by
  have hvalue : (textOf write a).bind (valueOf read) = some a := by
    rw [textOf, hwrite, Option.map_some, Option.bind_some, valueOf, parse?_render,
      Option.bind_some, hread]
  exact ⟨hvalue, by rw [hvalue, Option.bind_some]⟩

end Json

/-- Kinds and entries read back whatever they hold, spans and rows if their positions are 64-bit
numbers, configurations if their paths are texts, and trees if no node is within more than forty
directories. -/
theorem values_readBack :
    (∀ kind, Json.ReadsBack (some ·.toJson) Kind.ofJson? kind) ∧
    (∀ entry, Json.ReadsBack (some ·.toJson) Entry.ofJson? entry) ∧
    (∀ span : Span, span.first < UInt64.size → span.stop < UInt64.size →
      Json.ReadsBack (some ·.toJson) Span.ofJson? span) ∧
    (∀ row : Row, row.index < UInt64.size → Json.ReadsBack (some ·.toJson) Row.ofJson? row) ∧
    (∀ config : Config, config.IsText →
      Json.ReadsBack Config.toJson? Config.ofJson? config) ∧
    (∀ tree : Tree Unit, (∀ line ∈ tree.outline, line.depth ≤ 40) →
      Json.ReadsBack (some ·.toJson) (Tree.ofJson? Json.maxLevels) tree) := by
  refine ⟨fun kind => ?_, fun entry => ?_, fun span hfirst hstop => ?_, fun row hindex => ?_,
    fun config htext => ?_, fun tree hdeep => ?_⟩
  · exact Json.readsBack_of_read rfl kind.ofJson?_toJson
  · exact Json.readsBack_of_read rfl entry.ofJson?_toJson
  · exact Json.readsBack_of_read rfl (Span.ofJson?_toJson hfirst hstop)
  · exact Json.readsBack_of_read rfl (Row.ofJson?_toJson hindex)
  · obtain ⟨json, hwrite, hread⟩ := Config.exists_toJson? htext
    exact Json.readsBack_of_read hwrite hread
  · exact Json.readsBack_of_read rfl (tree.ofJson?_toJson hdeep (by decide))

/-- Directories within each other, and a file in the innermost one. -/
def Forest.nested : Nat → Forest Unit
  | 0 => .file "\"\\\x01é" () .nil
  | n + 1 => .directory "\n/" (nested n) .nil

/-- The largest positions, a path with every kind of escape, paths that are no ASCII, and a file
within forty directories. -/
theorem values_readBack_largest :
    Json.ReadsBack (some ·.toJson) Span.ofJson?
      ⟨18446744073709551615, 18446744073709551615, 0⟩ ∧
    Json.ReadsBack (some ·.toJson) Row.ofJson?
      ⟨18446744073709551615, "\"\\\x08\x0c\n\r\t\x1f\x7fé/", .file, some 4294967295, some 0, none⟩ ∧
    Json.ReadsBack Config.toJson? Config.ofJson?
      ⟨.ofText "./é", .ofText "", some (.ofText "/\x00//"), true⟩ ∧
    Json.ReadsBack (some ·.toJson) (Tree.ofJson? Json.maxLevels)
      (.directory "" (Forest.nested 39)) := by
  obtain ⟨-, -, hspan, hrow, hconfig, htree⟩ := values_readBack
  refine ⟨hspan _ (by decide) (by decide), hrow _ (by decide), hconfig _ ?_, htree _ (by decide)⟩
  exact ⟨⟨_, rfl⟩, ⟨_, rfl⟩, fun path hpath => Option.some.inj hpath ▸ ⟨_, rfl⟩⟩

end TreeImage
