import TreeImage.Build
import TreeImage.Json.Codec
import TreeImage.Manifest.Csv
import TreeImage.Text.Size

/-!
# The command

The command runs a build and then writes the manifest if one was asked for. It prints one line when
both are done. A failure is told with its context first and then every cause, the outermost first.
-/

namespace TreeImage

inductive Report where
  /-- Everything was written; the text is for the standard output. -/
  | packed (text : String)
  /-- Something failed; the text is for the log. -/
  | failed (text : String)
  deriving DecidableEq, Repr

/-- A manifest is written as comma-separated values if its path asks for that, else as JSON. -/
def Path.isCsv (path : Path) : Bool :=
  path.extension?.any fun extension => extension.toList.map Char.toLower = "csv".toList

def Manifest.toText (manifest : Manifest) (path : Path) : String :=
  if path.isCsv then manifest.toCsv else manifest.toJson.render .pretty

/-- A context and the causes below it. -/
def Report.ofCauses (context : String) (causes : List String) : Report :=
  .failed (": ".intercalate (context :: causes))

def Summary.line (summary : Summary) (output : Path) : String :=
  "Packed " ++ toString summary.files.toNat ++ " files, " ++
    toString summary.directories.toNat ++ " directories into " ++ output.text ++ " (" ++
    Text.size summary.totalSize.toNat ++ ")\n"

/-- Writes the manifest where the configuration wants it, if it wants one. -/
def Config.writeManifest (config : Config) (manifest : Manifest) : Session (Option Report) :=
  match config.manifest with
  | none => return none
  | some path => do
    match ← (Session.write path (Text.utf8 (manifest.toText path))).attempt with
    | .ok _ => return none
    | .error failure =>
      return some (.ofCauses ("writing manifest " ++ path.text) failure.causes)

def Config.execute (depth : Nat) (config : Config) : Session Report := do
  match ← (config.run depth).attempt with
  | .error failure =>
    return .ofCauses ("packing " ++ config.source.text) (failure.message :: failure.causes)
  | .ok image =>
    match ← config.writeManifest image.manifest with
    | some report => return report
    | none => return .packed (image.summary.line config.output)

end TreeImage
