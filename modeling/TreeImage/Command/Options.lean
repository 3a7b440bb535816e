import TreeImage.Build

/-!
# Command line options

The arguments are the output path and then the source path, both optional, `-m` or `--manifest`
with a path, `--verify`, and `-h` or `--help`. A short option takes its path from the rest of its
argument, with or without `=`, a long one after `=`, and both from the next argument that is not
itself an option. After `--` every argument is a path.

A path is only looked at when the next option or path is recognised, or at the end. So an argument
that is not recognised at all is reported before a bad path that stands directly before it.
-/

namespace TreeImage

/-- Why arguments are not a configuration. -/
inductive UsageError where
  | helpRequested
  | unknownArgument
  /-- A path is missing or empty. -/
  | invalidValue
  /-- An option is given twice. -/
  | argumentConflict
  /-- An option without a path is given one. -/
  | tooManyValues
  deriving DecidableEq, Repr

/-- What a path on the command line is for. -/
inductive Slot where
  | output
  | source
  | manifest
  deriving DecidableEq, Repr

/-- The arguments recognised so far. -/
structure Options where
  output : Option String := none
  source : Option String := none
  manifest : Option String := none
  verify : Bool := false
  /-- The last path or option with a path, which was not looked at yet, and its path if that was
  met. -/
  pending : Option (Slot × Option String) := none
  /-- How many paths were met outside of options. -/
  paths : Nat := 0
  deriving DecidableEq, Repr

namespace Options

def accept (o : Options) (slot : Slot) (path : String) : Except UsageError Options :=
  if slot = .manifest ∧ o.manifest.isSome then .error .argumentConflict
  else if path = "" then .error .invalidValue
  else
    match slot with
    | .output => .ok { o with output := some path }
    | .source => .ok { o with source := some path }
    | .manifest => .ok { o with manifest := some path }

/-- Looks at the path that is pending. -/
def settle (o : Options) : Except UsageError Options :=
  match o.pending with
  | none => .ok o
  | some (_, none) => .error .invalidValue
  | some (slot, some path) => { o with pending := none }.accept slot path

def await (o : Options) (slot : Slot) (path : Option String) : Except UsageError Options := do
  let o ← o.settle
  return { o with pending := some (slot, path) }

def addPath (o : Options) (path : String) : Except UsageError Options :=
  match o.paths with
  | 0 => { o with paths := 1 }.await .output (some path)
  | 1 => { o with paths := 2 }.await .source (some path)
  | _ => .error .unknownArgument

def addManifest (o : Options) (path : Option String) : Except UsageError Options :=
  match path with
  | none => o.await .manifest none
  | some path => do
    let o ← o.settle
    o.accept .manifest path

def addVerify (o : Options) : Except UsageError Options := do
  let o ← o.settle
  if o.verify then .error .argumentConflict else return { o with verify := true }

/-- Asking for help ends the reading of the arguments. -/
def addHelp (o : Options) : Except UsageError Options := do
  let _ ← o.settle
  .error .helpRequested

/-- An argument that begins with two dashes, without them. -/
def addLong (o : Options) (option : List Char) : Except UsageError Options :=
  let (name, others) := Text.cut '=' option
  let path := if others = [] then none else some (option.drop (name.length + 1))
  if name = "manifest".toList then o.addManifest (path.map String.ofList)
  else if name = "verify".toList then
    if path.isSome then .error .tooManyValues else o.addVerify
  else if name = "help".toList then
    if path.isSome then .error .tooManyValues else o.addHelp
  else .error .unknownArgument

/-- An argument that begins with one dash, without it: the first letter decides, since each option
either takes the rest of the argument or ends the reading. -/
def addShort (o : Options) : List Char → Except UsageError Options
  | ['m'] => o.addManifest none
  | 'm' :: '=' :: path => o.addManifest (some (String.ofList path))
  | 'm' :: path => o.addManifest (some (String.ofList path))
  | 'h' :: _ => o.addHelp
  | _ => .error .unknownArgument

/-- An argument that is no option: the path of the option before it, if that waits for one. -/
def addPlain (o : Options) (path : String) : Except UsageError Options :=
  match o.pending with
  | some (slot, none) => .ok { o with pending := some (slot, some path) }
  | _ => o.addPath path

/-- Recognises the arguments in turn, where `onlyPaths` says that a `--` was met. -/
def addAll (o : Options) (onlyPaths : Bool) : List String → Except UsageError Options
  | [] => o.settle
  | argument :: rest =>
    if onlyPaths then do
      let o ← o.addPath argument
      o.addAll true rest
    else
      match argument.toList with
      | ['-', '-'] => o.addAll true rest
      | '-' :: '-' :: option => do
        let o ← o.addLong option
        o.addAll false rest
      | '-' :: c :: option => do
        let o ← o.addShort (c :: option)
        o.addAll false rest
      | _ => do
        let o ← o.addPlain argument
        o.addAll false rest

def toConfig (o : Options) : Config :=
  let standard : Config := {}
  { source := (o.source.map Path.ofText).getD standard.source
    output := (o.output.map Path.ofText).getD standard.output
    manifest := o.manifest.map Path.ofText
    verify := o.verify }

end Options

def Config.ofArguments (arguments : List String) : Except UsageError Config := do
  let options ← ({} : Options).addAll false arguments
  return options.toConfig

end TreeImage
