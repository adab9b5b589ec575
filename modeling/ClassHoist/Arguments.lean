import ClassHoist.Options
import ClassHoist.Path

/-! # Command line arguments

Options and paths mix freely. The arguments are read from left to right and the first problem
counts. A value that is an argument of its own is judged only when the argument after it, which may
be unknown, has been recognized.
-/

namespace ClassHoist

/-- The form of the report: text to be read, or a JSON array. -/
inductive ReportFormat where
  | human
  | json
  deriving DecidableEq, Repr, Inhabited

/-- What the arguments ask for: the files and folders to process, and the folder that these are
relative to; whether classes for one direction and marked classes are supported; the configuration
file, if it is named; the folder for processed files, if they are to be written, and whether source
maps are; patterns of files that are left out; the form of the report; and how much is logged. -/
structure Arguments where
  paths : List Path
  workspace : Path
  rtl : Bool
  globalPrefix : Bool
  config : Option Path
  outDir : Option Path
  sourceMap : Bool
  ignore : List Text
  output : ReportFormat
  verbosity : Nat
  deriving DecidableEq, Repr, Inhabited

/-- Why the arguments could not be used: an unknown option, an option without a value or with one
that it cannot have, a flag with a value, an option given twice or without another one that it
needs. Asking for help or for the version counts as such a reason. -/
inductive UsageError where
  | unknownArgument
  | invalidValue
  | tooManyValues
  | conflict
  | missingArgument
  | displayHelp
  | displayVersion
  deriving DecidableEq, Repr

/-- How the command is used. -/
def usage : String :=
  "\n".intercalate
    ["Rewrite classes passed to child Svelte components into global style rules", "",
      "Usage: svelte-deep-classes [OPTIONS] [PATHS]...", "", "Options:",
      "      --workspace <WORKSPACE>  Working directory",
      "      --rtl                    Support rtl: and ltr: classes",
      "      --global-prefix          Make gl: classes global",
      "      --config <CONFIG>        Path to a JSON config file",
      "      --out-dir <OUT_DIR>      Write transformed files here instead of printing them",
      "      --source-map             Write a source map next to every transformed file",
      "      --ignore <IGNORE>        Glob patterns to ignore",
      "      --output <OUTPUT>        Output format: human or json",
      "  -v, --verbose                Increase log verbosity",
      "  -h, --help                   Print help",
      "  -V, --version                Print version"]

/-- What is printed instead of a report. -/
def UsageError.message : UsageError → String
  | .unknownArgument => "error: unexpected argument"
  | .invalidValue => "error: an option has no value or an invalid one"
  | .tooManyValues => "error: unexpected value for a flag"
  | .conflict => "error: an argument cannot be used multiple times"
  | .missingArgument => "error: --source-map requires --out-dir"
  | .displayHelp => usage
  | .displayVersion => "svelte-deep-classes 0.9.5"

/-- The exit status for arguments that were not used; to ask for help is no failure. -/
def UsageError.exitStatus : UsageError → Nat
  | .displayHelp | .displayVersion => 0
  | _ => 2

namespace Arguments

/-- An option without a value: support for classes for one direction, support for marked classes,
source maps, more logging, help, and the version. -/
inductive Flag where
  | rtl
  | globalPrefix
  | sourceMap
  | verbose
  | help
  | version
  deriving DecidableEq, Repr

/-- An option with a value: the folder that paths are relative to, the configuration file, the
folder for processed files, a pattern of files that are left out, and the form of the report. -/
inductive Parameter where
  | workspace
  | config
  | outDir
  | ignore
  | output
  deriving DecidableEq, Repr

/-- The flag with a long name. -/
def Flag.ofName? (name : Text) : Option Flag :=
  [("rtl", .rtl), ("global-prefix", .globalPrefix), ("source-map", .sourceMap),
    ("verbose", .verbose), ("help", .help), ("version", Flag.version)].lookup (String.ofList name)

/-- The flag with a short name. -/
def Flag.ofLetter? : Char → Option Flag
  | 'v' => some .verbose
  | 'h' => some .help
  | 'V' => some .version
  | _ => none

/-- The parameter with a long name. -/
def Parameter.ofName? (name : Text) : Option Parameter :=
  [("workspace", .workspace), ("config", .config), ("out-dir", .outDir), ("ignore", .ignore),
    ("output", Parameter.output)].lookup (String.ofList name)

/-- The form of the report with a name. -/
def formatOfName? (name : Text) : Option ReportFormat :=
  [("human", .human), ("json", ReportFormat.json)].lookup (String.ofList name)

/-- The arguments that have been read: the paths, the flags other than those for help and version,
and the parameters with their values. The last parameter is pending, with its value if it has one,
until that has been judged; after a double dash whatever follows is a path. -/
structure Reading where
  paths : List Path
  flags : List Flag
  values : List (Parameter × Text)
  pending : Option (Parameter × Option Text)
  onlyPaths : Bool
  deriving DecidableEq, Repr

namespace Reading

/-- Nothing has been read. -/
def start : Reading := ⟨[], [], [], none, false⟩

/-- A parameter can have this value. -/
def allows (parameter : Parameter) (value : Text) : Bool :=
  match parameter with
  | .output => (formatOfName? value).isSome
  | _ => true

/-- Judge the value of the last parameter. -/
def settle (reading : Reading) : Except UsageError Reading :=
  match reading.pending with
  | none => .ok reading
  | some (_, none) => .error .invalidValue
  | some (parameter, some value) =>
    if parameter ≠ .ignore ∧ (reading.values.lookup parameter).isSome then .error .conflict
    else if allows parameter value then
      .ok { reading with values := reading.values ++ [(parameter, value)], pending := none }
    else .error .invalidValue

/-- Read a flag. -/
def flag (reading : Reading) (flag : Flag) : Except UsageError Reading := do
  let reading ← reading.settle
  match flag with
  | .help => throw .displayHelp
  | .version => throw .displayVersion
  | _ =>
    if flag ≠ .verbose ∧ flag ∈ reading.flags then throw .conflict
    return { reading with flags := reading.flags ++ [flag] }

/-- Read the letters after a single dash. -/
def letters (reading : Reading) : Text → Except UsageError Reading
  | [] => .ok reading
  | letter :: rest =>
    match Flag.ofLetter? letter with
    | none => .error .unknownArgument
    | some found =>
      match reading.flag found with
      | .error error => .error error
      | .ok reading => reading.letters rest

/-- Read what follows a double dash: a name and, after an equals sign, a value. -/
def long (reading : Reading) (argument : Text) : Except UsageError Reading :=
  let name := argument.takeWhile (· ≠ '=')
  let value? := (argument.dropWhile (· ≠ '=')).tail?
  match Parameter.ofName? name, Flag.ofName? name, value? with
  | some parameter, _, none =>
    reading.settle.map fun reading => { reading with pending := some (parameter, none) }
  | some parameter, _, some value =>
    reading.settle.bind fun reading =>
      { reading with pending := some (parameter, some value) }.settle
  | none, some _, some _ => .error .tooManyValues
  | none, some flag, none => reading.flag flag
  | none, none, _ => .error .unknownArgument

/-- Read a path. -/
def path (reading : Reading) (argument : Text) : Except UsageError Reading :=
  reading.settle.map fun reading => { reading with paths := reading.paths ++ [⟨argument⟩] }

/-- Read an argument that is no option: the value of the last parameter, if it has none, or a
path. -/
def plain (reading : Reading) (argument : Text) : Except UsageError Reading :=
  match reading.pending with
  | some (parameter, none) => .ok { reading with pending := some (parameter, some argument) }
  | _ => reading.path argument

/-- Read an argument. -/
def step (reading : Reading) (argument : Text) : Except UsageError Reading :=
  if reading.onlyPaths then reading.path argument
  else
    match argument with
    | ['-', '-'] => .ok { reading with onlyPaths := true }
    | '-' :: '-' :: name => reading.long name
    | ['-'] => reading.plain argument
    | '-' :: rest => reading.letters rest
    | _ => reading.plain argument

/-- The value of a parameter that cannot be repeated. -/
def value? (reading : Reading) (parameter : Parameter) : Option Text :=
  reading.values.lookup parameter

/-- What all the arguments ask for. -/
def finish (reading : Reading) : Except UsageError Arguments := do
  let reading ← reading.settle
  if .sourceMap ∈ reading.flags ∧ (reading.value? .outDir).isNone then throw .missingArgument
  return {
    paths := if reading.paths.isEmpty then [Path.ofString "."] else reading.paths
    workspace := ((reading.value? .workspace).map Path.mk).getD (Path.ofString ".")
    rtl := .rtl ∈ reading.flags
    globalPrefix := .globalPrefix ∈ reading.flags
    config := (reading.value? .config).map Path.mk
    outDir := (reading.value? .outDir).map Path.mk
    sourceMap := .sourceMap ∈ reading.flags
    ignore := (reading.values.filter (·.1 == .ignore)).map Prod.snd
    output := ((reading.value? .output).bind formatOfName?).getD .human
    verbosity := min 255 (reading.flags.count .verbose) }

end Reading

/-- What a list of arguments asks for. -/
def ofList? (arguments : List Text) : Except UsageError Arguments :=
  match arguments.foldlM Reading.step Reading.start with
  | .error error => .error error
  | .ok reading => reading.finish

end Arguments

end ClassHoist
