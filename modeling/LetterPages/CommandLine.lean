import LetterPages.Decimal.Natural
import LetterPages.Settings.Changes
import LetterPages.Text.Quoted

/-!
# Command lines

The arguments set options, some of which take a value. A value is attached to its option or follows
it as the next argument; one that follows is looked at when the next option is met or the arguments
end. The first problem met ends the reading.
-/

namespace LetterPages.CommandLine

inductive Switch where
  | dryRun
  | monitor
  | jsonLogs
  | verbose
  deriving DecidableEq, Repr

/-- Options that take a value. -/
inductive Setting where
  | baseDir
  | config
  | inputPath
  | outputDir
  | metadataPath
  | chunkSize
  | locale
  deriving DecidableEq, Repr

inductive Flag where
  | switch (s : Switch)
  | setting (s : Setting)
  | help
  deriving DecidableEq, Repr

/-- Why the arguments are not acted on. -/
inductive Usage where
  | unknownArgument
  | invalidValue
  | valueValidation
  | repeated
  | tooManyValues
  | invalidUtf8
  | help
  deriving DecidableEq, Repr

def Usage.message : Usage → String
  | unknownArgument => "error: unexpected argument"
  | invalidValue => "error: a value is required"
  | valueValidation => "error: invalid value for '--chunk-size <CHUNK_SIZE>'"
  | repeated => "error: an argument cannot be used multiple times"
  | tooManyValues => "error: unexpected value for an argument"
  | invalidUtf8 => "error: invalid UTF-8 was detected in one or more arguments"
  | help => "help"

structure Arguments where
  baseDir : Option Path
  config : Option Path
  changes : Settings.Changes
  dryRun : Bool
  monitor : Bool
  jsonLogs : Bool
  verbose : Bool
  deriving DecidableEq, Repr

def Arguments.none : Arguments where
  baseDir := .none
  config := .none
  changes := .none
  dryRun := false
  monitor := false
  jsonLogs := false
  verbose := false

/-! ## Values -/

/-- A value for an option that may be given once. -/
def once {α β : Type} (old : Option α) (value : Except Usage β) : Except Usage β :=
  if old.isSome then .error .repeated else value

def pathValue (value : Bytes) : Except Usage Path :=
  if value = [] then .error .invalidValue else .ok ⟨value⟩

def textValue (value : Bytes) : Except Usage String :=
  match Utf8.decode? value with
  | some text => .ok (String.ofList text)
  | none => .error .invalidUtf8

def sizeValue (value : Bytes) : Except Usage UInt64 :=
  match Utf8.decode? value with
  | none => .error .invalidUtf8
  | some text =>
    match Decimal.natural? text with
    | some n => if n < UInt64.size then .ok (UInt64.ofNat n) else .error .valueValidation
    | none => .error .valueValidation

namespace Arguments

def change (a : Arguments) (changes : Settings.Changes) : Arguments :=
  { a with changes := changes }

def set (a : Arguments) (s : Setting) (value : Bytes) : Except Usage Arguments :=
  let c := a.changes
  match s with
  | .baseDir => (once a.baseDir (pathValue value)).map fun p => { a with baseDir := some p }
  | .config => (once a.config (pathValue value)).map fun p => { a with config := some p }
  | .inputPath =>
    (once c.inputPath (pathValue value)).map fun p => a.change { c with inputPath := some p }
  | .outputDir =>
    (once c.outputDir (pathValue value)).map fun p => a.change { c with outputDir := some p }
  | .metadataPath =>
    (once c.metadataPath (pathValue value)).map fun p => a.change { c with metadataPath := some p }
  | .chunkSize =>
    (once c.chunkSize (sizeValue value)).map fun n => a.change { c with chunkSize := some n }
  | .locale =>
    (once c.locale (textValue value)).map fun t => a.change { c with locale := some t }

def has (a : Arguments) : Switch → Bool
  | .dryRun => a.dryRun
  | .monitor => a.monitor
  | .jsonLogs => a.jsonLogs
  | .verbose => a.verbose

def turnOn (a : Arguments) (s : Switch) : Except Usage Arguments :=
  if a.has s then .error .repeated
  else match s with
    | .dryRun => .ok { a with dryRun := true }
    | .monitor => .ok { a with monitor := true }
    | .jsonLogs => .ok { a with jsonLogs := true }
    | .verbose => .ok { a with verbose := true }

end Arguments

/-! ## Reading -/

def longFlags : List (String × Flag) :=
  [("base-dir", .setting .baseDir), ("config", .setting .config),
    ("input-path", .setting .inputPath), ("output-dir", .setting .outputDir),
    ("metadata-path", .setting .metadataPath), ("chunk-size", .setting .chunkSize),
    ("locale", .setting .locale), ("dry-run", .switch .dryRun), ("monitor", .switch .monitor),
    ("json-logs", .switch .jsonLogs), ("verbose", .switch .verbose), ("help", .help)]

def longFlag? (name : Bytes) : Option Flag :=
  (longFlags.find? fun f => Utf8.ofString f.1 = name).map Prod.snd

def shortFlag? (letter : UInt8) : Option Flag :=
  if letter = 0x63 then some (.setting .config)
  else if letter = 0x76 then some (.switch .verbose)
  else if letter = 0x68 then some .help
  else none

/-- The arguments read so far, and an option whose value, if any, has still to be looked at. -/
structure Reading where
  arguments : Arguments
  pending : Option (Setting × Option Bytes)
  deriving DecidableEq, Repr

namespace Reading

def start : Reading :=
  ⟨.none, none⟩

def settle (r : Reading) : Except Usage Arguments :=
  match r.pending with
  | none => .ok r.arguments
  | some (_, none) => .error .invalidValue
  | some (s, some value) => r.arguments.set s value

def settled (a : Arguments) : Reading :=
  ⟨a, none⟩

def turnOn (r : Reading) (s : Switch) : Except Usage Reading := do
  return settled (← (← r.settle).turnOn s)

def setNow (r : Reading) (s : Setting) (value : Bytes) : Except Usage Reading := do
  return settled (← (← r.settle).set s value)

def await (r : Reading) (s : Setting) : Except Usage Reading := do
  return ⟨← r.settle, some (s, none)⟩

def askHelp (r : Reading) : Except Usage Reading := do
  let _ ← r.settle
  .error .help

def equals : UInt8 :=
  0x3D

def dash : UInt8 :=
  0x2D

/-- A long option, its two dashes dropped. -/
def long (r : Reading) (body : Bytes) : Except Usage Reading :=
  match longFlag? (body.takeWhile (· ≠ equals)), body.dropWhile (· ≠ equals) with
  | none, _ => .error .unknownArgument
  | some (.setting s), [] => r.await s
  | some (.setting s), _ :: value => r.setNow s value
  | some (.switch s), [] => r.turnOn s
  | some .help, [] => r.askHelp
  | some _, _ :: _ => .error .tooManyValues

/-- A value attached to a short option, after an equals sign or not. -/
def attached (rest : Bytes) : Bytes :=
  match rest with
  | b :: value => if b = equals then value else b :: value
  | [] => []

/-- Short options that stand together; the first that takes a value takes all that follows. -/
def short (r : Reading) : Bytes → Except Usage Reading
  | [] => .ok r
  | letter :: rest =>
    match shortFlag? letter with
    | none => .error .unknownArgument
    | some (.switch s) => do short (← r.turnOn s) rest
    | some (.setting s) => if rest = [] then r.await s else r.setNow s (attached rest)
    | some .help => r.askHelp

/-- An argument that is no option: the value that is waited for, or one too many. -/
def plain (r : Reading) (value : Bytes) : Except Usage Reading :=
  match r.pending with
  | some (s, none) => .ok { r with pending := some (s, some value) }
  | _ => .error .unknownArgument

def next (r : Reading) (argument : Bytes) : Except Usage Reading :=
  match argument with
  | [] => r.plain []
  | [b] => r.plain [b]
  | a :: b :: rest =>
    if a = dash then
      if b = dash then r.long rest else r.short (b :: rest)
    else r.plain (a :: b :: rest)

/-- The arguments after two dashes alone would have to be operands, which are not taken. -/
def read (r : Reading) : List Bytes → Except Usage Arguments
  | [] => r.settle
  | argument :: rest =>
    if argument = [dash, dash] then
      if rest = [] then r.settle else .error .unknownArgument
    else do read (← r.next argument) rest

end Reading

def parse (arguments : List Bytes) : Except Usage Arguments :=
  Reading.start.read arguments

def help : String :=
  "Split a letters CSV into paginated JSON chunks plus a metadata file\n\n" ++
  "Usage: letters-chunker [OPTIONS]\n\n" ++
  "Options:\n" ++
  "      --base-dir <BASE_DIR>            Directory relative paths resolve against " ++
  "[default: the executable's directory, which is target/debug or target/release under " ++
  "cargo run]\n" ++
  "  -c, --config <CONFIG>                TOML configuration file; " ++
  "explicit flags override its values\n" ++
  "      --input-path <INPUT_PATH>        Source CSV [default: _data/letters.csv]\n" ++
  "      --output-dir <OUTPUT_DIR>        Directory for letters-chunk-NN.json files " ++
  "[default: data/chunks]\n" ++
  "      --metadata-path <METADATA_PATH>  Metadata file [default: data/metadata.json]\n" ++
  "      --chunk-size <CHUNK_SIZE>        Letters per chunk file [default: 1000]\n" ++
  "      --locale <LOCALE>                Language of console messages (en, nb) [default: en]\n" ++
  "      --dry-run                        Load and chunk, print the plan, write nothing\n" ++
  "      --monitor                        Log CPU and memory usage after each stage\n" ++
  "      --json-logs                      Emit logs as JSON lines\n" ++
  "  -v, --verbose                        Enable verbose output\n" ++
  "  -h, --help                           Print help\n"

/-! ## Showing -/

namespace Arguments

def optional {α : Type} (render : α → String) : Option α → String
  | .none => "None"
  | .some a => "Some(" ++ render a ++ ")"

def pathText (p : Path) : String :=
  Text.quotedBytes p.bytes

def shown (a : Arguments) : String :=
  let c := a.changes
  "CliConfig \x7b " ++ ", ".intercalate [
    "base_dir: " ++ optional pathText a.baseDir,
    "config: " ++ optional pathText a.config,
    "input_path: " ++ optional pathText c.inputPath,
    "output_dir: " ++ optional pathText c.outputDir,
    "metadata_path: " ++ optional pathText c.metadataPath,
    "chunk_size: " ++ optional (fun n => toString n.toNat) c.chunkSize,
    "locale: " ++ optional Text.quoted c.locale,
    "dry_run: " ++ toString a.dryRun,
    "monitor: " ++ toString a.monitor,
    "json_logs: " ++ toString a.jsonLogs,
    "verbose: " ++ toString a.verbose] ++ " \x7d"

end Arguments

end LetterPages.CommandLine
