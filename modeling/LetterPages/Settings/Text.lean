import LetterPages.Environment
import LetterPages.Settings
import LetterPages.Toml.Tables

/-!
# Settings from a text

A settings text is a TOML table with a section for the input, the chunks, the output and the
console. References to variables are replaced before it is read. What it leaves out keeps its
standard value, and names it does not need are passed over. The values of a section may also be
given as an array, in order.
-/

namespace LetterPages.Settings

open Toml (Node Entries)

/-- A name with what its value does to the settings. -/
abbrev Member := String × (Node → Settings → Option Settings)

def textOf? : Node → Option String
  | .scalar (.string text) => some text
  | _ => none

/-- A whole number that fits a 64-bit word. -/
def sizeOf? : Node → Option UInt64
  | .scalar (.integer (some n)) =>
    if 0 ≤ n ∧ n.toNat < UInt64.size then some (UInt64.ofNat n.toNat) else none
  | _ => none

def pathOf? (n : Node) : Option Path :=
  (textOf? n).map .ofString

/-- Settings after each entry of a table. -/
def visit (members : List Member) (t : Entries) (s : Settings) : Option Settings :=
  t.foldlM (fun s e =>
    match members.lookup e.1 with
    | some set => set e.2 s
    | none => if e.2.isWithinRange then some s else none) s

/-- Settings after the items of an array, which stand for the members in order. -/
def visitItems (members : List Member) (items : List Node) (s : Settings) : Option Settings :=
  (members.zip items).foldlM (fun s m => m.1.2 m.2 s) s

/-- A section is a table or an array of values. A date or time in its place sets nothing. -/
def visitSection (members : List Member) (n : Node) (s : Settings) : Option Settings :=
  match n with
  | .table _ t => visit members t s
  | .array items => visitItems members items s
  | .scalar .moment => some s
  | _ => none

def source : List Member :=
  [("input_path", fun n s => (pathOf? n).map fun p => { s with inputPath := p })]

def chunking : List Member :=
  [("chunk_size", fun n s => (sizeOf? n).map fun size => { s with chunkSize := size })]

def load : List Member :=
  [("output_dir", fun n s => (pathOf? n).map fun p => { s with outputDir := p }),
    ("metadata_path", fun n s => (pathOf? n).map fun p => { s with metadataPath := p })]

def output : List Member :=
  [("locale", fun n s => (textOf? n).map fun text => { s with locale := text })]

def sections : List Member :=
  [("source", visitSection source), ("chunking", visitSection chunking),
    ("load", visitSection load), ("output", visitSection output)]

/-- The first name in a table whose node does not fit. -/
def misfit (members : List Member) (t : Entries) : String :=
  ((t.find? fun e => (visit members [e] standard).isNone).map Prod.fst).getD ""

/-- The settings of a text without references. -/
def ofToml (text : List Char) : Except Toml.Problem Settings := do
  let t ← Toml.parse text
  match visit sections t standard with
  | some s => .ok s
  | none => .error (.misfit (misfit sections t))

/-! ## Faults of a text -/

/-- How the problem of a text is put into words. -/
abbrev Wording :=
  List Char → Toml.Problem → String

/-- The settings of a text, which a fault calls by `path` and explains in the given wording. -/
def ofTextIn (wording : Wording) (path : Path) (env : Environment) (text : List Char) :
    Except Fault Settings :=
  (ofToml (env.expand text)).mapError fun p =>
    .configurationMalformed path (wording (env.expand text) p)

/-- What faults call a text that is no file. -/
def inlinePath : Path :=
  .ofString "<inline>"

/-- The settings of the file at `path`, given what reading it gave. -/
def ofFileIn (wording : Wording) (path : Path) (env : Environment)
    (content : Except Refusal Bytes) : Except Fault Settings :=
  match content with
  | .error reason => .error (.configurationUnreadable path reason)
  | .ok content =>
    match Utf8.decode? content with
    | none => .error (.configurationUnreadable path .notUtf8)
    | some text => (ofTextIn wording inlinePath env text).mapError (·.configuredAt path)

/-- A wording that looks at the problem only. -/
def plainWording : Wording :=
  fun _ p => p.message

def ofText : Path → Environment → List Char → Except Fault Settings :=
  ofTextIn plainWording

def ofFile : Path → Environment → Except Refusal Bytes → Except Fault Settings :=
  ofFileIn plainWording

end LetterPages.Settings
