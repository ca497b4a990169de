import LetterPages.Json.Layout

/-!
# Log entries

What happens is noted in entries with a level and an origin. An entry is shown as a line of text, in
which characters that could steer a terminal are escaped, or as a JSON object.
-/

namespace LetterPages.Log

inductive Level where
  | error
  | warn
  | info
  | debug
  | trace
  deriving DecidableEq, Repr

/-- The part of the program that an entry comes from. -/
inductive Origin where
  | program
  | commandLine
  | loader
  | pipeline
  | engine
  | writer
  | monitor
  deriving DecidableEq, Repr

structure Entry where
  level : Level
  origin : Origin
  message : String
  deriving DecidableEq, Repr

namespace Level

def name : Level → String
  | error => "ERROR"
  | warn => "WARN"
  | info => "INFO"
  | debug => "DEBUG"
  | trace => "TRACE"

/-- How much is shown when entries up to this level are. -/
def rank : Level → Nat
  | error => 1
  | warn => 2
  | info => 3
  | debug => 4
  | trace => 5

end Level

/-- The name under which a filter knows an origin. -/
def Origin.target : Origin → String
  | program => "letters_chunker"
  | commandLine => "letters_chunker::config::cli"
  | loader => "letters_chunker::core::loader"
  | pipeline => "letters_chunker::core::pipeline"
  | engine => "letters_chunker::core::etl"
  | writer => "letters_chunker::core::writer"
  | monitor => "letters_chunker::utils::monitor"

/-- The controls that could steer a terminal. -/
def isSteering (c : Char) : Bool :=
  c == '\x1b' || c == '\x07' || c == '\x08' || c == '\x0c' || c == '\x7f' ||
    (0x80 ≤ c.toNat && c.toNat ≤ 0x9F)

def escaped (c : Char) : List Char :=
  if !isSteering c then [c]
  else if c.toNat < 0x80 then
    ['\\', 'x', Nat.digitChar (c.toNat / 16), Nat.digitChar (c.toNat % 16)]
  else ['\\', 'u', '\x7b'] ++ Nat.toDigits 16 c.toNat ++ ['\x7d']

namespace Entry

/-- The level's name, right-aligned to five places. -/
def label (e : Entry) : String :=
  String.ofList (List.replicate (5 - e.level.name.length) ' ') ++ e.level.name

def text (e : Entry) : String :=
  e.label ++ " " ++ String.ofList (e.message.toList.flatMap escaped)

def json (e : Entry) : List Char :=
  let compact := Json.Layout.compact
  compact.object [
    ("level", Json.quoted e.level.name.toList),
    ("fields", compact.object [("message", Json.quoted e.message.toList)])]

end Entry

end LetterPages.Log
