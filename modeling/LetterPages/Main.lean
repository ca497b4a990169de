import LetterPages.Program

/-!
# The command line

The program on the real file system: calls are made, lines printed and notices shown as they come.
-/

namespace LetterPages.Main

open CommandLine (Arguments)

def refusalOf (e : IO.Error) : Refusal :=
  match e with
  | .noFileOrDirectory .. => .noSuchFile
  | .alreadyExists .. => .alreadyExists
  | e => .other (toString e)

def attempt {α : Type} (action : IO α) : IO (Except Refusal α) := do
  match ← action.toBaseIO with
  | .ok a => return .ok a
  | .error e => return .error (refusalOf e)

def readFile (p : Path) : IO (Except Refusal Bytes) :=
  attempt do return (← IO.FS.readBinFile p.shown).toList

def writeFile (p : Path) (content : Bytes) : IO (Except Refusal Unit) :=
  attempt (IO.FS.writeBinFile p.shown ⟨content.toArray⟩)

def display : Program.Notice → IO Unit
  | .text line => IO.eprintln line
  | .json object => IO.eprintln (String.ofList object)
  | .usage usage => IO.eprintln usage.message

def note (filter : Log.Filter) (a : Arguments) (e : Log.Entry) : IO Unit :=
  (Program.notice? filter a e).forM display

/-- The entries that announce a call. -/
def announce (base : Path) (shown : Log.Entry → IO Unit) (c : Call) : IO Unit :=
  (Disk.notes base c).forM shown

/-- A job on the real file system. -/
def perform (base : Path) (shown : Log.Entry → IO Unit) : Job Unit → IO (Except Fault Unit)
  | .done _ => return .ok ()
  | .failed f => return .error f
  | .read p next => do
    announce base shown (.read p)
    match ← readFile (base.join p) with
    | .ok content => perform base shown (next content)
    | .error reason => return .error ((Call.read p).fault base reason)
  | .makeDir p next => do
    match ← attempt (IO.FS.createDirAll (base.join p).shown) with
    | .ok _ => perform base shown next
    | .error reason => return .error ((Call.makeDir p).fault base reason)
  | .write p content next => do
    announce base shown (.write p content)
    match ← writeFile (base.join p) content with
    | .ok _ => perform base shown next
    | .error reason => return .error ((Call.write p content).fault base reason)
  | .print line next => do
    IO.println line
    perform base shown next
  | .log e next => do
    shown e
    perform base shown next

/-- The variables that a text and the log filter refer to. -/
def environmentFor (text : List Char) : IO Environment := do
  let names := Program.filterVariable :: Environment.references text
  let bindings ← names.filterMapM fun name => do
    let name := String.ofList name
    return (← IO.getEnv name).map fun value => (name, Utf8.ofString value)
  return ⟨bindings⟩

def programDir : IO Path := do
  return .ofString (((← IO.appPath).parent.map toString).getD "")

def runWith (a : Arguments) : IO UInt32 := do
  let content ← match a.config with
    | some path => readFile path
    | none => pure (.ok [])
  let text := (content.toOption.bind Utf8.decode?).getD []
  let env ← environmentFor text
  let filter := Program.filter env a
  let base := Program.baseDir (← programDir) a
  let s := Program.checkedSettings env (fun _ => content) a
  match ← perform base (note filter a) (Program.job base a s) with
  | .ok _ => return 0
  | .error f =>
    (Program.faultNotices filter a f).forM display
    return f.exitCode

end LetterPages.Main

def main (args : List String) : IO UInt32 := do
  match LetterPages.CommandLine.parse (args.map LetterPages.Utf8.ofString) with
  | .ok a => LetterPages.Main.runWith a
  | .error .help =>
    IO.print LetterPages.CommandLine.help
    return 0
  | .error usage =>
    LetterPages.Main.display (.usage usage)
    return 2
