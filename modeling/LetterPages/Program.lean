import LetterPages.CommandLine
import LetterPages.Log.Filter
import LetterPages.Publication
import LetterPages.Settings.Text
import LetterPages.Storage.Disk

/-!
# The program

The program reads its arguments and its settings, checks the settings, and runs or previews a
publication on disk. Lines for the reader go to standard output; log entries that pass the filter
and the final report of a fault go to standard error. The exit code tells the severity of a fault.
-/

namespace LetterPages.Program

open CommandLine (Arguments Usage)

/-- What the program finds around it. -/
structure Host where
  environment : Environment
  current : Place
  programDir : Path
  tree : FileTree
  deriving Repr

/-- A line of standard error. -/
inductive Notice where
  | text (line : String)
  | json (object : List Char)
  | usage (u : Usage)
  deriving DecidableEq, Repr

structure Ending where
  exitCode : UInt32
  output : String
  notices : List Notice
  tree : FileTree
  deriving Repr

/-! ## Settings -/

def baseDir (programDir : Path) (a : Arguments) : Path :=
  a.baseDir.getD programDir

section

variable (wording : Settings.Wording) (env : Environment) (content : Path → Except Refusal Bytes)
  (a : Arguments)

/-- The settings of the file that the arguments name, changed by the arguments. -/
def settingsIn : Except Fault Settings := do
  let s ← match a.config with
    | none => Except.ok Settings.standard
    | some path => Settings.ofFileIn wording path env (content path)
  return a.changes.apply s

def checkedSettingsIn : Except Fault Settings := do
  let s ← settingsIn wording env content a
  s.check
  return s

def settings : Except Fault Settings :=
  settingsIn Settings.plainWording env content a

def checkedSettings : Except Fault Settings :=
  checkedSettingsIn Settings.plainWording env content a

end

/-! ## Work -/

def sayAll : List String → Job Unit
  | [] => return ()
  | line :: rest => do
    .say line
    sayAll rest

/-- What is done with settings that have been checked. -/
def work (base : Path) (a : Arguments) (s : Settings) : Job Unit := do
  .note .info .program
    (s!"Base directory {base.shown}, input {s.inputPath.shown}, " ++
      s!"chunk size {s.chunkSize.toNat}")
  if a.dryRun then
    sayAll (Publication.preview s (← Publication.plan base s a.monitor))
  else
    let receipt ← Publication.run base s a.monitor
    .note .info .program ("Metadata saved to " ++ receipt.metadataPath.shown)

def opening (a : Arguments) : Job Unit := do
  .note .info .program "Starting letters-chunker"
  .note .debug .program ("CLI config: " ++ a.shown)

/-- The whole job, given the settings or the fault that stands in their place. -/
def job (base : Path) (a : Arguments) (s : Except Fault Settings) : Job Unit := do
  opening a
  work base a (← .ofExcept s)

/-! ## Log -/

def filterVariable : List Char :=
  "RUST_LOG".toList

/-- The filter that the environment gives, or one that the arguments choose. -/
def filter (env : Environment) (a : Arguments) : Log.Filter :=
  match env.text? filterVariable >>= Log.Filter.parse? with
  | some f => f
  | none => if a.verbose ∧ ¬ a.jsonLogs then .verbose else .standard

def entryNotice (a : Arguments) (e : Log.Entry) : Notice :=
  if a.jsonLogs then .json e.json else .text e.text

/-- The notice of an entry, if the filter lets it pass. -/
def notice? (f : Log.Filter) (a : Arguments) (e : Log.Entry) : Option Notice :=
  if f.passes e then some (entryNotice a e) else none

/-- The entry that a fault ends the log with. -/
def faultEntry (f : Fault) : Log.Entry :=
  ⟨.error, .program,
    s!"❌ Run failed: {f.message} (Category: {f.category.name}, Severity: {f.severity.name})"⟩

/-- The last two lines after a fault. -/
def report (f : Fault) : List Notice :=
  [.text ("❌ " ++ f.report), .text ("💡 " ++ f.suggestion)]

def faultNotices (filter : Log.Filter) (a : Arguments) (f : Fault) : List Notice :=
  (notice? filter a (faultEntry f)).toList ++ report f

/-! ## Runs -/

def text (lines : List String) : String :=
  String.join (lines.map (· ++ "\n"))

/-- The ending of a run whose arguments were understood. -/
def conclude (filter : Log.Filter) (a : Arguments) (r : Job.Run FileTree Unit) : Ending :=
  let notices := r.entries.filterMap (notice? filter a)
  match r.outcome with
  | .ok () => ⟨0, text r.lines, notices, r.store⟩
  | .error f => ⟨f.exitCode, text r.lines, notices ++ faultNotices filter a f, r.store⟩

def runWith (a : Arguments) (host : Host) : Ending :=
  let base := baseDir host.programDir a
  let content := fun path => host.tree.read host.current path
  let s := checkedSettings host.environment content a
  conclude (filter host.environment a) a
    ((job base a s).run (.disk host.current base) host.tree)

/-- Arguments that are not understood end the program before anything else. -/
def refuse (usage : Usage) (tree : FileTree) : Ending :=
  if usage = .help then ⟨0, CommandLine.help, [], tree⟩
  else ⟨2, "", [.usage usage], tree⟩

def run (arguments : List Bytes) (host : Host) : Ending :=
  match CommandLine.parse arguments with
  | .error usage => refuse usage host.tree
  | .ok a => runWith a host

end LetterPages.Program
