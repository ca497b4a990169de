import LetterPages.Storage

/-!
# Storage in memory

Files are kept under the text shown for their path, and directories are not kept at all. A call can
be set up to fail: then it is refused with a given text and changes nothing.
-/

namespace LetterPages

inductive Verb where
  | read
  | makeDir
  | write
  deriving DecidableEq, Repr

structure Memory where
  files : List (String × Bytes)
  failures : List ((Verb × String) × String)
  deriving DecidableEq, Repr

namespace Memory

def empty : Memory :=
  ⟨[], []⟩

def get? (m : Memory) (key : String) : Option Bytes :=
  m.files.lookup key

/-- Files with one more, or with other content for a file they hold. -/
def replace (key : String) (content : Bytes) : List (String × Bytes) → List (String × Bytes)
  | [] => [(key, content)]
  | f :: rest => if f.1 = key then (key, content) :: rest else f :: replace key content rest

def put (m : Memory) (key : String) (content : Bytes) : Memory :=
  { m with files := replace key content m.files }

def erase (m : Memory) (key : String) : Memory :=
  { m with files := m.files.filter fun f => f.1 ≠ key }

def listing (m : Memory) : List (String × Bytes) :=
  m.files.mergeSort fun a b => decide (a.1 ≤ b.1)

def failing (m : Memory) (verb : Verb) (key text : String) : Memory :=
  { m with failures := ((verb, key), text) :: m.failures }

def healed (m : Memory) : Memory :=
  { m with failures := [] }

def refusal? (m : Memory) (verb : Verb) (path : Path) : Option Refusal :=
  (m.failures.lookup (verb, path.shown)).map .other

def read (path : Path) (m : Memory) : Except Refusal Bytes :=
  match m.refusal? .read path with
  | some reason => .error reason
  | none =>
    match m.get? path.shown with
    | some content => .ok content
    | none => .error .noSuchFile

def makeDir (path : Path) (m : Memory) : Memory × Option Refusal :=
  (m, m.refusal? .makeDir path)

def write (path : Path) (content : Bytes) (m : Memory) : Memory × Option Refusal :=
  match m.refusal? .write path with
  | some reason => (m, some reason)
  | none => (m.put path.shown content, none)

end Memory

def Storage.memory (base : Path) : Storage Memory where
  base := base
  read := Memory.read
  makeDir := Memory.makeDir
  write := Memory.write
  notes _ := []

end LetterPages
