import LetterPages.Fault
import LetterPages.Log

/-!
# Storages

A storage holds files in a store of its own kind and answers three calls: read a file, make a
directory with all above it, write a file. It lies at a base, against which faults resolve paths.
-/

namespace LetterPages

inductive Call where
  | read (path : Path)
  | makeDir (path : Path)
  | write (path : Path) (content : Bytes)
  deriving DecidableEq, Repr

namespace Call

def path : Call → Path
  | read p => p
  | makeDir p => p
  | write p _ => p

/-- The fault that a refused call amounts to. -/
def fault (base : Path) (reason : Refusal) : Call → Fault
  | read p =>
    if reason = .noSuchFile then .inputNotFound (base.join p)
    else .inputUnreadable (base.join p) reason
  | makeDir p => .outputDirectory (base.join p) reason
  | write p _ => .outputWrite (base.join p) reason

end Call

/-- What can be observed of a run, in order. -/
inductive Event where
  | called (c : Call)
  | printed (line : String)
  | logged (e : Log.Entry)
  deriving DecidableEq, Repr

namespace Event

def call? : Event → Option Call
  | called c => some c
  | _ => none

def line? : Event → Option String
  | printed line => some line
  | _ => none

def entry? : Event → Option Log.Entry
  | logged e => some e
  | _ => none

end Event

/-- A refused call may have changed the store before it was refused. -/
structure Storage (σ : Type) where
  base : Path
  read : Path → σ → Except Refusal Bytes
  makeDir : Path → σ → σ × Option Refusal
  write : Path → Bytes → σ → σ × Option Refusal
  notes : Call → List Log.Entry

namespace Storage

def announce {σ : Type} (storage : Storage σ) (c : Call) : List Event :=
  .called c :: (storage.notes c).map .logged

end Storage

end LetterPages
