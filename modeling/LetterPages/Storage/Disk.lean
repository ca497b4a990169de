import LetterPages.Storage
import LetterPages.Storage.FileTree

/-!
# Storage on disk

Files lie in a file tree. Paths are joined onto the base, which is itself read from the current
directory. Reading and writing are noted with the full path.
-/

namespace LetterPages

namespace Disk

/-- What is noted of a call before it is made. -/
def notes (base : Path) : Call → List Log.Entry
  | .read p => [⟨.debug, .commandLine, "Reading " ++ (base.join p).shown⟩]
  | .makeDir _ => []
  | .write p content =>
    [⟨.debug, .commandLine, s!"Writing {content.length} bytes to {(base.join p).shown}"⟩]

def write (current : Place) (p : Path) (content : Bytes) (t : FileTree) :
    FileTree × Option Refusal :=
  match t.write current p content with
  | .ok t => (t, none)
  | .error reason => (t, some reason)

end Disk

def Storage.disk (current : Place) (base : Path) : Storage FileTree where
  base := base
  read p t := t.read current (base.join p)
  makeDir p t := t.makeDir current (base.join p)
  write p content t := Disk.write current (base.join p) content t
  notes := Disk.notes base

end LetterPages
