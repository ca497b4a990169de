import LetterPages.Fault

/-!
# Checks of single settings

A path must not be empty or hold a NUL, a number must reach its minimum, a choice must be among
those offered. The first check that fails is the fault.
-/

namespace LetterPages.Check

/-- A NUL shown as a backslash and a zero. -/
def visibleNul (s : String) : String :=
  String.ofList (s.toList.flatMap fun c => if c = '\x00' then ['\\', '0'] else [c])

/-- Emptiness and NUL are looked for in the text shown for the path. -/
def path (field : String) (p : Path) : Except Fault Unit :=
  if p.shown = "" then .error (.invalidValue field p.shown "Path cannot be empty")
  else if '\x00' ∈ p.shown.toList then
    .error (.invalidValue field (visibleNul p.shown) "Path contains null bytes")
  else .ok ()

def atLeast (field : String) (value min : Nat) : Except Fault Unit :=
  if value < min then
    .error (.invalidValue field (toString value) s!"Value must be at least {min}")
  else .ok ()

def oneOf (field value : String) (allowed : List String) : Except Fault Unit :=
  if value ∈ allowed then .ok ()
  else .error (.invalidValue field value ("Supported values: " ++ ", ".intercalate allowed))

end LetterPages.Check
