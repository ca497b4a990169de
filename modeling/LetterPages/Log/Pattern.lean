/-!
# Patterns of field values

A directive may ask for the value of a field by a number or by a pattern. No entry has a field with
such a value, so of a pattern it only matters that it is well formed: groups and classes are closed,
escapes are known, and a repetition has something to repeat.
-/

namespace LetterPages.Log

/-- Where the reading of a pattern stands: before an item, which tells whether there is one to
repeat, at the beginning of a group, in a name, after a backslash, or in a class, whose first item
may be a closing bracket. -/
inductive Pattern.Mode where
  | item (repeatable : Bool)
  | opened
  | options
  | nameMark
  | name
  | escape
  | classStart
  | classFirst
  | classItem
  | classEscape
  deriving DecidableEq, Repr

structure Pattern where
  groups : Nat
  classes : Nat
  mode : Pattern.Mode
  deriving DecidableEq, Repr

namespace Pattern

def start : Pattern :=
  ⟨0, 0, .item false⟩

def isEscapable (c : Char) : Bool :=
  if c.isAlphanum then "dDsSwWatfnrvAzxuUpP".toList.contains c
  else '!' ≤ c && c ≤ '~' && c != '<' && c != '>'

def isOption (c : Char) : Bool :=
  "imsUuxR-".toList.contains c

def closeGroup (p : Pattern) (repeatable : Bool) : Option Pattern :=
  if p.groups = 0 then none
  else some { p with groups := p.groups - 1, mode := .item repeatable }

def closeClass (p : Pattern) : Pattern :=
  { p with
    classes := p.classes - 1
    mode := if p.classes = 1 then .item true else .classItem }

def item (p : Pattern) (repeatable : Bool) (c : Char) : Option Pattern :=
  match c with
  | '\\' => some { p with mode := .escape }
  | '[' => some { p with classes := 1, mode := .classStart }
  | '(' => some { p with groups := p.groups + 1, mode := .opened }
  | ')' => p.closeGroup true
  | '|' => some { p with mode := .item false }
  | '*' => if repeatable then some p else none
  | '+' => if repeatable then some p else none
  | '?' => if repeatable then some p else none
  | '\x7b' => none
  | _ => some { p with mode := .item true }

def inClass (p : Pattern) (c : Char) : Pattern :=
  match c with
  | '\\' => { p with mode := .classEscape }
  | '[' => { p with classes := p.classes + 1, mode := .classStart }
  | _ => { p with mode := .classItem }

/-- The reading after one more character. -/
def next (p : Pattern) (c : Char) : Option Pattern :=
  match p.mode with
  | .item repeatable => p.item repeatable c
  | .opened => if c = '?' then some { p with mode := .options } else p.item false c
  | .options =>
    if c = ':' then some { p with mode := .item false }
    else if c = ')' then p.closeGroup false
    else if c = 'P' then some { p with mode := .nameMark }
    else if c = '<' then some { p with mode := .name }
    else if isOption c then some p
    else none
  | .nameMark => if c = '<' then some { p with mode := .name } else none
  | .name =>
    if c = '>' then some { p with mode := .item false }
    else if c.isAlphanum || c == '_' then some p
    else none
  | .escape => if isEscapable c then some { p with mode := .item true } else none
  | .classStart =>
    some (if c = '^' then { p with mode := .classFirst } else p.inClass c)
  | .classFirst => some (p.inClass c)
  | .classItem => some (if c = ']' then p.closeClass else p.inClass c)
  | .classEscape => if isEscapable c then some { p with mode := .classItem } else none

def isComplete (p : Pattern) : Bool :=
  match p.mode with
  | .item _ => p.groups == 0
  | _ => false

def isWellFormed (s : List Char) : Bool :=
  (s.foldlM next start).any isComplete

end Pattern

/-! ## Numbers -/

def isDigits (s : List Char) : Bool :=
  s != [] && s.all Char.isDigit

def isExponent (s : List Char) : Bool :=
  match s with
  | [] => true
  | c :: '+' :: r => (c == 'e' || c == 'E') && isDigits r
  | c :: '-' :: r => (c == 'e' || c == 'E') && isDigits r
  | c :: r => (c == 'e' || c == 'E') && isDigits r

/-- Digits with at most one point among or around them, and perhaps an exponent. -/
def isDecimal (s : List Char) : Bool :=
  let whole := s.takeWhile Char.isDigit
  match s.dropWhile Char.isDigit with
  | '.' :: r => (whole != [] || r.head?.any Char.isDigit) && isExponent (r.dropWhile Char.isDigit)
  | r => whole != [] && isExponent r

def isNumber (s : List Char) : Bool :=
  let size := match s with
    | '+' :: r => r
    | '-' :: r => r
    | r => r
  isDecimal size ||
    ["inf".toList, "infinity".toList, "nan".toList].contains (size.map Char.toLower)

end LetterPages.Log
