import LetterPages.Decimal.Natural
import LetterPages.Log.Pattern
import LetterPages.Text.Alphanumeric

/-!
# Directives of a log filter

A directive gives a threshold to entries. It may name a target that their origin must begin with
and, in brackets, a span they must lie in and a field they must have. Blanks around a directive are
passed over when it is taken apart, but not when its parts are cut out: they come from the same
places of the directive as it stands, so that after leading blanks all parts are shifted.
-/

namespace LetterPages.Log

/-- A field that is asked for by name, and perhaps by value. -/
structure FieldTest where
  name : List Char
  hasValue : Bool
  deriving DecidableEq, Repr

/-- A threshold is the rank of the last level that passes; nothing passes at zero. A target without
characters is the beginning of every target. -/
structure Directive where
  target : List Char
  span : Option (List Char)
  field : Option FieldTest
  threshold : Nat
  deriving DecidableEq, Repr

def FieldTest.ofText? (s : List Char) : Option FieldTest :=
  let name := s.takeWhile (· ≠ '=')
  match s.dropWhile (· ≠ '=') with
  | [] => some ⟨name, false⟩
  | _ :: r =>
    let value := r.takeWhile (· ≠ '=')
    if isNumber value || Pattern.isWellFormed value then some ⟨name, true⟩ else none

namespace Directive

def levelNames : List (List Char × Nat) :=
  [("off".toList, 0), ("error".toList, 1), ("warn".toList, 2), ("info".toList, 3),
    ("debug".toList, 4), ("trace".toList, 5)]

/-- The name of a level in any case, or its rank. -/
def threshold? (s : List Char) : Option Nat :=
  match Decimal.natural? s with
  | some n => if n ≤ 5 then some n else none
  | none => levelNames.lookup (s.map Char.toLower)

def everything : Nat :=
  5

/-- The threshold after an equals sign, which may be left out. -/
def level? (s : List Char) : Option Nat :=
  if s = [] then some everything else threshold? s

def isBlank (c : Char) : Bool :=
  c == ' ' || ('\t' ≤ c && c ≤ '\r') || c == '\u0085' || c == '\u00A0' || c == '\u1680' ||
    ('\u2000' ≤ c && c ≤ '\u200A') || c == '\u2028' || c == '\u2029' || c == '\u202F' ||
    c == '\u205F' || c == '\u3000'

def trim (s : List Char) : List Char :=
  ((s.dropWhile isBlank).reverse.dropWhile isBlank).reverse

/-- A directive begins with a bracket, a letter, a digit or one of three marks. -/
def isStart (c : Char) : Bool :=
  Text.isAlphanumeric c || c == '-' || c == ':' || c == '_'

/-! ## Parts

Each takes the rest of the directive as it stands and the rest of the trimmed one. -/

/-- What follows a closing bracket. -/
def afterBracket? (s t : List Char) : Option Nat :=
  match t with
  | [] => some everything
  | '=' :: _ => level? (s.drop 1)
  | _ => none

/-- A field between braces and the bracket that closes after it. -/
def field? (s t : List Char) : Option (FieldTest × List Char × List Char) :=
  let n := (t.takeWhile (· ≠ '\x7d')).length
  match t.drop n with
  | '\x7d' :: ']' :: r =>
    if n = 0 then none else (FieldTest.ofText? (s.take n)).map fun f => (f, s.drop (n + 2), r)
  | _ => none

def isSpanEnd (c : Char) : Bool :=
  c == ']' || c == '\x7b'

/-- What follows an opening bracket: the name of a span, a field, or both. -/
def bracketed? (target s t : List Char) : Option Directive :=
  let n := (t.takeWhile (!isSpanEnd ·)).length
  match t.drop n with
  | ']' :: r => (afterBracket? (s.drop (n + 1)) r).map fun l => ⟨target, some (s.take n), none, l⟩
  | '\x7b' :: r => do
    let (f, s', r) ← field? (s.drop (n + 1)) r
    let l ← afterBracket? s' r
    some ⟨target, if n = 0 then none else some (s.take n), some f, l⟩
  | _ => none

def isTargetEnd (c : Char) : Bool :=
  c == '=' || c == '['

def ofText? (s : List Char) : Option Directive :=
  let t := trim s
  let n := (t.takeWhile (!isTargetEnd ·)).length
  if n = 0 then
    match t with
    | '[' :: r => bracketed? [] (s.drop 1) r
    | _ => none
  else if t.head?.any isStart then
    match t.drop n with
    | '[' :: r => bracketed? (s.take n) (s.drop (n + 1)) r
    | '=' :: _ => (level? (s.drop (n + 1))).map fun l => ⟨s.take n, none, none, l⟩
    | _ => some ((threshold? s).elim ⟨s, none, none, everything⟩ fun l => ⟨[], none, none, l⟩)
  else none

end Directive

end LetterPages.Log
