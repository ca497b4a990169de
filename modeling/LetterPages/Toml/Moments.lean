import LetterPages.Toml.Numbers

/-!
# TOML dates and times

A date, a time, or both joined by a `T` or a blank and then perhaps followed by an offset. Dates
must exist in the calendar; a time goes up to a leap second and may leave its seconds out.
-/

namespace LetterPages.Toml

/-- The number that two digits at the front spell. -/
def twoDigits (s : List Char) : Option (Nat × List Char) :=
  match s with
  | a :: b :: r =>
    match digitBelow? 10 a, digitBelow? 10 b with
    | some a, some b => some (a * 10 + b, r)
    | _, _ => none
  | _ => none

def isLeapYear (year : Nat) : Bool :=
  year % 4 == 0 && (year % 100 != 0 || year % 400 == 0)

def daysIn (year month : Nat) : Nat :=
  if month = 2 then (if isLeapYear year then 29 else 28)
  else if month = 4 ∨ month = 6 ∨ month = 9 ∨ month = 11 then 30
  else 31

def afterDate? (s : List Char) : Option (List Char) :=
  match twoDigits s with
  | none => none
  | some (century, r) =>
    match twoDigits r with
    | some (year, '-' :: r) =>
      match twoDigits r with
      | some (month, '-' :: r) =>
        match twoDigits r with
        | some (day, rest) =>
          let year := century * 100 + year
          if 1 ≤ month ∧ month ≤ 12 ∧ 1 ≤ day ∧ day ≤ daysIn year month then some rest else none
        | none => none
      | _ => none
    | _ => none

def isDecimalDigit (c : Char) : Bool :=
  isDigitBelow 10 c

/-- What follows the parts of a second, when a point announces them. -/
def afterSecondParts? (s : List Char) : Option (List Char) :=
  match s with
  | '.' :: c :: r => if isDecimalDigit c then some (r.dropWhile isDecimalDigit) else none
  | '.' :: [] => none
  | r => some r

/-- What follows the seconds of a time, when a colon announces them. -/
def afterSeconds? (s : List Char) : Option (List Char) :=
  match s with
  | ':' :: r =>
    match twoDigits r with
    | some (second, r) => if second ≤ 60 then afterSecondParts? r else none
    | none => none
  | r => some r

def afterTime? (s : List Char) : Option (List Char) :=
  match twoDigits s with
  | some (hour, ':' :: r) =>
    match twoDigits r with
    | some (minute, r) => if hour ≤ 23 ∧ minute ≤ 59 then afterSeconds? r else none
    | none => none
  | _ => none

def isOffset (s : List Char) : Bool :=
  match s with
  | [] => true
  | ['Z'] => true
  | ['z'] => true
  | sign :: r =>
    match twoDigits r with
    | some (hours, ':' :: r) =>
      match twoDigits r with
      | some (minutes, []) =>
        (sign == '+' || sign == '-') && hours ≤ 23 && minutes ≤ 59
      | _ => false
    | _ => false

def isDate (s : List Char) : Bool :=
  afterDate? s == some []

def isJoint (c : Char) : Bool :=
  c == 'T' || c == 't' || c == ' '

def isMoment (s : List Char) : Bool :=
  match afterDate? s with
  | none => afterTime? s == some []
  | some [] => true
  | some (joint :: r) => isJoint joint && (afterTime? r).any isOffset

end LetterPages.Toml
