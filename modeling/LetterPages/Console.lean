/-!
# Console lines

The lines for the person at the console, in English and Norwegian. A line is a wording with slots;
each slot is filled once with the text given for it. A locale stands for the first language found
by dropping its last part again and again, and for English when none is found.
-/

namespace LetterPages

inductive Language where
  | english
  | norwegian
  deriving DecidableEq, Repr

namespace Language

def tag : Language → String
  | english => "en"
  | norwegian => "nb"

def all : List Language :=
  [english, norwegian]

def known? (tag : List Char) : Option Language :=
  all.find? fun l => l.tag.toList = tag

/-- A tag without its last part, when it has more than one. -/
def withoutLast? (tag : List Char) : Option (List Char) :=
  match tag.reverse.dropWhile (· != '-') with
  | [] => none
  | _ :: shorter => some shorter.reverse

theorem length_lt_of_withoutLast? {tag shorter : List Char}
    (h : withoutLast? tag = some shorter) : shorter.length < tag.length := by
  unfold withoutLast? at h
  split at h
  · cases h
  · rename_i dash rest hrest
    cases h
    have hle : (tag.reverse.dropWhile (· != '-')).length ≤ tag.reverse.length :=
      (List.dropWhile_sublist _).length_le
    rw [hrest] at hle
    simp only [List.length_cons, List.length_reverse] at hle ⊢
    omega

def ofTag (tag : List Char) : Language :=
  match known? tag with
  | some l => l
  | none =>
    match _h : withoutLast? tag with
    | some shorter => ofTag shorter
    | none => english
termination_by tag.length
decreasing_by exact length_lt_of_withoutLast? (by assumption)

def ofLocale (locale : String) : Language :=
  ofTag locale.toList

end Language

namespace Console

inductive Slot where
  | file
  | count
  | total
  | chunks
  deriving DecidableEq, Repr

inductive Part where
  | words (text : String)
  | slot (s : Slot)
  deriving DecidableEq, Repr

/-- A wording with every slot filled; what fills a slot is not looked into again. -/
def fill (value : Slot → String) (wording : List Part) : String :=
  String.join (wording.map fun
    | .words text => text
    | .slot s => value s)

def wroteWording : Language → List Part
  | .english => [.words "Wrote ", .slot .file, .words " with ", .slot .count, .words " letters"]
  | .norwegian => [.words "Lagret ", .slot .file, .words " med ", .slot .count, .words " brev"]

def wouldWriteWording : Language → List Part
  | .english =>
    [.words "Would write ", .slot .file, .words " with ", .slot .count, .words " letters"]
  | .norwegian =>
    [.words "Ville lagret ", .slot .file, .words " med ", .slot .count, .words " brev"]

def totalWording : Language → List Part
  | .english =>
    [.words "Total: ", .slot .total, .words " letters split into ", .slot .chunks, .words " files"]
  | .norwegian =>
    [.words "Totalt: ", .slot .total, .words " brev delt i ", .slot .chunks, .words " filer"]

def fileCount (file : String) (count : Nat) : Slot → String
  | .file => file
  | .count => toString count
  | _ => ""

def totals (total chunks : Nat) : Slot → String
  | .total => toString total
  | .chunks => toString chunks
  | _ => ""

def wrote (locale file : String) (count : Nat) : String :=
  fill (fileCount file count) (wroteWording (.ofLocale locale))

def wouldWrite (locale file : String) (count : Nat) : String :=
  fill (fileCount file count) (wouldWriteWording (.ofLocale locale))

def total (locale : String) (letters chunks : Nat) : String :=
  fill (totals letters chunks) (totalWording (.ofLocale locale))

end Console

end LetterPages
