import LetterPages.Log
import LetterPages.Log.Directive

/-!
# Log filters

A filter is a list of directives parted by commas. The most specific directive that concerns an
entry decides about it: the one with the longest target, of these one that asks for the message, and
of equal ones the last. An entry that no directive concerns does not pass.
-/

namespace LetterPages.Log

abbrev Filter := List Directive

/-- Entries lie in no span, and have one field, which is their message. -/
def Directive.concerns (d : Directive) (o : Origin) : Bool :=
  d.target.isPrefixOf o.target.toList && d.span.isNone &&
    d.field.all fun f => f.name == "message".toList && !f.hasValue

/-- How specific a directive is. -/
def Directive.weight (d : Directive) : Nat :=
  2 * d.target.length + (if d.field.isSome then 1 else 0)

namespace Filter

def splitCommas : List Char → List (List Char)
  | [] => [[]]
  | c :: r =>
    if c = ',' then [] :: splitCommas r
    else match splitCommas r with
      | [] => [[c]]
      | part :: rest => (c :: part) :: rest

def upTo (target : List Char) (level : Level) : Directive :=
  ⟨target, none, none, level.rank⟩

/-- The filter that a text describes. Without directives only errors pass. -/
def parse? (s : List Char) : Option Filter :=
  let parts := (splitCommas s).filter (· ≠ [])
  if parts = [] then some [upTo [] .error] else parts.mapM Directive.ofText?

def standard : Filter :=
  [upTo "letters_chunker".toList .info]

def verbose : Filter :=
  [upTo "letters_chunker".toList .debug, upTo [] .info]

/-- The directive that decides about an origin. -/
def deciding (f : Filter) (o : Origin) : Option Directive :=
  (f.filter fun d => d.concerns o).foldl (fun best d =>
    match best with
    | none => some d
    | some b => if b.weight ≤ d.weight then some d else some b) none

def passes (f : Filter) (e : Entry) : Bool :=
  (f.deciding e.origin).any fun d => e.level.rank ≤ d.threshold

end Filter

end LetterPages.Log
