import LetterPages.Toml.Problem
import LetterPages.Toml.Statements

/-!
# TOML tables

The statements of a text build one table of names with nodes. A table remembers how it came about,
because that decides who may still add to it: pairs with longer keys add only to tables that such
keys have begun, headers fill in a table once and add to tables below others, and an inline table is
finished where it stands.
-/

namespace LetterPages.Toml

/-- How a table came about: by its own header or as an item of an array of tables, on the way of a
header, on the way of a pair's key, or as an inline table. -/
inductive Origin where
  | headed
  | implied
  | dotted
  | inline
  deriving DecidableEq, Repr

inductive Node where
  | scalar (s : Scalar)
  | array (items : List Node)
  | tables (items : List (List (String × Node)))
  | table (origin : Origin) (entries : List (String × Node))
  deriving Repr

abbrev Entries := List (String × Node)

namespace Entries

def add (name : String) (node : Node) (t : Entries) : Option Entries :=
  match t.lookup name with
  | none => some (t ++ [(name, node)])
  | some _ => none

/-- The table with another node for a name it has. -/
def set (name : String) (node : Node) (t : Entries) : Entries :=
  t.map fun e => if e.1 = name then (name, node) else e

/-- Work on the last table of an array of tables. -/
def onLast (work : Entries → Option Entries) : List Entries → Option (List Entries)
  | [] => none
  | [t] => (work t).map fun t => [t]
  | t :: ts => (onLast work ts).map (t :: ·)

/-- Put a node under a key. The table that the path ends in must have been begun by such keys. -/
def put (name : String) (node : Node) : List String → Entries → Option Entries
  | [], t => t.add name node
  | step :: path, t =>
    match t.lookup step with
    | none => (put name node path []).map fun u => t ++ [(step, .table .dotted u)]
    | some (.table .dotted u) =>
      (put name node path u).map fun u => t.set step (.table .dotted u)
    | some (.table .implied u) =>
      if path = [] then none
      else (put name node path u).map fun u => t.set step (.table .implied u)
    | some (.tables us) =>
      if path = [] then none
      else (onLast (put name node path) us).map fun us => t.set step (.tables us)
    | some _ => none

/-- Work on the table at the end of a header's path. -/
def descend (work : Entries → Option Entries) : List String → Entries → Option Entries
  | [], t => work t
  | step :: path, t =>
    match t.lookup step with
    | none => (descend work path []).map fun u => t ++ [(step, .table .implied u)]
    | some (.table .inline _) => none
    | some (.table origin u) =>
      (descend work path u).map fun u => t.set step (.table origin u)
    | some (.tables us) =>
      (onLast (descend work path) us).map fun us => t.set step (.tables us)
    | some _ => none

end Entries

/-! ## Values as nodes -/

mutual

/-- The node of a value. An inline table must not name anything twice. -/
def Value.node : Value → Option Node
  | .scalar s => some (.scalar s)
  | .array items => (nodes items).map .array
  | .table pairs => (putAll [] pairs).map (.table .inline)

def nodes : List Value → Option (List Node)
  | [] => some []
  | v :: rest =>
    match v.node, nodes rest with
    | some n, some ns => some (n :: ns)
    | _, _ => none

def putAll (t : Entries) : List (Key × Value) → Option Entries
  | [] => some t
  | (k, v) :: rest =>
    match v.node with
    | none => none
    | some n =>
      match Entries.put k.name n k.path t with
      | none => none
      | some t => putAll t rest

end

/-! ## The whole text -/

/-- Fill in the table of a header, which must not have been filled in before. -/
def open? (name : String) (pairs : List (Key × Value)) (t : Entries) : Option Entries :=
  match t.lookup name with
  | none => (putAll [] pairs).map fun u => t ++ [(name, .table .headed u)]
  | some (.table .implied u) => (putAll u pairs).map fun u => t.set name (.table .headed u)
  | some _ => none

/-- Add a table to an array of tables. -/
def push? (name : String) (pairs : List (Key × Value)) (t : Entries) : Option Entries :=
  match t.lookup name with
  | none => (putAll [] pairs).map fun u => t ++ [(name, .tables [u])]
  | some (.tables us) => (putAll [] pairs).map fun u => t.set name (.tables (us ++ [u]))
  | some _ => none

def Section.apply (s : Section) (t : Entries) : Option Entries :=
  if s.isArray then Entries.descend (push? s.key.name s.pairs) s.key.path t
  else Entries.descend (open? s.key.name s.pairs) s.key.path t

def Outline.root (o : Outline) : Option Entries := do
  o.sections.foldlM (fun t s => s.apply t) (← putAll [] o.pairs)

def Key.names (k : Key) : List String :=
  k.path ++ [k.name]

def Statement.key : Statement → Key
  | .pair k _ => k
  | .header k => k
  | .arrayHeader k => k

/-- The names of the first key that the statements before it leave no place for. -/
def clash (before : List Statement) : List Statement → List String
  | [] => []
  | a :: rest =>
    if (Outline.ofStatements (before ++ [a])).root.isNone then a.key.names
    else clash (before ++ [a]) rest

/-- The line of a text on which a rest of it begins. -/
def lineOf (text rest : List Char) : Nat :=
  text.count '\n' - rest.count '\n' + 1

def parse (text : List Char) : Except Problem Entries :=
  match statements (withoutMark text) with
  | .error rest => .error (.unread (lineOf text rest))
  | .ok l =>
    match (Outline.ofStatements l).root with
    | none => .error (.clash (clash [] l))
    | some t => .ok t

/-! ## Range -/

/-- Whole numbers that have a value and fit 128 bits, with sign if negative, and fractions within
range. -/
def Scalar.isWithinRange : Scalar → Bool
  | integer none => false
  | integer (some n) =>
    decide (-170141183460469231731687303715884105728 ≤ n) &&
      decide (n < 340282366920938463463374607431768211456)
  | fraction isWithinRange => isWithinRange
  | _ => true

mutual

def Node.isWithinRange : Node → Bool
  | .scalar s => s.isWithinRange
  | .array items => areWithinRange items
  | .tables items => tablesAreWithinRange items
  | .table _ entries => entriesAreWithinRange entries

def areWithinRange : List Node → Bool
  | [] => true
  | n :: rest => n.isWithinRange && areWithinRange rest

def tablesAreWithinRange : List (List (String × Node)) → Bool
  | [] => true
  | t :: rest => entriesAreWithinRange t && tablesAreWithinRange rest

def entriesAreWithinRange : List (String × Node) → Bool
  | [] => true
  | (_, n) :: rest => n.isWithinRange && entriesAreWithinRange rest

end

end LetterPages.Toml
