import LetterPages.Path
import LetterPages.Refusal

/-!
# File trees

A tree of directories and files below a root that is always a directory. A place is the list of
names that leads from the root to it. A path is walked component by component from the root or from
a current directory; every place on the way must be a directory.
-/

namespace LetterPages

abbrev Place := List Bytes

inductive FileTree.Entry where
  | directory
  | file (content : Bytes)
  deriving DecidableEq, Repr

structure FileTree where
  entries : List (Place × FileTree.Entry)
  deriving DecidableEq, Repr

namespace FileTree

def empty : FileTree :=
  ⟨[]⟩

def find? (t : FileTree) (place : Place) : Option Entry :=
  if place = [] then some .directory else t.entries.lookup place

def isDirectory (t : FileTree) (place : Place) : Bool :=
  t.find? place == some .directory

/-- Entries with one more, or with another entry at a place they hold. -/
def replace (place : Place) (e : Entry) : List (Place × Entry) → List (Place × Entry)
  | [] => [(place, e)]
  | x :: rest => if x.1 = place then (place, e) :: rest else x :: replace place e rest

def put (t : FileTree) (place : Place) (e : Entry) : FileTree :=
  ⟨replace place e t.entries⟩

/-- The relative path of an entry below a place. -/
def relative? (place : Place) (x : Place × Entry) : Option (Path × Entry) :=
  if place.isPrefixOf x.1 ∧ place.length < x.1.length then
    some (⟨Path.unsegment (x.1.drop place.length)⟩, x.2)
  else none

/-- Everything below a place, in the order of the relative paths. -/
def below (t : FileTree) (place : Place) : List (Path × Entry) :=
  (t.entries.filterMap (relative? place)).mergeSort fun a b => decide (a.1.bytes ≤ b.1.bytes)

/-! ## Walking -/

def dotDot : Bytes :=
  [Path.dot, Path.dot]

def longestName : Nat :=
  255

/-- The length that a path must stay below. -/
def pathLimit : Nat :=
  4096

/-- A segment that stands for the directory it is met in. -/
def isHere (s : Bytes) : Bool :=
  s == [] || s == [Path.dot]

def step (t : FileTree) (place : Place) (name : Bytes) : Except Refusal Place :=
  if !t.isDirectory place then .error .notADirectory
  else if isHere name then .ok place
  else if name = dotDot then .ok place.dropLast
  else if longestName < name.length then .error .nameTooLong
  else if (t.find? (place ++ [name])).isSome then .ok (place ++ [name])
  else .error .noSuchFile

def walk (t : FileTree) (start : Place) (names : List Bytes) : Except Refusal Place :=
  names.foldlM t.step start

def startOf (current : Place) (p : Path) : Place :=
  if p.isAbsolute then [] else current

def checkPath (p : Path) : Except Refusal Unit :=
  if 0 ∈ p.bytes then .error .nulInName
  else if p.bytes = [] then .error .noSuchFile
  else if pathLimit ≤ p.bytes.length then .error .nameTooLong
  else .ok ()

def locate (t : FileTree) (current : Place) (p : Path) : Except Refusal Place := do
  checkPath p
  t.walk (startOf current p) (Path.segments p.bytes)

def isDirectoryAt (t : FileTree) (current : Place) (p : Path) : Bool :=
  match t.locate current p with
  | .ok place => t.isDirectory place
  | .error _ => false

/-- The last component of a path with the segments before it; slashes after it do not count. -/
def lastComponent? (p : Path) : Option (List Bytes × Bytes) :=
  match (Path.segments p.bytes).reverse.dropWhile (· == []) with
  | [] => none
  | name :: before => some (before.reverse, name)

/-- A place that does not have to exist: its directory, its name, and whether slashes follow. -/
structure Target where
  parent : Place
  name : Bytes
  isSlashed : Bool
  deriving DecidableEq, Repr

def Target.place (target : Target) : Place :=
  target.parent ++ [target.name]

/-- The target that a path names. Paths that end at the root or in dots name none. -/
def target? (t : FileTree) (current : Place) (p : Path) : Except Refusal (Option Target) := do
  checkPath p
  match lastComponent? p with
  | none => return none
  | some (before, name) =>
    let parent ← t.walk (startOf current p) before
    if !t.isDirectory parent then .error .notADirectory
    else if isHere name || name == dotDot then return none
    else return some ⟨parent, name, p.bytes.getLast? == some Path.slash⟩

/-! ## Reading, writing, making directories -/

def read (t : FileTree) (current : Place) (p : Path) : Except Refusal Bytes := do
  let place ← t.locate current p
  match t.find? place with
  | some (.file content) => .ok content
  | some .directory => .error .isADirectory
  | none => .error .noSuchFile

/-- The tree with a file written. A directory is never overwritten. -/
def write (t : FileTree) (current : Place) (p : Path) (content : Bytes) :
    Except Refusal FileTree := do
  match ← t.target? current p with
  | none => .error .isADirectory
  | some target =>
    if target.isSlashed then .error .isADirectory
    else if longestName < target.name.length then .error .nameTooLong
    else if t.isDirectory target.place then .error .isADirectory
    else return t.put target.place (.file content)

/-- The tree with one more directory, in a directory that is there. -/
def addDirectory (t : FileTree) (current : Place) (p : Path) : Except Refusal FileTree := do
  match ← t.target? current p with
  | none => .error .alreadyExists
  | some target =>
    if longestName < target.name.length then .error .nameTooLong
    else if (t.find? target.place).isSome then .error .alreadyExists
    else return t.put target.place .directory

/-- A directory that may be there already. -/
def ensureDirectory (t : FileTree) (current : Place) (p : Path) : FileTree × Option Refusal :=
  match t.addDirectory current p with
  | .ok t => (t, none)
  | .error reason => if t.isDirectoryAt current p then (t, none) else (t, some reason)

/-- A directory with all that is missing above it. What has been made before a refusal stays. -/
def makeDir (t : FileTree) (current : Place) (p : Path) : FileTree × Option Refusal :=
  if p.bytes = [] then (t, none)
  else match t.addDirectory current p with
    | .ok t => (t, none)
    | .error .noSuchFile =>
      match _h : p.parent? with
      | none => (t, some .noSuchFile)
      | some parent =>
        match makeDir t current parent with
        | (t, some reason) => (t, some reason)
        | (t, none) => t.ensureDirectory current p
    | .error _ => t.ensureDirectory current p
termination_by p.bytes.length
decreasing_by exact Path.length_lt_of_parent? _h

end FileTree

end LetterPages
