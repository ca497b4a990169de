import LetterPages.Json.Quoted

/-!
# JSON on one line

Arrays and objects are written on one line. A layout says what stands between items and after a
member's name: nothing more than the comma and the colon, or a space after each.
-/

namespace LetterPages.Json

structure Layout where
  comma : List Char
  colon : List Char
  deriving DecidableEq, Repr

def Layout.compact : Layout :=
  ⟨[','], [':']⟩

def Layout.spaced : Layout :=
  ⟨[',', ' '], [':', ' ']⟩

def separated (separator : List Char) : List (List Char) → List Char
  | [] => []
  | [item] => item
  | item :: rest => item ++ separator ++ separated separator rest

namespace Layout

def array (layout : Layout) (items : List (List Char)) : List Char :=
  '[' :: separated layout.comma items ++ [']']

def member (layout : Layout) (name : String) (value : List Char) : List Char :=
  quoted name.toList ++ layout.colon ++ value

def object (layout : Layout) (members : List (String × List Char)) : List Char :=
  '{' :: separated layout.comma (members.map fun m => layout.member m.1 m.2) ++ ['}']

def strings (layout : Layout) (values : List String) : List Char :=
  layout.array (values.map fun v => quoted v.toList)

end Layout

end LetterPages.Json
