/-!
# Problems of a TOML text

A text is refused at the first line that holds no statement, or else at the first statement whose
key has no place among those before it, or else at the first name whose value cannot be used.
-/

namespace LetterPages.Toml

inductive Problem where
  | unread (line : Nat)
  | clash (names : List String)
  | misfit (name : String)
  deriving DecidableEq, Repr

def Problem.message : Problem → String
  | unread line => s!"line {line} holds no statement"
  | clash names => "no place for key `" ++ ".".intercalate names ++ "`"
  | misfit name => "invalid value under `" ++ name ++ "`"

end LetterPages.Toml
