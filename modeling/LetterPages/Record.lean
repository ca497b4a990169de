/-!
# Letter records

A record is one letter: field names with values, in column order. A dataset is what one input
holds: the column names and the records.
-/

namespace LetterPages

structure Record where
  fields : List (String × String)
  deriving DecidableEq, Repr

namespace Record

def names (r : Record) : List String :=
  r.fields.map Prod.fst

/-- The value of the first field with this name. -/
def get? (r : Record) (name : String) : Option String :=
  r.fields.lookup name

end Record

structure Dataset where
  fields : List String
  records : List Record
  deriving DecidableEq, Repr

end LetterPages
