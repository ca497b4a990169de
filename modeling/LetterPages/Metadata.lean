/-!
# Metadata

The description that goes with the chunk files: how many letters there are, how many chunks hold
them, the chunk size asked for, and the field names. Its numbers are 64-bit words.
-/

namespace LetterPages

structure Metadata where
  totalLetters : UInt64
  chunks : UInt64
  chunkSize : UInt64
  fields : List String
  deriving DecidableEq, Repr

end LetterPages
