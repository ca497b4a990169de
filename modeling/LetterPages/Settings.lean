import LetterPages.Check
import LetterPages.Console

/-!
# Settings

Where the input lies, where the chunk files and the metadata go, how many letters a chunk holds, and
the language of the console lines.
-/

namespace LetterPages

structure Settings where
  inputPath : Path
  outputDir : Path
  metadataPath : Path
  chunkSize : UInt64
  locale : String
  deriving DecidableEq, Repr

namespace Settings

def standard : Settings where
  inputPath := .ofString "_data/letters.csv"
  outputDir := .ofString "data/chunks"
  metadataPath := .ofString "data/metadata.json"
  chunkSize := 1000
  locale := "en"

def locales : List String :=
  Language.all.map Language.tag

/-- The first setting that cannot be used is the fault. -/
def check (s : Settings) : Except Fault Unit := do
  Check.path "input_path" s.inputPath
  Check.path "output_dir" s.outputDir
  Check.path "metadata_path" s.metadataPath
  Check.atLeast "chunk_size" s.chunkSize.toNat 1
  Check.oneOf "locale" s.locale locales

end Settings

end LetterPages
