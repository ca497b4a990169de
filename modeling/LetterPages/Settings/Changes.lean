import LetterPages.Settings

/-!
# Changes of settings

Each setting may be given a new value or left as it is.
-/

namespace LetterPages.Settings

structure Changes where
  inputPath : Option Path
  outputDir : Option Path
  metadataPath : Option Path
  chunkSize : Option UInt64
  locale : Option String
  deriving DecidableEq, Repr

namespace Changes

def none : Changes :=
  ⟨.none, .none, .none, .none, .none⟩

def apply (c : Changes) (s : Settings) : Settings where
  inputPath := c.inputPath.getD s.inputPath
  outputDir := c.outputDir.getD s.outputDir
  metadataPath := c.metadataPath.getD s.metadataPath
  chunkSize := c.chunkSize.getD s.chunkSize
  locale := c.locale.getD s.locale

end Changes

end LetterPages.Settings
