import LetterPages.Json.MetadataReader
import LetterPages.Json.RecordReader
import LetterPages.Main
import LetterPages.Proofs.Csv.Appending
import LetterPages.Proofs.Csv.Written
import LetterPages.Proofs.DryRun
import LetterPages.Proofs.Manifest
import LetterPages.Proofs.Reconstruction
import LetterPages.Proofs.RunFaults
import LetterPages.Session
import LetterPages.Proofs.ExitCodes
import LetterPages.Proofs.Rerun
import LetterPages.Proofs.KeptFiles
import LetterPages.Proofs.Overwriting
import LetterPages.Proofs.Substitution
import LetterPages.Proofs.Toml.Locality
import LetterPages.Proofs.Toml.StringLocality
import LetterPages.Proofs.Toml.StatementLocality
import LetterPages.Proofs.Toml.Places
import LetterPages.Proofs.Toml.Alterations
import LetterPages.Proofs.Toml.Members
import LetterPages.Proofs.EnvironmentValues
import LetterPages.Proofs.UniquePages
import LetterPages.Proofs.SameInput
import LetterPages.Proofs.MirroredFiles
import LetterPages.Proofs.WrittenSettings
import LetterPages.Proofs.Json.SpelledStrings
import LetterPages.Proofs.Json.SpelledRecords
import LetterPages.Proofs.References
import LetterPages.Proofs.Csv.RawRecords
import LetterPages.Proofs.Csv.FirstFlaw
import LetterPages.Proofs.Csv.RepeatedNames
import LetterPages.Proofs.Csv.HintedLines
import LetterPages.Proofs.Json.WrittenDocuments
import LetterPages.Proofs.Json.SpelledMetadata
import LetterPages.Proofs.ChunkPasses
import LetterPages.Proofs.ConsoleLines
import LetterPages.Proofs.Toml.DistinctNames
import LetterPages.Proofs.UsableSettings
import LetterPages.Proofs.LayeredSettings
import LetterPages.Proofs.SettingsProblems
