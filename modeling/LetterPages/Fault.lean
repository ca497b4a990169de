import LetterPages.Csv.Flaw
import LetterPages.Path
import LetterPages.Refusal

/-!
# Faults

What can end a run, each with what it needs to be explained. A fault has a message, a category, a
severity with an exit code, and a hint for the person at the console.
-/

namespace LetterPages

inductive Fault where
  | inputNotFound (path : Path)
  | inputUnreadable (path : Path) (reason : Refusal)
  | inputMalformed (path : Path) (flaw : Csv.Flaw)
  | outputDirectory (path : Path) (reason : Refusal)
  | outputWrite (path : Path) (reason : Refusal)
  | serialization (text : String)
  | invalidValue (field value reason : String)
  | configurationUnreadable (path : Path) (reason : Refusal)
  | configurationMalformed (path : Path) (detail : String)
  deriving DecidableEq, Repr

inductive Category where
  | input
  | output
  | configuration
  | internal
  deriving DecidableEq, Repr

inductive Severity where
  | medium
  | high
  | critical
  deriving DecidableEq, Repr

namespace Category

def name : Category → String
  | input => "Input"
  | output => "Output"
  | configuration => "Configuration"
  | internal => "Internal"

def severity : Category → Severity
  | configuration => .medium
  | input => .high
  | output => .critical
  | internal => .critical

/-- How a report to the person at the console begins. -/
def opening : Category → String
  | input => "Could not load letters: "
  | output => "Could not write chunks: "
  | configuration => "Invalid configuration: "
  | internal => "Internal error: "

end Category

namespace Severity

def name : Severity → String
  | medium => "Medium"
  | high => "High"
  | critical => "Critical"

def exitCode : Severity → UInt32
  | medium => 2
  | high => 1
  | critical => 3

end Severity

namespace Fault

def message : Fault → String
  | inputNotFound path => "Input file not found: " ++ path.shown
  | inputUnreadable path reason => "Cannot read input file " ++ path.shown ++ ": " ++ reason.text
  | inputMalformed path flaw => "Malformed CSV in " ++ path.shown ++ ": " ++ flaw.message
  | outputDirectory path reason =>
    "Cannot create output directory " ++ path.shown ++ ": " ++ reason.text
  | outputWrite path reason => "Cannot write output file " ++ path.shown ++ ": " ++ reason.text
  | serialization text => "Serialization error: " ++ text
  | invalidValue field value reason =>
    "Invalid value for " ++ field ++ " (" ++ value ++ "): " ++ reason
  | configurationUnreadable path reason =>
    "Cannot load configuration " ++ path.shown ++ ": " ++ reason.text
  | configurationMalformed path detail =>
    "Cannot load configuration " ++ path.shown ++ ": " ++ ("TOML parsing error: " ++ detail)

def category : Fault → Category
  | inputNotFound .. => .input
  | inputUnreadable .. => .input
  | inputMalformed .. => .input
  | outputDirectory .. => .output
  | outputWrite .. => .output
  | serialization .. => .internal
  | invalidValue .. => .configuration
  | configurationUnreadable .. => .configuration
  | configurationMalformed .. => .configuration

def severity (f : Fault) : Severity :=
  f.category.severity

def exitCode (f : Fault) : UInt32 :=
  f.severity.exitCode

/-- What the person at the console can do about it. -/
def suggestion : Fault → String
  | inputNotFound .. =>
    "Check --input-path and --base-dir; relative paths resolve against the base directory"
  | inputUnreadable .. => "Check the file permissions of the input CSV"
  | inputMalformed _ flaw =>
    match flaw.line? with
    | some line =>
      s!"Fix the CSV near line {line}; every row needs as many columns as the header"
    | none => "Make sure the input is UTF-8 CSV with a header row"
  | outputDirectory .. => "Check that the output location is writable and not an existing file"
  | outputWrite .. =>
    "Check free disk space and write permissions; files written before the failure are kept"
  | serialization .. => "Report this as a bug"
  | invalidValue field _ _ => "Correct the value of '" ++ field ++ "'"
  | configurationUnreadable .. => "Make sure the file exists and is valid TOML"
  | configurationMalformed .. => "Make sure the file exists and is valid TOML"

def report (f : Fault) : String :=
  f.category.opening ++ f.message

/-- The same fault of a configuration, found at `path`. -/
def configuredAt (path : Path) : Fault → Fault
  | configurationUnreadable _ reason => configurationUnreadable path reason
  | configurationMalformed _ detail => configurationMalformed path detail
  | f => f

end Fault

end LetterPages
