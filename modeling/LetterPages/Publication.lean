import LetterPages.Csv.Table
import LetterPages.Job
import LetterPages.Json.Document
import LetterPages.Settings

/-!
# Publishing letters

A run reads the letters, plans the chunks, and writes first every chunk file in order and then the
metadata, so that published metadata never names a chunk that has not been written. Planning alone
writes nothing.
-/

namespace LetterPages.Publication

/-- What a run has written. -/
structure Receipt where
  chunkFiles : List Path
  metadataPath : Path
  metadata : Metadata
  deriving DecidableEq, Repr

/-! ## Reading and planning -/

def ofFlaw {α : Type} (source : Path) : Except Csv.Flaw α → Job α
  | .ok a => .done a
  | .error flaw => .failed (.inputMalformed source flaw)

/-- The dataset of a CSV text that faults and log entries call by `source`. -/
def parse (source : Path) (input : Bytes) : Job Dataset := do
  let rows := Csv.rows input
  let names ← ofFlaw source (Csv.header rows)
  if Csv.hasRepeats names then
    .note .warn .loader
      s!"{source.shown} has repeated header names; later columns overwrite earlier ones"
  let data ← ofFlaw source (Csv.dataset names rows)
  .note .debug .loader
    s!"Parsed {data.records.length} records with {data.fields.length} fields from {source.shown}"
  return data

def readLetters (base : Path) (s : Settings) : Job Dataset := do
  .note .debug .pipeline s!"Loading letters from {s.inputPath.shown}"
  let input ← .fetch s.inputPath
  parse (base.join s.inputPath) input

def paginate (s : Settings) (data : Dataset) : Job Plan := do
  let plan ← .ofExcept (Plan.ofDataset data s.chunkSize)
  let m := plan.metadata
  .note .debug .pipeline
    (s!"Split {m.totalLetters.toNat} letters into {m.chunks.toNat} chunks " ++
      s!"of up to {m.chunkSize.toNat}")
  return plan

/-! ## Writing -/

def chunkPath (dir : Path) (c : Chunk) : Path :=
  dir.join (.ofString c.fileName)

def writeChunk (dir : Path) (locale : String) (c : Chunk) : Job Path := do
  let path := chunkPath dir c
  let content := c.encode
  .store path content
  .note .debug .writer s!"Chunk {c.index} encoded to {content.length} bytes"
  .say (Console.wrote locale path.shown c.size)
  return path

def writeEach (dir : Path) (locale : String) : List Chunk → Job (List Path)
  | [] => return []
  | c :: rest => do
    let path ← writeChunk dir locale c
    let more ← writeEach dir locale rest
    return path :: more

/-- Write the chunk files into a directory, which is made first. -/
def writeChunks (dir : Path) (locale : String) (chunks : List Chunk) : Job (List Path) := do
  .prepareDir dir
  writeEach dir locale chunks

/-- The directory that must stand before a file is written, unless it is the base itself. -/
def neededDir? (path : Path) : Option Path :=
  path.parent?.filter fun dir => !dir.bytes.isEmpty

def writeMetadata (path : Path) (m : Metadata) : Job Unit := do
  match neededDir? path with
  | some dir => .prepareDir dir
  | none => pure ()
  let content := m.encode
  .note .debug .writer s!"Writing metadata ({content.length} bytes) to {path.shown}"
  .store path content

/-- Write a plan: its chunks, then its metadata, then a summary for the console. -/
def publish (s : Settings) (plan : Plan) : Job Receipt := do
  let chunkFiles ← writeChunks s.outputDir s.locale plan.chunks
  writeMetadata s.metadataPath plan.metadata
  .say ""
  .say (Console.total s.locale plan.metadata.totalLetters.toNat plan.metadata.chunks.toNat)
  return ⟨chunkFiles, s.metadataPath, plan.metadata⟩

/-! ## Whole runs -/

/-- The end of a stage, noted when the run is monitored. -/
def milestone (isMonitored : Bool) (stage : String) : Job Unit :=
  if isMonitored then .note .info .monitor ("📊 " ++ stage) else pure ()

def plan (base : Path) (s : Settings) (isMonitored : Bool) : Job Plan := do
  .note .info .engine "Loading letters..."
  let data ← readLetters base s
  .note .info .engine
    s!"Loaded {data.records.length} letters with {data.fields.length} fields"
  milestone isMonitored "Load"
  .note .info .engine "Chunking letters..."
  let plan ← paginate s data
  .note .info .engine s!"Prepared {plan.chunks.length} chunks"
  milestone isMonitored "Chunk"
  return plan

def run (base : Path) (s : Settings) (isMonitored : Bool) : Job Receipt := do
  let plan ← plan base s isMonitored
  .note .info .engine "Writing chunks..."
  let receipt ← publish s plan
  .note .info .engine
    s!"Wrote {receipt.chunkFiles.length} chunk files and {receipt.metadataPath.shown}"
  milestone isMonitored "Write"
  milestone isMonitored "Final Stats"
  return receipt

/-- The lines that tell what a run would write: one for each chunk, and the metadata. -/
def preview (s : Settings) (plan : Plan) : List String :=
  plan.chunks.map (fun c =>
    Console.wouldWrite s.locale (chunkPath s.outputDir c).shown c.size) ++
    [String.ofList (plan.metadata.json .spaced)]

end LetterPages.Publication
