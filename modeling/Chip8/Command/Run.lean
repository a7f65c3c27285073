import Chip8.Command.Parser
import Chip8.Command.Report
import Chip8.Disk

/-!
# Carrying out commands

A command reads files, prints text and may write files. It first reads all it needs: when a file cannot
be read or makes no sense, nothing has been printed or written. The labels are written before the
report.
-/

namespace Chip8

/-- Why a command fails. -/
inductive Failure where
  | file (fault : FileFault)
  | load (fault : LoadFault)
  | walk (fault : Walk.Fault)
  /-- A file of labels does not hold a list of labels. -/
  | labels
  /-- A range ends before it starts. -/
  | range
  deriving DecidableEq, Repr

/-- What is said about a command that fails. -/
def Failure.message : Failure → String
  | file e => e.message
  | load e => e.message
  | walk e => e.message
  | labels => "not a JSON list of labels"
  | range => "end must be >= start"

/-- What a command leaves behind, apart from files. -/
structure Result where
  exitCode : UInt8
  output : String
  failure : Option Failure := none
  deriving DecidableEq, Repr

namespace ProgramFile

variable {m : Type → Type} [Monad m] [FileStore m]

/-- Reads a file. -/
def readFile (path : String) : ExceptT Failure m Bytes :=
  ExceptT.mk ((Except.mapError .file) <$> FileStore.read path)

/-- Writes a file. -/
def writeFile (path : String) (text : String) : ExceptT Failure m Unit :=
  ExceptT.mk ((Except.mapError .file) <$> FileStore.write path (Bytes.ofText text))

/-- Fails with the fault of a computation. -/
def orFail {ε α : Type} (failure : ε → Failure) (x : Except ε α) : ExceptT Failure m α :=
  ExceptT.mk (pure (x.mapError failure))

/-- Loads the program. -/
def image (file : ProgramFile) : ExceptT Failure m Image := do
  let bytes ← readFile file.path
  orFail .load (Image.load bytes file.cut file.base)

/-- Writes the text to a file if there is one, and else gives it back to be printed. -/
def deliver (out : Option String) (text : String) : ExceptT Failure m String := do
  match out with
  | some path => writeFile path text; return ""
  | none => return text

/-- Reads given labels. -/
def readLabels (path : String) : ExceptT Failure m (List Label) := do
  let bytes ← readFile path
  let document ← orFail (fun _ => .file .notText) (bytes.text?.elim (.error ()) .ok)
  orFail (fun _ => .labels) ((Label.read? document).elim (.error ()) .ok)

/-- Whether the file looks like a program. It is no failure if it does not. -/
def detect (file : ProgramFile) (limits : Probe.Limits) : ExceptT Failure m Result := do
  let bytes ← readFile file.path
  let program ← orFail (.load ∘ .cut) (file.cut.payload bytes)
  match Probe.check limits program with
  | .ok () => return ⟨0, file.path ++ ": CHIP-8\n", none⟩
  | .error why => return ⟨1, file.path ++ ": not CHIP-8 (" ++ why.message ++ ")\n", none⟩

/-- The end of the last segment of an image. -/
def lastStop (img : Image) : Nat := (img.segments.map Segment.stop).foldl max 0

/-- Lists a range. -/
def list (file : ProgramFile) (request : RangeRequest) : ExceptT Failure m String := do
  let img ← file.image
  let start := (request.start.getD img.entry).toNat
  let stop := request.stop.elim (lastStop img) UInt16.toNat
  if stop < start then throw .range
  deliver request.out (Report.lines (img.rangeLines request.showBytes start stop))

/-- The entries in ascending order, each once. -/
def seeds (img : Image) (entries : List Address) : List Address :=
  (AddressSet.ofList (if entries.isEmpty then [img.entry] else entries)).toList

/-- Walks the code and reports. -/
def analyze (file : ProgramFile) (request : AnalyzeRequest) : ExceptT Failure m String := do
  let img ← file.image
  let seeds := seeds img request.entries
  let analysis ← orFail .walk (img.analyze seeds request.budget)
  let graph := Graph.ofAnalysis analysis seeds
  let given ←
    match request.labelsIn with
    | some path => readLabels path
    | none => pure []
  let labels := LabelMap.build given img seeds analysis graph
  if let some path := request.labelsOut then
    writeFile path (Label.write labels.toLabels)
  let report : Report := ⟨img, seeds, analysis, graph, labels⟩
  deliver request.out <|
    match request.format with
    | .json => (report.toJson request.showBytes).pretty ++ "\n"
    | .text => report.text request.listing request.showBytes

end ProgramFile

/-- Carries out a command on a file. -/
def Command.execute {m : Type → Type} [Monad m] [FileStore m] (file : ProgramFile) :
    Command → ExceptT Failure m Result
  | opcodes => return ⟨0, Report.opcodes, none⟩
  | architecture => return ⟨0, Architecture.chip8.toJson.pretty ++ "\n", none⟩
  | detect limits => file.detect limits
  | sections => return ⟨0, Report.sections (← file.image), none⟩
  | range request => return ⟨0, ← file.list request, none⟩
  | analyze request => return ⟨0, ← file.analyze request, none⟩

/-- Carries out an invocation. A failure prints nothing and exits with 1. -/
def Invocation.run {m : Type → Type} [Monad m] [FileStore m] (i : Invocation) : m Result := do
  match ← (i.command.execute i.file).run with
  | .ok result => return result
  | .error failure => return ⟨1, "", some failure⟩

end Chip8
