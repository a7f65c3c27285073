import Chip8.Json.Labels
import Chip8.Json.Machine
import Chip8.Listing

/-!
# Reports

What the commands print: two tables, and the report of an analysis as text or as JSON.
-/

namespace Chip8

namespace Report

/-- Lines, each with its end. -/
def lines (ls : List String) : String := String.join (ls.map (· ++ "\n"))

/-- The text filled up with blanks to a width. -/
def column (width : Nat) (s : String) : String := String.ofList (s.toList.rightpad width ' ')

/-! ## Tables -/

/-- The row of the printed opcode table for an opcode. -/
def opcodeLine (r : OpcodeRow) : String :=
  column 6 r.pattern ++ " " ++ column 6 r.mnemonic ++ " " ++ column 20 r.template ++ " " ++
    Numeral.address r.mask ++ "   " ++ Numeral.address r.value

/-- The opcode table. -/
def opcodes : String :=
  lines
    ((column 6 "op" ++ " " ++ column 6 "mnem" ++ " " ++ column 20 "syntax" ++ " " ++
        column 8 "mask" ++ " " ++ column 8 "match") ::
      opcodeTable.map opcodeLine)

/-- The row of a segment. -/
def segmentLine (entry : Address) (s : Segment) : String :=
  column 10 s.name ++ " " ++ Numeral.address s.base ++ "   " ++ Numeral.hexPadded 4 s.stop ++
    "   " ++ s.access.permissions ++ " " ++ Numeral.address entry

/-- The segments of an image. -/
def sections (img : Image) : String :=
  lines
    ((column 10 "name" ++ " " ++ column 8 "start" ++ " " ++ column 8 "end" ++ " " ++
        column 6 "perms" ++ " " ++ column 6 "entry") ::
      img.segments.map (segmentLine img.entry))

end Report

/-! ## Analyses -/

/-- All that a report of an analysis shows. -/
structure Report where
  image : Image
  seeds : List Address
  analysis : Analysis
  graph : Graph
  labels : LabelMap

namespace Report

/-! ### Text -/

/-- A list of addresses in brackets, each between quotes. -/
def quotedList (as : List Address) : String :=
  "[" ++ String.intercalate ", " (as.map fun a => "\"" ++ Numeral.address a ++ "\"") ++ "]"

/-- How many there are of each thing. -/
def summaryLines (r : Report) : List String :=
  ["Analysis summary:",
    "  entries   : " ++ quotedList r.seeds,
    "  insts     : " ++ toString r.analysis.visited.size,
    "  blocks    : " ++ toString r.graph.blocks.length,
    "  edges     : " ++ toString r.graph.edges.length,
    "  functions : " ++ toString r.graph.functions.length,
    "  indirect  : " ++ toString r.analysis.indirect.size]

/-- The edges between blocks, and the instructions whose target is not known. -/
def edgeLines (r : Report) : List String :=
  "Edges:" ::
    (r.graph.edges.map (fun e =>
        "  " ++ Numeral.address e.source ++ " -> " ++ Numeral.address e.target ++ " (" ++
          e.kind.tag ++ ")") ++
      r.analysis.indirect.toList.map fun a => "  " ++ Numeral.address a ++ " -> ? (indirect)")

/-- The label of an address, and the line for its instruction. -/
def instructionLines (r : Report) (showBytes : Bool) (a : Address) : List String :=
  let label := (r.labels[a]?).toList.map fun name => Numeral.address a ++ " <" ++ name ++ ">:"
  let line := (r.image.line? showBytes a).toList.map ("  " ++ ·)
  label ++ line

/-- The instructions in ascending order, with their labels. -/
def listingLines (r : Report) (showBytes : Bool) : List String :=
  "" :: "Listing (analyzed PCs):" :: r.analysis.visited.toList.flatMap (r.instructionLines showBytes)

/-- The report as text. -/
def text (r : Report) (listing showBytes : Bool) : String :=
  lines (r.summaryLines ++ r.edgeLines ++ if listing then r.listingLines showBytes else [])

/-! ### JSON -/

open Json in
/-- The object of a block with its lines. -/
def blockJson (img : Image) (showBytes : Bool) (b : Block) : Json :=
  record
    [("start", nat b.start.toNat),
      ("end", nat b.stop.toNat),
      ("insns", listOf Json.text (b.lines img showBytes))]

open Json in
/-- The object of an edge between blocks. -/
def edgeJson (e : Edge) : Json :=
  record
    [("from", nat e.source.toNat), ("to", nat e.target.toNat), ("kind", Json.text e.kind.tag)]

/-- A list of addresses. -/
def addressesJson (as : List Address) : Json := Json.listOf (fun a => Json.nat a.toNat) as

open Json in
/-- The object of a function. -/
def functionJson (f : Function) : Json :=
  record [("entry", nat f.entry.toNat), ("blocks", addressesJson f.blocks)]

open Json in
/-- The report as JSON. -/
def toJson (r : Report) (showBytes : Bool) : Json :=
  record
    [("entries", addressesJson r.seeds),
      ("blocks", listOf (blockJson r.image showBytes) r.graph.blocks),
      ("edges", listOf edgeJson r.graph.edges),
      ("functions", listOf functionJson r.graph.functions),
      ("indirect", addressesJson r.analysis.indirect.toList),
      ("data", addressesJson r.analysis.data.toList),
      ("labels", listOf Label.toJson r.labels.toLabels)]

end Report

end Chip8
