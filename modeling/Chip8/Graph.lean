import Std.Data.ExtTreeMap
import Chip8.Analysis

/-!
# Control-flow graphs

The instructions of an analysis form basic blocks: straight runs that control enters only at the
first instruction and leaves only after the last. Edges are lifted to blocks, where running on inside
a block is no edge. The functions are the blocks that each seed or call target reaches without
following calls.
-/

namespace Chip8

/-! ## Blocks -/

/-- A straight run of instructions from `start` up to, but not including, `stop`. -/
structure Block where
  start : Address
  stop : Address
  deriving DecidableEq, Repr

namespace Block

/-- Whether an instruction of the block stands at an address. -/
def contains (b : Block) (a : Address) : Bool :=
  decide (b.start ≤ a ∧ a < b.stop ∧ (a.toNat - b.start.toNat) % 2 = 0)

/-- The addresses of the instructions of the block. -/
def addresses (b : Block) : List Address :=
  (List.range ((b.stop.toNat - b.start.toNat + 1) / 2)).map fun i => b.start + UInt16.ofNat (2 * i)

end Block

namespace Analysis

/-- Whether an edge makes its target the start of a block: it is no mere running on. -/
def leads (a : Analysis) (e : Edge) : Bool := e.kind != .fallthrough || e.source ∈ a.terminators

/-- The addresses at which blocks start: the seeds and the targets of edges that lead, if visited. -/
def starts (a : Analysis) (seeds : List Address) : AddressSet :=
  .ofList ((seeds ++ (a.edges.filter a.leads).map Edge.target).filter (· ∈ a.visited))

/-- Where the run of instructions from `cur` ends: behind a terminator, at a gap, or at a start. -/
def runEnd (a : Analysis) (starts : AddressSet) (cur : Address) : Address :=
  let next := Word.next cur
  if _h : cur < next ∧ cur ∉ a.terminators ∧ next ∈ a.visited ∧ next ∉ starts then
    a.runEnd starts next
  else next
termination_by UInt16.size - cur.toNat
decreasing_by
  have hlt : cur.toNat < (Word.next cur).toNat := UInt16.lt_iff_toNat_lt.1 _h.1
  have : (Word.next cur).toNat < UInt16.size := UInt16.toNat_lt _
  omega

/-- The blocks, one for each start, in ascending order. -/
def blocks (a : Analysis) (starts : AddressSet) : List Block :=
  starts.toList.map fun s => ⟨s, a.runEnd starts s⟩

end Analysis

/-! ## Edges between blocks -/

namespace Block

/-- The start of the block with an instruction at `a`, or `a` itself if there is none. -/
def owner (blocks : List Block) (a : Address) : Address :=
  match blocks.find? (·.contains a) with
  | some b => b.start
  | none => a

end Block

namespace Analysis

/-- The edges between blocks, each once. An edge that runs on inside a block is left out. -/
def blockEdges (a : Analysis) (starts : AddressSet) (blocks : List Block) : List Edge :=
  let kept := a.edges.filter fun e => e.kind != .fallthrough || e.target ∈ starts
  (kept.map fun e => { e with source := Block.owner blocks e.source }).eraseDups

end Analysis

/-! ## Reachability -/

namespace Graph

/-- The targets that a list of edges gives to each source, calls left out. -/
def targets (edges : List Edge) : Std.ExtTreeMap Address (List Address) :=
  (edges.filter (·.kind != .call)).foldl
    (fun m e => m.insert e.source (e.target :: m.getD e.source [])) ∅

/-- All that the addresses on the stack lead to, and what has been seen before. -/
def reach (next : Address → List Address) (stack : List Address) (seen : AddressSet) :
    AddressSet :=
  match stack with
  | [] => seen
  | a :: stack =>
    if a ∈ seen then reach next stack seen
    else reach next (next a ++ stack) (seen.insert a)
termination_by (seen.room, stack.length)
decreasing_by
  · exact .right _ (by simp)
  · exact .left _ _ (AddressSet.room_insert_lt ‹_›)

end Graph

/-! ## The graph -/

/-- The blocks that control may enter after `entry` without a call. -/
structure Function where
  entry : Address
  blocks : List Address
  deriving DecidableEq, Repr

/-- Blocks, the edges between them, and functions. -/
structure Graph where
  blocks : List Block
  edges : List Edge
  functions : List Function
  deriving DecidableEq, Repr

/-- The graph of an analysis. The seeds start blocks and functions, as far as they were visited. -/
def Graph.ofAnalysis (a : Analysis) (seeds : List Address) : Graph :=
  let starts := a.starts seeds
  let blocks := a.blocks starts
  let edges := a.blockEdges starts blocks
  let targets := targets edges
  let roots := AddressSet.ofList ((seeds ++ a.callTargets.toList).filter (· ∈ starts))
  let function (entry : Address) : Function :=
    ⟨entry, (reach (fun b => targets.getD b []) [entry] ∅).toList.filter (· ∈ starts)⟩
  ⟨blocks, edges, roots.toList.map function⟩

end Chip8
