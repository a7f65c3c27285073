import Chip8.Walk

/-!
# Analysis of a walk

What a walk tells about the code: its edges in the order in which they were found, and the sets of
the addresses with a role.
-/

namespace Chip8

/-- The code that a walk has found. -/
structure Analysis where
  /-- The addresses of the instructions. -/
  visited : AddressSet
  /-- The edges, site by site in the order of the walk. -/
  edges : List Edge
  /-- Instructions after which control does not just run on. -/
  terminators : AddressSet
  /-- Instructions that return. -/
  returns : AddressSet
  /-- Instructions whose target depends on a register. -/
  indirect : AddressSet
  /-- Words that were reached but do not decode. -/
  data : AddressSet
  /-- Targets of calls. -/
  callTargets : AddressSet

namespace Flow

/-- Whether control does not just run on. A call is expected to come back. -/
def isTerminator : Flow → Bool
  | next | call _ => false
  | _ => true

end Flow

namespace Analysis

/-- The addresses of the sites whose flow satisfies `p`. -/
def addressesWhere (sites : List Site) (p : Flow → Bool) : AddressSet :=
  .ofList ((sites.filter fun s => p s.flow).map Site.address)

/-- What a walk tells. -/
def ofWalk (img : Image) (w : Walk) : Analysis :=
  let sites := w.sites.reverse
  let edges := sites.flatMap (Site.edges img)
  { visited := .ofList (sites.map Site.address)
    edges
    terminators := addressesWhere sites Flow.isTerminator
    returns := addressesWhere sites (· == .ret)
    indirect := addressesWhere sites (· == .indirect)
    data := .ofList w.data
    callTargets := .ofList ((edges.filter (·.kind == .call)).map Edge.target) }

end Analysis

/-- Walks the code of an image from the entries and tells what was found. -/
def Image.analyze (img : Image) (entries : List Address) (budget : Nat) :
    Except Walk.Fault Analysis :=
  Analysis.ofWalk img <$> img.walk entries budget

end Chip8
