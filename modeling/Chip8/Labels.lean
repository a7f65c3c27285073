import Std.Data.ExtTreeMap
import Chip8.Graph

/-!
# Labels

Names for addresses. Names that were given from outside come first, and of two for one address the
later counts. All other names are made up: `entry` for the start of the program, `sub_` and the
address for other seeds and for call targets, `loc_` and the address for the remaining blocks.
-/

namespace Chip8

/-- A name for an address. -/
structure Label where
  address : Address
  name : String
  deriving DecidableEq, Repr

/-- At most one name for each address. -/
abbrev LabelMap := Std.ExtTreeMap Address String

namespace LabelMap

/-- The labels in ascending order of their addresses. -/
def toLabels (m : LabelMap) : List Label := m.toList.map fun (a, name) => ⟨a, name⟩

/-- The map of given labels. -/
def ofLabels (labels : List Label) : LabelMap :=
  labels.foldl (fun m l => m.insert l.address l.name) ∅

/-- Names those of the addresses that have no name yet. -/
def nameMissing (name : Address → String) (as : List Address) (m : LabelMap) : LabelMap :=
  as.foldl (fun m a => m.insertIfNew a (name a)) m

/-- The made-up name of a function. -/
def functionName (a : Address) : String := "sub_" ++ Numeral.hexDigits 4 a.toNat

/-- The made-up name of a block. -/
def blockName (a : Address) : String := "loc_" ++ Numeral.hexDigits 4 a.toNat

/-- The labels of an analyzed image: the given ones, and names for all that has none. -/
def build (given : List Label) (img : Image) (seeds : List Address) (a : Analysis) (g : Graph) :
    LabelMap :=
  ofLabels given
    |> nameMissing (fun _ => "entry") (if img.entry ∈ seeds then [img.entry] else [])
    |> nameMissing functionName (seeds ++ a.callTargets.toList)
    |> nameMissing blockName (g.blocks.map Block.start)

end LabelMap

end Chip8
