import Chip8.Json.Parser
import Chip8.Json.Printer
import Chip8.Labels

/-!
# Labels as JSON

A document of labels is a list of objects with an address and a name. A label is also read from a list
of the two.
-/

namespace Chip8

open Json

namespace Label

/-- The object of a label. -/
def toJson (l : Label) : Json :=
  record [("addr", nat l.address.toNat), ("name", text l.name)]

/-- Reads a label. Members that a label does not have are ignored. -/
def ofJson? (v : Json) : Option Label := do
  let members ← v.fields? ["addr", "name"]
  let address ← required? members "addr" >>= uint16?
  let name ← required? members "name" >>= text?
  return ⟨address, name⟩

/-- The document of labels. -/
def write (labels : List Label) : String := (listOf toJson labels).pretty

/-- Reads a document of labels. -/
def read? (document : String) : Option (List Label) := do
  match ← parse? document with
  | .list vs => vs.mapM ofJson?
  | _ => none

end Label

end Chip8
