import Chip8.Flow
import Chip8.Json.Basic

/-!
# Control flow as JSON

A flow is an object whose `kind` names what happens and whose other members are the targets. It is also
read from a list of the name and the targets.
-/

namespace Chip8.Flow

open Json

/-- The object of a flow. -/
def toJson : Flow → Json
  | next => record [("kind", text "none")]
  | jump t => record [("kind", text "unconditional"), ("target", nat t.toNat)]
  | call t => record [("kind", text "call"), ("target", nat t.toNat)]
  | ret => record [("kind", text "return")]
  | indirect => record [("kind", text "indirect")]
  | skip taken passed =>
    record [("kind", text "conditional_pair"), ("true_target", nat taken.toNat),
      ("false_target", nat passed.toNat)]

/-- The names of the targets of the kind that a tag names. -/
def targetNames : String → List String
  | "unconditional" | "call" => ["target"]
  | "conditional_pair" => ["true_target", "false_target"]
  | _ => []

/-- The flow of the kind that `tag` names, with the targets among `members`. -/
def ofMembers? (tag : String) (members : List (String × Json)) : Option Flow :=
  let address (key : String) : Option Address := required? members key >>= uint16?
  match tag with
  | "none" => some .next
  | "unconditional" => .jump <$> address "target"
  | "call" => .call <$> address "target"
  | "return" => some .ret
  | "indirect" => some .indirect
  | "conditional_pair" => .skip <$> address "true_target" <*> address "false_target"
  | _ => none

/-- Reads a flow. Members that its kind does not have are ignored. -/
def ofJson? (v : Json) : Option Flow := do
  let (tag, members) ← v.tagged? "kind" targetNames
  ofMembers? tag members

end Chip8.Flow
