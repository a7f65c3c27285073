import Chip8.Json.Basic
import Chip8.Token

/-!
# Tokens as JSON

A token is written as an object, without its value if it has none. It is also read from a list of kind,
text and value, and a kind also from an object that maps its name to null.
-/

namespace Chip8.Token

open Json

/-- The object of a token. -/
def toJson (t : Token) : Json :=
  record ([("kind", Json.text t.kind.name), ("text", Json.text t.text)] ++
    match t.value with
    | some n => [("value", nat n.toNat)]
    | none => [])

/-- Reads a kind. -/
def Kind.ofJson? (v : Json) : Option Kind := v.name? >>= ofName?

/-- Reads a value, where null stands for none. -/
def valueOfJson? : Json → Option (Option UInt16)
  | .null => some none
  | v => some <$> v.uint16?

/-- Reads a token. Members that a token does not have are ignored. -/
def ofJson? (v : Json) : Option Token := do
  let members ← v.fields? ["kind", "text", "value"]
  let kind ← required? members "kind" >>= Kind.ofJson?
  let text ← required? members "text" >>= text?
  let value ← valueOfJson? ((← optional? members "value").getD .null)
  return ⟨kind, text, value⟩

/-- Reads a list of tokens. -/
def listOfJson? : Json → Option (List Token)
  | .list vs => vs.mapM ofJson?
  | _ => none

end Chip8.Token
