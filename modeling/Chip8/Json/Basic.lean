/-!
# JSON values

Values as a document writes them: the members of an object keep their order and may repeat, and a
number that is not written as an integer, or is far too long for one, keeps its literal.

A string literal may hold half of a surrogate pair. Such a literal is well formed, and stays harmless
in a part of a document that nobody reads, but it denotes no text.
-/

namespace Chip8

/-- What a string literal denotes: `none` if an escape in it names an unpaired surrogate. -/
abbrev Json.Text := Option String

/-- A JSON value. -/
inductive Json where
  | null
  | bool (b : Bool)
  | int (n : Int)
  /-- A number with a fraction or an exponent, negative zero, or one with too many digits. -/
  | real (literal : String)
  | str (s : Json.Text)
  | list (items : List Json)
  | object (members : List (Json.Text × Json))
  deriving Inhabited, Repr

namespace Json

/-! ## Building -/

/-- The string value with this text. -/
def text (s : String) : Json := str (some s)

/-- An unsigned number. -/
def nat (n : Nat) : Json := int n

/-- An object with these members, in this order. -/
def record (members : List (String × Json)) : Json :=
  object (members.map fun (k, v) => (some k, v))

/-- The list of the values of `xs`. -/
def listOf {α : Type} (f : α → Json) (xs : List α) : Json := list (xs.map f)

/-! ## Reading -/

/-- The text of a string value. -/
def text? : Json → Option String
  | str s => s
  | _ => none

/-- An integer from `0` to `limit`. -/
def nat? (limit : Nat) : Json → Option Nat
  | int (.ofNat n) => if n ≤ limit then some n else none
  | _ => none

/-- An integer that 8 bits hold. -/
def uint8? (v : Json) : Option UInt8 := UInt8.ofNat <$> v.nat? (UInt8.size - 1)

/-- An integer that 16 bits hold. -/
def uint16? (v : Json) : Option UInt16 := UInt16.ofNat <$> v.nat? (UInt16.size - 1)

/-- The members of an object whose keys all denote text. -/
def members? : Json → Option (List (String × Json))
  | object ms => ms.mapM fun (k, v) => (·, v) <$> k
  | _ => none

/-- A name: a string, or an object that maps the name to null. -/
def name? : Json → Option String
  | str s => s
  | object [(k, null)] => k
  | _ => none

/-- All values that an object gives to a key. -/
def valuesOf (key : String) (members : List (String × Json)) : List Json :=
  members.filterMap fun (k, v) => if k = key then some v else none

/-- The value of a key that has to occur exactly once. -/
def required? (members : List (String × Json)) (key : String) : Option Json :=
  match valuesOf key members with
  | [v] => some v
  | _ => none

/-- The value of a key that may be missing but may not repeat. -/
def optional? (members : List (String × Json)) (key : String) : Option (Option Json) :=
  match valuesOf key members with
  | [] => some none
  | [v] => some (some v)
  | _ => none

/--
The members of a record with these keys: those of an object, or a list of all values in the order of the
keys.
-/
def fields? (keys : List String) : Json → Option (List (String × Json))
  | list vs => if vs.length = keys.length then some (keys.zip vs) else none
  | v => v.members?

/--
The tag and the members of a record whose kind a tag tells: the object has it under `key`, and the list
in front of the values. The tag determines the other keys.
-/
def tagged? (key : String) (keys : String → List String) :
    Json → Option (String × List (String × Json))
  | list (tag :: values) => do
    let tag ← tag.text?
    return (tag, ← (list values).fields? (keys tag))
  | v => do
    let members ← v.members?
    return (← required? members key >>= text?, members)

end Json

end Chip8
