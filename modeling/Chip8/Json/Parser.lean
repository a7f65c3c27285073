import Chip8.Json.Lexeme

/-!
# Reading JSON documents

The lexemes of a document drive a machine. Its state says what has to come next and holds the lists
and objects that are still open, the innermost first. Each lexeme takes one step, so nesting may be
as deep as memory allows.
-/

namespace Chip8.Json

/-- A list or object that is still open. What it holds so far stands in reverse. -/
inductive Frame where
  | list (items : List Json)
  /-- The value of `key` is being read. -/
  | object (members : List (Text × Json)) (key : Text)

/-- What has to come next. -/
inductive State where
  /-- A value. -/
  | value (outer : List Frame)
  /-- A first item, or the end of an empty list. -/
  | listStart (outer : List Frame)
  /-- A first key, or the end of an empty object. -/
  | objectStart (outer : List Frame)
  /-- A key. -/
  | key (members : List (Text × Json)) (outer : List Frame)
  /-- The colon behind `key`. -/
  | colon (members : List (Text × Json)) (key : Text) (outer : List Frame)
  /-- A comma or a closing bracket, or the end of the document. -/
  | after (v : Json) (outer : List Frame)

/-- The state behind the first lexeme of a value. -/
def beginValue? (outer : List Frame) : Lexeme → Option State
  | .atom v => some (.after v outer)
  | .text s => some (.after (.str s) outer)
  | .openList => some (.listStart outer)
  | .openObject => some (.objectStart outer)
  | _ => none

/-- The state behind one more lexeme. -/
def step? : State → Lexeme → Option State
  | .value outer, l => beginValue? outer l
  | .listStart outer, .closeList => some (.after (.list []) outer)
  | .listStart outer, l => beginValue? (.list [] :: outer) l
  | .objectStart outer, .closeObject => some (.after (.object []) outer)
  | .objectStart outer, .text k => some (.colon [] k outer)
  | .key ms outer, .text k => some (.colon ms k outer)
  | .colon ms k outer, .colon => some (.value (.object ms k :: outer))
  | .after v (.list vs :: outer), .comma => some (.value (.list (v :: vs) :: outer))
  | .after v (.list vs :: outer), .closeList => some (.after (.list (v :: vs).reverse) outer)
  | .after v (.object ms k :: outer), .comma => some (.key ((k, v) :: ms) outer)
  | .after v (.object ms k :: outer), .closeObject =>
    some (.after (.object ((k, v) :: ms).reverse) outer)
  | _, _ => none

/-- The value of a document: one value, with nothing but space around it. -/
def parse? (s : String) : Option Json := do
  match ← (← lexemes? s.toList).foldlM step? (.value []) with
  | .after v [] => some v
  | _ => none

end Chip8.Json
