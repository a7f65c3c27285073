import Chip8.Json.Basic
import Chip8.Numeral

/-!
# Writing JSON documents

Two layouts of the same text. The compact one has no space at all. The indented one gives each item
and member a line of its own, two blanks deeper than the bracket around it; an empty list or object
stays on its line.

Strings escape the quote, the backslash and the control characters, and nothing else.
-/

namespace Chip8.Json

/-! ## Strings -/

/-- How a character is written inside a string. -/
def writeChar (c : Char) : String :=
  match c with
  | '"' => "\\\""
  | '\\' => "\\\\"
  | '\x08' => "\\b"
  | '\x0c' => "\\f"
  | '\n' => "\\n"
  | '\r' => "\\r"
  | '\t' => "\\t"
  | c => if c.toNat < 0x20 then "\\u" ++ Numeral.hexDigits 4 c.toNat else String.singleton c

/-- A text between quotes. -/
def quote (s : String) : String := "\"" ++ String.join (s.toList.map writeChar) ++ "\""

/-- A string value between quotes. A lone surrogate is written as the replacement character. -/
def writeText (s : Text) : String := quote (s.getD "\uFFFD")

/-! ## Layouts -/

/-- Where items go: what stands before the first, between two, and behind the last. -/
structure Layout where
  first : String
  between : String
  last : String

namespace Layout

/-- No space at all. -/
def compact : Layout := ⟨"", ",", ""⟩

/-- The start of a line at a depth. -/
def newLine (depth : Nat) : String := String.ofList ('\n' :: List.replicate (2 * depth) ' ')

/-- One item a line, inside a bracket at this depth. -/
def indented (depth : Nat) : Layout :=
  ⟨newLine (depth + 1), "," ++ newLine (depth + 1), newLine depth⟩

/-- The items between two brackets. -/
def enclose (l : Layout) (opening closing : String) : List String → String
  | [] => opening ++ closing
  | items => opening ++ l.first ++ String.intercalate l.between items ++ l.last ++ closing

end Layout

/-- The spelling of a value that is no list and no object. -/
def writeAtom : Json → String
  | null => "null"
  | bool b => if b then "true" else "false"
  | int n => toString n
  | real literal => literal
  | str s => writeText s
  | list _ | object _ => ""

mutual

/-- The text of a value at `depth`, laid out by `layout`, with `colon` behind each key. -/
def write (layout : Nat → Layout) (colon : String) (depth : Nat) : Json → String
  | list vs => (layout depth).enclose "[" "]" (writeItems layout colon (depth + 1) vs)
  | object ms => (layout depth).enclose "\x7b" "\x7d" (writeMembers layout colon (depth + 1) ms)
  | v => writeAtom v

/-- The texts of the items of a list. -/
def writeItems (layout : Nat → Layout) (colon : String) (depth : Nat) : List Json → List String
  | [] => []
  | v :: vs => write layout colon depth v :: writeItems layout colon depth vs

/-- The texts of the members of an object. -/
def writeMembers (layout : Nat → Layout) (colon : String) (depth : Nat) :
    List (Text × Json) → List String
  | [] => []
  | (k, v) :: ms =>
    (writeText k ++ colon ++ write layout colon depth v) :: writeMembers layout colon depth ms

end

/-- The compact text of a value. -/
def compact (v : Json) : String := write (fun _ => Layout.compact) ":" 0 v

/-- The indented text of a value. -/
def pretty (v : Json) : String := write Layout.indented ": " 0 v

end Chip8.Json
