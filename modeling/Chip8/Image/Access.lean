import Chip8.Numeral

/-!
# Access flags

Four flags say what a segment may be used for; the other four bits of the byte have no meaning but
are kept. In text, flags are names with bars between them, and unknown bits follow as one number.
-/

namespace Chip8

/-- The flags of a segment. -/
structure Access where
  bits : UInt8
  deriving DecidableEq, Repr

namespace Access

/-- The segment may be read. -/
def read : Access := ⟨1⟩

/-- The segment may be written. -/
def write : Access := ⟨2⟩

/-- The segment may be executed. -/
def execute : Access := ⟨4⟩

/-- The segment holds code, and not only data that may be executed. -/
def code : Access := ⟨8⟩

/-- The flags of `a` and those of `b`. -/
def union (a b : Access) : Access := ⟨a.bits ||| b.bits⟩

/-- Whether all flags of `b` are among those of `a`. -/
def contains (a b : Access) : Bool := a.bits &&& b.bits == b.bits

/-- The flags with their names, in the order in which they are written. -/
def named : List (String × Access) :=
  [("READ", read), ("WRITE", write), ("EXEC", execute), ("CODE", code)]

/-- No flag. -/
def none : Access := ⟨0⟩

/-- All flags that have a name. -/
def all : Access := (named.map Prod.snd).foldl union none

/-- Whether no bit is set, not even an unknown one. -/
def isEmpty (a : Access) : Bool := a.bits == 0

/-! ## Text -/

/-- Reading, writing and executing in three columns. -/
def permissions (a : Access) : String :=
  let column (flag : Access) (c : Char) := if a.contains flag then c else '-'
  String.ofList [column read 'r', column write 'w', column execute 'x']

/-- The names of the flags, and the unknown bits if there are any. -/
def text (a : Access) : String :=
  let names := (named.filter fun (_, flag) => a.contains flag).map Prod.fst
  let unknown := a.bits &&& ~~~ all.bits
  String.intercalate " | " (names ++ if unknown = 0 then [] else [Numeral.hex unknown.toNat])

/-- Reads a name, or bits behind `0x`. -/
def ofName? : List Char → Option Access
  | '0' :: 'x' :: cs => (fun n => ⟨UInt8.ofNat n⟩) <$> (Numeral.read 16 (UInt8.size - 1) cs).toOption
  | cs => named.lookup (String.ofList cs)

/-- The parts of a text between bars. -/
def splitBars : List Char → List (List Char)
  | [] => [[]]
  | '|' :: cs => [] :: splitBars cs
  | c :: cs =>
    match splitBars cs with
    | [] => [[c]]
    | part :: parts => (c :: part) :: parts

/-- Reads flags. Blanks around the text and around each part are ignored; no part may be empty. -/
def ofText? (s : String) : Option Access :=
  match Blank.trim s.toList with
  | [] => some none
  | cs => do
    let flags ← (splitBars cs).mapM fun part => ofName? (Blank.trim part)
    return flags.foldl union none

end Access

end Chip8
