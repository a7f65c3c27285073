import Chip8.Disassembly
import Chip8.Graph

/-!
# Listings

A line of a listing is an address and the text of the word there, with the two bytes in between if
they are wanted. A listing of a range goes from word to word; where no word can be read it shows the
last byte, or that there is none, and ends.
-/

namespace Chip8

namespace Image

/-- The line for the word at an address. -/
def line? (img : Image) (showBytes : Bool) (a : Address) : Option String := do
  let w ← img.word? a
  let bytes :=
    if showBytes then
      Numeral.hexDigits 2 w.highByte.toNat ++ " " ++ Numeral.hexDigits 2 w.lowByte.toNat ++ "   "
    else ""
  return Numeral.address a ++ ": " ++ bytes ++ w.text

/-- The line for an address at which no word can be read. -/
def lastLine (img : Image) (a : Address) : String :=
  match img.byte? a with
  | some b => Numeral.address a ++ ": .byte " ++ Numeral.hexPadded 2 b.toNat
  | none => Numeral.address a ++ ": <oob>"

/-- The lines from address `pos` on, as long as they start before `stop`. -/
def rangeLines (img : Image) (showBytes : Bool) (pos stop : Nat) : List String :=
  if pos < stop then
    match img.line? showBytes (UInt16.ofNat pos) with
    | some line => line :: img.rangeLines showBytes (pos + 2) stop
    | none => [img.lastLine (UInt16.ofNat pos)]
  else []
termination_by stop - pos

end Image

/-- The lines of a block. -/
def Block.lines (img : Image) (showBytes : Bool) (b : Block) : List String :=
  b.addresses.filterMap (img.line? showBytes)

end Chip8
