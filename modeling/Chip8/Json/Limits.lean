import Chip8.Json.Basic
import Chip8.Probe

/-!
# Probe limits as JSON

Limits are written as an object. They are read from an object or from a list in the same order; what is
missing at the end of the list or from the object takes its default.
-/

namespace Chip8.Probe.Limits

open Json

/-- The object of limits. -/
def toJson (l : Limits) : Json :=
  record [("max_program_size", nat l.maxSize), ("probe_instructions", nat l.words)]

/-- Reads a size, where a missing one takes the default. -/
def sizeOr (default : Nat) : Option Json → Option Nat
  | none => some default
  | some v => v.nat? Numeral.maxSize

/-- The limits with these values, where a missing one takes the default. -/
def ofValues? (maxSize words : Option Json) : Option Limits :=
  let default : Limits := {}
  Limits.mk <$> sizeOr default.maxSize maxSize <*> sizeOr default.words words

/-- Reads limits. Members that limits do not have are ignored. -/
def ofJson? : Json → Option Limits
  | .list [] => ofValues? none none
  | .list [maxSize] => ofValues? (some maxSize) none
  | .list [maxSize, words] => ofValues? (some maxSize) (some words)
  | v => do
    let members ← v.members?
    ofValues? (← optional? members "max_program_size") (← optional? members "probe_instructions")

end Chip8.Probe.Limits
