import Chip8.Decode
import Chip8.Machine
import Chip8.Numeral

/-!
# Does a file look like a program?

Programs carry no signature, so the only evidence is their bytes: the file has to fit into memory,
and its first words have to decode. Both kinds of mistake are possible.
-/

namespace Chip8.Probe

/-- What a file has to satisfy. -/
structure Limits where
  /-- The largest size of a file, in bytes. -/
  maxSize : Nat := Machine.maxProgramSize
  /-- How many words at the front have to decode. -/
  words : Nat := 20
  deriving DecidableEq, Repr

/-- The size in bytes of the words that are looked at, as far as a size can tell. -/
def Limits.windowSize (l : Limits) : Nat := min (2 * l.words) Numeral.maxSize

/-- Why a file does not look like a program. -/
inductive Rejection where
  | tooLarge (size max : Nat)
  | tooShort (size need : Nat)
  | undecodable (offset : Nat) (word : Word)
  deriving DecidableEq, Repr

/-- What is said about a file that does not look like a program. -/
def Rejection.message : Rejection → String
  | tooLarge size max =>
    "image is " ++ Numeral.hex size ++ " bytes, larger than " ++ Numeral.hex max
  | tooShort size need =>
    "image is " ++ toString size ++ " bytes, shorter than the " ++ toString need ++
      "-byte probe window"
  | undecodable offset word =>
    "no instruction decodes from " ++ Numeral.hexPadded 4 word.toNat ++ " at offset " ++
      Numeral.hex offset

/--
Looks at the words from `offset` on that start in a window of `need` bytes, and stops at the first that
does not decode.
-/
def checkWords (bytes : Bytes) (need offset : Nat) : Except Rejection Unit :=
  if offset < need then
    match Word.at? bytes offset with
    | none => .error (.tooShort bytes.size need)
    | some w =>
      if w.decode?.isSome then checkWords bytes need (offset + 2)
      else .error (.undecodable offset w)
  else .ok ()
termination_by need - offset

/-- Checks a file: its size first, then its words from the front. -/
def check (limits : Limits) (bytes : Bytes) : Except Rejection Unit :=
  if limits.maxSize < bytes.size then .error (.tooLarge bytes.size limits.maxSize)
  else if bytes.size < limits.windowSize then .error (.tooShort bytes.size limits.windowSize)
  else checkWords bytes limits.windowSize 0

/-- Whether a file passes the default limits. -/
def looksLikeProgram (bytes : Bytes) : Bool := (check {} bytes).isOk

end Chip8.Probe
