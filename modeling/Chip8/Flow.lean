import Chip8.Word

/-!
# Control flow of a word

Where control may go after the word at an address, read from the word alone. A call of machine code
(`0nnn`) counts as a jump, so that a walk over the flow covers interpreters that do jump there. Words
that do not decode have no flow of their own and count as running on to the next word.
-/

namespace Chip8

/-- What a word does to control. -/
inductive Flow where
  /-- Control runs on to the next word. -/
  | next
  | jump (target : Address)
  | call (target : Address)
  | ret
  /-- The target depends on a register. -/
  | indirect
  /-- Either the next word is skipped (`taken`) or it is not (`passed`). -/
  | skip (taken passed : Address)
  deriving DecidableEq, Repr

namespace Flow

/-- Whether control can do anything but run on. -/
def isBranch (f : Flow) : Bool := f != next

/-- The target of a jump or a call. -/
def target? : Flow → Option Address
  | jump t | call t => some t
  | _ => none

end Flow

namespace Word

/-- The flow of a skip instruction at `a`. -/
def skipAt (a : Address) : Flow := .skip (next (next a)) (next a)

/-- The flow of the word at `a`. -/
def flow (w : Word) (a : Address) : Flow :=
  match w.family with
  | 0x0 =>
    if w = 0x00EE then .ret
    else if w = 0x00E0 then .next
    else .jump w.address
  | 0x1 => .jump w.address
  | 0x2 => .call w.address
  | 0x3 | 0x4 | 0x5 | 0x9 => skipAt a
  | 0xB => .indirect
  | 0xE => if w.byte = 0x9E ∨ w.byte = 0xA1 then skipAt a else .next
  | _ => .next

/--
The addresses that may follow the word at `a`, as far as the word tells. After a return or an
indirect jump none is known, which does not mean that none follows.
-/
def successors (w : Word) (a : Address) : List Address :=
  match w.flow a with
  | .next => [next a]
  | .jump t => [t]
  | .call t => [t, next a]
  | .skip taken passed => [taken, passed]
  | .ret | .indirect => []

end Word

end Chip8
