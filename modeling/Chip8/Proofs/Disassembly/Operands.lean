import Chip8.Proofs.Disassembly
import Chip8.Proofs.Fields

/-!
# Operands in texts

The text of an instruction is a line of the form `MN a, b, c` (`Instruction.text_eq`). What its operands are
follows from the opcode alone, but for the values in them: an opcode has a slot for each operand, which a
template shows by a placeholder and the text of an instruction by the value in a field.
-/

namespace Chip8

theorem Register.mem_all (r : Register) : r ∈ Register.all := by
  cases r with
  | general i => exact List.mem_append_left _ (List.mem_map_of_mem (List.mem_finRange i))
  | _ => decide

/-- An operand as a text shows it. -/
inductive Operand where
  | register (r : Register)
  | number (n : UInt16)
  /-- The memory that the index register points to. -/
  | memory
  deriving DecidableEq, Repr

/-- The text of an operand. -/
def Operand.text : Operand → String
  | register r => r.text
  | number n => Numeral.hex n.toNat
  | memory => "[I]"

/-! ## Lines -/

namespace Disassembly

/-- A line of text: a mnemonic and its operands with commas between them. -/
def line (mnemonic : String) : List String → String
  | [] => mnemonic
  | s :: ss => mnemonic ++ " " ++ String.intercalate ", " (s :: ss)

theorem render_cons (t : Token) (ts : List Token) : Token.render (t :: ts) = t.text ++ Token.render ts := by
  rw [← String.toList_inj, Token.toList_render_cons, String.toList_append]

theorem render_separated (t : Token) (ts : List Token) :
    Token.render (t :: ts.flatMap fun u => [.separator ", ", u]) =
      String.intercalate ", " ((t :: ts).map Token.text) := by
  induction ts generalizing t with
  | nil => simp [Token.render]
  | cons u us ih =>
    rw [List.flatMap_cons, List.cons_append, List.singleton_append, render_cons, render_cons, ih u]
    simp only [List.map_cons, String.intercalate_cons_cons, String.append_assoc]
    rfl

/-- Tokens with commas between the operands make up a line. -/
theorem render_withOperands (mnemonic : String) (ts : List Token) :
    Token.render (withOperands mnemonic ts) = line mnemonic (ts.map Token.text) := by
  cases ts with
  | nil => simp [withOperands, line, Token.render, Token.mnemonic]
  | cons t ts =>
    rw [withOperands, render_cons, render_cons, render_separated, List.map_cons, line,
      String.append_assoc]
    rfl

end Disassembly

/-! ## Slots -/

/-- What an opcode has in the place of an operand. -/
inductive Slot where
  | x
  | y
  | byte
  | nibble
  | address
  /-- The distance of a shift. -/
  | one
  /-- A register that the opcode itself names. -/
  | fixed (r : Register)
  | memory
  deriving DecidableEq, Repr

namespace Slot

/-- How a template shows the slot. -/
def placeholder : Slot → String
  | x => "Vx"
  | y => "Vy"
  | byte => "byte"
  | nibble => "nibble"
  | address => "addr"
  | one => "1"
  | fixed r => r.text
  | memory => "[I]"

/-- What the slot holds in an instruction with these fields. -/
def operand (f : Fields) : Slot → Operand
  | x => .register f.x.register
  | y => .register f.y.register
  | byte => .number f.byte.toUInt16
  | nibble => .number f.nibble.toUInt16
  | address => .number f.address
  | one => .number 1
  | fixed r => .register r
  | memory => .memory

end Slot

/-- The slots of an opcode, in the order of its text. The second register of a shift has none. -/
def Opcode.slots : Opcode → List Slot
  | cls | ret => []
  | sys | jp | call => [.address]
  | seImm | sneImm | ldImm | addImm | rnd => [.x, .byte]
  | seReg | sneReg | ld | or | and | xor | add | sub | subn => [.x, .y]
  | shr | shl => [.x, .one]
  | ldI => [.fixed .index, .address]
  | jpV0 => [.fixed (VReg.ofByte 0).register, .address]
  | drw => [.x, .y, .nibble]
  | skp | sknp => [.x]
  | ldVxDt => [.x, .fixed .delay]
  | ldVxK => [.x, .fixed .key]
  | ldDtVx => [.fixed .delay, .x]
  | ldStVx => [.fixed .sound, .x]
  | addIVx => [.fixed .index, .x]
  | ldFVx => [.fixed .font, .x]
  | ldBVx => [.fixed .bcd, .x]
  | ldMemVx => [.memory, .x]
  | ldVxMem => [.x, .memory]

/-! ## Texts of instructions -/

namespace Instruction

/-- The operands that the text of an instruction shows. -/
def shownOperands (i : Instruction) : List Operand := i.opcode.slots.map (Slot.operand i.fields)

/-- **The text of an instruction is its mnemonic and what its slots hold.** -/
theorem text_eq (i : Instruction) : i.text = Disassembly.line i.mnemonic (i.shownOperands.map Operand.text) := by
  cases i
  case storeRegisters => rfl
  case loadRegisters x =>
    -- the closing bracket comes behind the register, so the pieces have to be put together anew
    have hbrackets : ", [" ++ "I" ++ "]" = ", " ++ "[I]" := rfl
    show "LD" ++ " " ++ x.register.text ++ ", [" ++ "I" ++ "]" =
      "LD" ++ " " ++ (x.register.text ++ ", " ++ "[I]")
    simp only [String.append_assoc] at hbrackets ⊢
    rw [hbrackets]
  all_goals
    simp only [text, tokens, Disassembly.render_withOperands]
    rfl

end Instruction

end Chip8
