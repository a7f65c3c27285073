import Chip8.Opcode
import Chip8.Proofs.Word

/-!
# Fields of words and of instructions

What sets an instruction apart is its opcode and its operands, and each operand has its field in a word. So an
opcode with a value for every field makes an instruction, whether the values are those of an instruction
(`Opcode.instruction_fields`) or those of a word; a field that the opcode has no use for does not matter.
-/

namespace Chip8

/-- A value for each field that can hold an operand. -/
structure Fields where
  x : VReg := ⟨0⟩
  y : VReg := ⟨0⟩
  byte : UInt8 := 0
  nibble : UInt8 := 0
  address : Address := 0
  deriving DecidableEq, Repr

namespace Instruction

/-- The operands of an instruction in their fields. A field without an operand is zero. -/
def fields : Instruction → Fields
  | clearScreen | ret => {}
  | sys a | jump a | call a | setIndex a | jumpPlusV0 a => { address := a }
  | skipEqImm x b | skipNeImm x b | loadImm x b | addImm x b | random x b => { x := x, byte := b }
  | skipEqReg x y | skipNeReg x y | load x y | or x y | and x y | xor x y | add x y | sub x y
  | shiftRight x y | subN x y | shiftLeft x y => { x := x, y := y }
  | draw x y n => { x := x, y := y, nibble := n }
  | skipIfKeyPressed x | skipIfKeyNotPressed x | loadDelay x | waitKey x | setDelay x | setSound x
  | addIndex x | loadFont x | loadBcd x | storeRegisters x | loadRegisters x => { x := x }

end Instruction

namespace Opcode

/-- The instruction of an opcode that takes its operands from their fields. -/
def instruction (f : Fields) : Opcode → Instruction
  | cls => .clearScreen
  | ret => .ret
  | sys => .sys f.address
  | jp => .jump f.address
  | call => .call f.address
  | seImm => .skipEqImm f.x f.byte
  | sneImm => .skipNeImm f.x f.byte
  | seReg => .skipEqReg f.x f.y
  | ldImm => .loadImm f.x f.byte
  | addImm => .addImm f.x f.byte
  | ld => .load f.x f.y
  | or => .or f.x f.y
  | and => .and f.x f.y
  | xor => .xor f.x f.y
  | add => .add f.x f.y
  | sub => .sub f.x f.y
  | shr => .shiftRight f.x f.y
  | subn => .subN f.x f.y
  | shl => .shiftLeft f.x f.y
  | sneReg => .skipNeReg f.x f.y
  | ldI => .setIndex f.address
  | jpV0 => .jumpPlusV0 f.address
  | rnd => .random f.x f.byte
  | drw => .draw f.x f.y f.nibble
  | skp => .skipIfKeyPressed f.x
  | sknp => .skipIfKeyNotPressed f.x
  | ldVxDt => .loadDelay f.x
  | ldVxK => .waitKey f.x
  | ldDtVx => .setDelay f.x
  | ldStVx => .setSound f.x
  | addIVx => .addIndex f.x
  | ldFVx => .loadFont f.x
  | ldBVx => .loadBcd f.x
  | ldMemVx => .storeRegisters f.x
  | ldVxMem => .loadRegisters f.x

/-- Opcode and operands make up the instruction. -/
@[simp]
theorem instruction_fields (i : Instruction) : i.opcode.instruction i.fields = i := by
  cases i <;> rfl

theorem opcode_row (o : Opcode) : o.row.opcode = o := by
  cases o <;> rfl

@[simp]
theorem opcode_instruction (o : Opcode) (f : Fields) : (o.instruction f).opcode = o := by
  cases o <;> rfl

@[simp]
theorem mem_all (o : Opcode) : o ∈ all := by
  cases o <;> decide

end Opcode

/-! ## Fields of words -/

namespace Word

/-- The fields of a word. -/
def fields (w : Word) : Fields := ⟨.ofByte w.x, .ofByte w.y, w.byte, w.nibble, w.address⟩

@[simp]
theorem toNat_ofByte (b : UInt8) : (VReg.ofByte b).index.toNat = b.toNat % 2 ^ 4 :=
  Nat.and_two_pow_sub_one_eq_mod b.toNat 4

@[simp]
theorem toNat_fields_x (w : Word) : w.fields.x.index.toNat = w.toNat / 2 ^ 8 % 2 ^ 4 := by
  rw [fields, toNat_ofByte, toNat_x, Nat.mod_mod]

@[simp]
theorem toNat_fields_y (w : Word) : w.fields.y.index.toNat = w.toNat / 2 ^ 4 % 2 ^ 4 := by
  rw [fields, toNat_ofByte, toNat_y, Nat.mod_mod]

@[simp]
theorem toNat_fields_byte (w : Word) : w.fields.byte.toNat = w.toNat % 2 ^ 8 := w.toNat_byte

@[simp]
theorem toNat_fields_nibble (w : Word) : w.fields.nibble.toNat = w.toNat % 2 ^ 4 := w.toNat_nibble

@[simp]
theorem toNat_fields_address (w : Word) : w.fields.address.toNat = w.toNat % 2 ^ 12 := w.toNat_address

end Word

end Chip8
