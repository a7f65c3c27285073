import Chip8.Instruction

/-!
# The opcode table

One row for each instruction: its mnemonic, the pattern of its words, the template of its text, and
the mask and value that select it. A word belongs to the first row whose value is left when the mask
is applied; the order matters only in family 0, where the two exact words come before the rest.
-/

namespace Chip8

/-- The kind of an instruction, without its operands. -/
inductive Opcode where
  | cls | ret | sys | jp | call | seImm | sneImm | seReg | ldImm | addImm
  | ld | or | and | xor | add | sub | shr | subn | shl | sneReg
  | ldI | jpV0 | rnd | drw | skp | sknp
  | ldVxDt | ldVxK | ldDtVx | ldStVx | addIVx | ldFVx | ldBVx | ldMemVx | ldVxMem
  deriving DecidableEq, Repr

/-- The name under which data files refer to an opcode. -/
def Opcode.name : Opcode → String
  | cls => "Cls" | ret => "Ret" | sys => "Sys" | jp => "Jp" | call => "Call"
  | seImm => "SeImm" | sneImm => "SneImm" | seReg => "SeReg" | ldImm => "LdImm"
  | addImm => "AddImm" | ld => "Ld" | or => "Or" | and => "And" | xor => "Xor"
  | add => "Add" | sub => "Sub" | shr => "Shr" | subn => "Subn" | shl => "Shl"
  | sneReg => "SneReg" | ldI => "LdI" | jpV0 => "JpV0" | rnd => "Rnd" | drw => "Drw"
  | skp => "Skp" | sknp => "Sknp" | ldVxDt => "LdVxDt" | ldVxK => "LdVxK"
  | ldDtVx => "LdDtVx" | ldStVx => "LdStVx" | addIVx => "AddIVx" | ldFVx => "LdFVx"
  | ldBVx => "LdBVx" | ldMemVx => "LdMemVx" | ldVxMem => "LdVxMem"

/-- A row of the opcode table. -/
structure OpcodeRow where
  opcode : Opcode
  mnemonic : String
  pattern : String
  template : String
  mask : Word
  value : Word
  deriving DecidableEq, Repr

/-- Whether the row selects the word. -/
def OpcodeRow.selects (r : OpcodeRow) (w : Word) : Bool := w &&& r.mask == r.value

/-- The row of an opcode. -/
def Opcode.row : Opcode → OpcodeRow
  | cls => ⟨cls, "CLS", "00E0", "CLS", 0xFFFF, 0x00E0⟩
  | ret => ⟨ret, "RET", "00EE", "RET", 0xFFFF, 0x00EE⟩
  | sys => ⟨sys, "SYS", "0nnn", "SYS addr", 0xF000, 0x0000⟩
  | jp => ⟨jp, "JP", "1nnn", "JP addr", 0xF000, 0x1000⟩
  | call => ⟨call, "CALL", "2nnn", "CALL addr", 0xF000, 0x2000⟩
  | seImm => ⟨seImm, "SE", "3xkk", "SE Vx, byte", 0xF000, 0x3000⟩
  | sneImm => ⟨sneImm, "SNE", "4xkk", "SNE Vx, byte", 0xF000, 0x4000⟩
  | seReg => ⟨seReg, "SE", "5xy0", "SE Vx, Vy", 0xF000, 0x5000⟩
  | ldImm => ⟨ldImm, "LD", "6xkk", "LD Vx, byte", 0xF000, 0x6000⟩
  | addImm => ⟨addImm, "ADD", "7xkk", "ADD Vx, byte", 0xF000, 0x7000⟩
  | ld => ⟨ld, "LD", "8xy0", "LD Vx, Vy", 0xF00F, 0x8000⟩
  | or => ⟨or, "OR", "8xy1", "OR Vx, Vy", 0xF00F, 0x8001⟩
  | and => ⟨and, "AND", "8xy2", "AND Vx, Vy", 0xF00F, 0x8002⟩
  | xor => ⟨xor, "XOR", "8xy3", "XOR Vx, Vy", 0xF00F, 0x8003⟩
  | add => ⟨add, "ADD", "8xy4", "ADD Vx, Vy", 0xF00F, 0x8004⟩
  | sub => ⟨sub, "SUB", "8xy5", "SUB Vx, Vy", 0xF00F, 0x8005⟩
  | shr => ⟨shr, "SHR", "8xy6", "SHR Vx, 1", 0xF00F, 0x8006⟩
  | subn => ⟨subn, "SUBN", "8xy7", "SUBN Vx, Vy", 0xF00F, 0x8007⟩
  | shl => ⟨shl, "SHL", "8xyE", "SHL Vx, 1", 0xF00F, 0x800E⟩
  | sneReg => ⟨sneReg, "SNE", "9xy0", "SNE Vx, Vy", 0xF000, 0x9000⟩
  | ldI => ⟨ldI, "LD", "Annn", "LD I, addr", 0xF000, 0xA000⟩
  | jpV0 => ⟨jpV0, "JP", "Bnnn", "JP V0, addr", 0xF000, 0xB000⟩
  | rnd => ⟨rnd, "RND", "Cxkk", "RND Vx, byte", 0xF000, 0xC000⟩
  | drw => ⟨drw, "DRW", "Dxyn", "DRW Vx, Vy, nibble", 0xF000, 0xD000⟩
  | skp => ⟨skp, "SKP", "Ex9E", "SKP Vx", 0xF0FF, 0xE09E⟩
  | sknp => ⟨sknp, "SKNP", "ExA1", "SKNP Vx", 0xF0FF, 0xE0A1⟩
  | ldVxDt => ⟨ldVxDt, "LD", "Fx07", "LD Vx, DT", 0xF0FF, 0xF007⟩
  | ldVxK => ⟨ldVxK, "LD", "Fx0A", "LD Vx, K", 0xF0FF, 0xF00A⟩
  | ldDtVx => ⟨ldDtVx, "LD", "Fx15", "LD DT, Vx", 0xF0FF, 0xF015⟩
  | ldStVx => ⟨ldStVx, "LD", "Fx18", "LD ST, Vx", 0xF0FF, 0xF018⟩
  | addIVx => ⟨addIVx, "ADD", "Fx1E", "ADD I, Vx", 0xF0FF, 0xF01E⟩
  | ldFVx => ⟨ldFVx, "LD", "Fx29", "LD F, Vx", 0xF0FF, 0xF029⟩
  | ldBVx => ⟨ldBVx, "LD", "Fx33", "LD B, Vx", 0xF0FF, 0xF033⟩
  | ldMemVx => ⟨ldMemVx, "LD", "Fx55", "LD [I], Vx", 0xF0FF, 0xF055⟩
  | ldVxMem => ⟨ldVxMem, "LD", "Fx65", "LD Vx, [I]", 0xF0FF, 0xF065⟩

/-- Every opcode, in the order of the table. -/
def Opcode.all : List Opcode :=
  [cls, ret, sys, jp, call, seImm, sneImm, seReg, ldImm, addImm, ld, or, and, xor, add, sub, shr,
    subn, shl, sneReg, ldI, jpV0, rnd, drw, skp, sknp, ldVxDt, ldVxK, ldDtVx, ldStVx, addIVx,
    ldFVx, ldBVx, ldMemVx, ldVxMem]

/-- The opcode table. -/
def opcodeTable : List OpcodeRow := Opcode.all.map Opcode.row

/-- The first row of the table that selects the word. -/
def Word.row? (w : Word) : Option OpcodeRow := opcodeTable.find? (·.selects w)

/-- The kind of an instruction. -/
def Instruction.opcode : Instruction → Opcode
  | clearScreen => .cls
  | ret => .ret
  | sys .. => .sys
  | jump .. => .jp
  | call .. => .call
  | skipEqImm .. => .seImm
  | skipNeImm .. => .sneImm
  | skipEqReg .. => .seReg
  | loadImm .. => .ldImm
  | addImm .. => .addImm
  | load .. => .ld
  | or .. => .or
  | and .. => .and
  | xor .. => .xor
  | add .. => .add
  | sub .. => .sub
  | shiftRight .. => .shr
  | subN .. => .subn
  | shiftLeft .. => .shl
  | skipNeReg .. => .sneReg
  | setIndex .. => .ldI
  | jumpPlusV0 .. => .jpV0
  | random .. => .rnd
  | draw .. => .drw
  | skipIfKeyPressed .. => .skp
  | skipIfKeyNotPressed .. => .sknp
  | loadDelay .. => .ldVxDt
  | waitKey .. => .ldVxK
  | setDelay .. => .ldDtVx
  | setSound .. => .ldStVx
  | addIndex .. => .addIVx
  | loadFont .. => .ldFVx
  | loadBcd .. => .ldBVx
  | storeRegisters .. => .ldMemVx
  | loadRegisters .. => .ldVxMem

/-- The mnemonic that the table gives for the instruction. -/
def Instruction.mnemonic (i : Instruction) : String := i.opcode.row.mnemonic

end Chip8
