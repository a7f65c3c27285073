import Chip8.Json.Basic
import Chip8.Machine
import Chip8.Opcode

/-!
# Machine facts as JSON

Registers, the architecture and the rows of the opcode table. Of these only the name of a register is
read.
-/

namespace Chip8

open Json

/-- Reads the name of a register. -/
def Register.ofJson? (v : Json) : Option Register := v.name? >>= ofLabel?

/-- The object of a register of the machine. -/
def RegisterInfo.toJson (r : RegisterInfo) : Json :=
  record [("name", text r.name), ("size", nat r.size)]

/-- The object of an architecture. -/
def Architecture.toJson (a : Architecture) : Json :=
  record
    [("name", text a.name),
      ("endianness", text a.byteOrder.name),
      ("address_size", nat a.addressSize),
      ("default_int_size", nat a.intSize),
      ("instr_alignment", nat a.alignment),
      ("max_instr_length", nat a.maxInstructionLength),
      ("opcode_display_length", nat a.opcodeDisplayLength),
      ("stack_pointer", text a.stackPointer),
      ("load_address", nat a.loadAddress.toNat),
      ("registers", listOf RegisterInfo.toJson a.registers)]

/-- The object of a row of the opcode table. -/
def OpcodeRow.toJson (r : OpcodeRow) : Json :=
  record
    [("op", text r.opcode.name),
      ("mnemonic", text r.mnemonic),
      ("pattern", text r.pattern),
      ("syntax", text r.template),
      ("mask", nat r.mask.toNat),
      ("value", nat r.value.toNat)]

end Chip8
