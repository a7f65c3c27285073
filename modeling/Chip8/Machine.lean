import Chip8.Register
import Chip8.Word

/-!
# The machine

The fixed facts about the machine: a 4 KiB memory whose first 512 bytes belong to the interpreter,
big-endian words, and a register file.
-/

namespace Chip8

namespace Machine

/-- Programs are loaded right above the interpreter. -/
def loadAddress : Address := 0x200

/-- The memory that is left for a program, in bytes. -/
def maxProgramSize : Nat := 0xE00

/-- The highest address. -/
def addressMask : Address := 0x0FFF

/-- The size of the memory, in bytes. -/
def memorySize : Nat := addressMask.toNat + 1

end Machine

/-- The order in which the bytes of a word are stored. -/
inductive ByteOrder where
  | big
  | little
  deriving DecidableEq, Repr

/-- The name of a byte order. -/
def ByteOrder.name : ByteOrder → String
  | big => "Big"
  | little => "Little"

/-- What a host has to know to work with programs of a machine. Sizes are in bytes. -/
structure Architecture where
  name : String
  byteOrder : ByteOrder
  addressSize : Nat
  intSize : Nat
  alignment : Nat
  maxInstructionLength : Nat
  opcodeDisplayLength : Nat
  stackPointer : String
  loadAddress : Address
  registers : List RegisterInfo
  deriving DecidableEq, Repr

/-- The architecture of the machine. -/
def Architecture.chip8 : Architecture where
  name := "CHIP-8"
  byteOrder := .big
  addressSize := 2
  intSize := 2
  alignment := 2
  maxInstructionLength := 2
  opcodeDisplayLength := 2
  stackPointer := "SP"
  loadAddress := Machine.loadAddress
  registers := registerFile

/-- A program from the load address to the end of memory has the largest size. -/
theorem Machine.loadAddress_add_maxProgramSize :
    loadAddress.toNat + maxProgramSize = memorySize := rfl

end Chip8
