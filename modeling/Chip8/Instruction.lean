import Chip8.Register
import Chip8.Word

/-!
# Instructions

The 35 instructions with their operands. Nothing here depends on how an instruction is encoded:
the shifts carry the register `y` that their words name although the machine does not use it, and
operands may hold values that no word could encode.
-/

namespace Chip8

/-- One instruction. -/
inductive Instruction where
  | clearScreen
  | ret
  | sys (address : Address)
  | jump (address : Address)
  | call (address : Address)
  | skipEqImm (x : VReg) (byte : UInt8)
  | skipNeImm (x : VReg) (byte : UInt8)
  | skipEqReg (x y : VReg)
  | loadImm (x : VReg) (byte : UInt8)
  | addImm (x : VReg) (byte : UInt8)
  | load (x y : VReg)
  | or (x y : VReg)
  | and (x y : VReg)
  | xor (x y : VReg)
  | add (x y : VReg)
  | sub (x y : VReg)
  | shiftRight (x y : VReg)
  | subN (x y : VReg)
  | shiftLeft (x y : VReg)
  | skipNeReg (x y : VReg)
  | setIndex (address : Address)
  | jumpPlusV0 (address : Address)
  | random (x : VReg) (byte : UInt8)
  | draw (x y : VReg) (nibble : UInt8)
  | skipIfKeyPressed (x : VReg)
  | skipIfKeyNotPressed (x : VReg)
  | loadDelay (x : VReg)
  | waitKey (x : VReg)
  | setDelay (x : VReg)
  | setSound (x : VReg)
  | addIndex (x : VReg)
  | loadFont (x : VReg)
  | loadBcd (x : VReg)
  | storeRegisters (x : VReg)
  | loadRegisters (x : VReg)
  deriving DecidableEq, Repr

/-- Whether the instruction may skip the word behind it. -/
def Instruction.isSkip : Instruction → Bool
  | skipEqImm .. | skipNeImm .. | skipEqReg .. | skipNeReg .. => true
  | skipIfKeyPressed .. | skipIfKeyNotPressed .. => true
  | _ => false

end Chip8
