import Chip8.Instruction

/-!
# Decoding words

The family of a word comes first. Most families are one instruction each; family 0 looks at the whole
word, family 8 at the nibble, families E and F at the byte. Selectors that no instruction uses make
the word undecodable. Families 5 and 9 ignore their nibble.
-/

namespace Chip8.Word

/-- Family 0: two exact words, all others call machine code. -/
def decodeSystem (w : Word) : Instruction :=
  if w = 0x00E0 then .clearScreen
  else if w = 0x00EE then .ret
  else .sys w.address

/-- Family 8: arithmetic on two registers, chosen by the nibble. -/
def decodeArithmetic? (nibble : UInt8) (x y : VReg) : Option Instruction :=
  match nibble with
  | 0x0 => some (.load x y)
  | 0x1 => some (.or x y)
  | 0x2 => some (.and x y)
  | 0x3 => some (.xor x y)
  | 0x4 => some (.add x y)
  | 0x5 => some (.sub x y)
  | 0x6 => some (.shiftRight x y)
  | 0x7 => some (.subN x y)
  | 0xE => some (.shiftLeft x y)
  | _ => none

/-- Family E: skips on the keypad, chosen by the byte. -/
def decodeKeypad? (byte : UInt8) (x : VReg) : Option Instruction :=
  match byte with
  | 0x9E => some (.skipIfKeyPressed x)
  | 0xA1 => some (.skipIfKeyNotPressed x)
  | _ => none

/-- Family F: timers, the index register and memory, chosen by the byte. -/
def decodeMemory? (byte : UInt8) (x : VReg) : Option Instruction :=
  match byte with
  | 0x07 => some (.loadDelay x)
  | 0x0A => some (.waitKey x)
  | 0x15 => some (.setDelay x)
  | 0x18 => some (.setSound x)
  | 0x1E => some (.addIndex x)
  | 0x29 => some (.loadFont x)
  | 0x33 => some (.loadBcd x)
  | 0x55 => some (.storeRegisters x)
  | 0x65 => some (.loadRegisters x)
  | _ => none

/-- The instruction that the word encodes. A family is below 16, so the last case is family F. -/
def decode? (w : Word) : Option Instruction :=
  let x := VReg.ofByte w.x
  let y := VReg.ofByte w.y
  match w.family with
  | 0x0 => some w.decodeSystem
  | 0x1 => some (.jump w.address)
  | 0x2 => some (.call w.address)
  | 0x3 => some (.skipEqImm x w.byte)
  | 0x4 => some (.skipNeImm x w.byte)
  | 0x5 => some (.skipEqReg x y)
  | 0x6 => some (.loadImm x w.byte)
  | 0x7 => some (.addImm x w.byte)
  | 0x8 => decodeArithmetic? w.nibble x y
  | 0x9 => some (.skipNeReg x y)
  | 0xA => some (.setIndex w.address)
  | 0xB => some (.jumpPlusV0 w.address)
  | 0xC => some (.random x w.byte)
  | 0xD => some (.draw x y w.nibble)
  | 0xE => decodeKeypad? w.byte x
  | _ => decodeMemory? w.byte x

end Chip8.Word
