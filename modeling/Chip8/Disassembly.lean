import Chip8.Decode
import Chip8.Opcode
import Chip8.Token

/-!
# Disassembly

The tokens of instructions, and of words that are none. An instruction is its mnemonic and its
operands, `MN a, b, c`; only the two memory forms put brackets around the index register. A word that
does not decode is shown as the two bytes to emit in its place.
-/

namespace Chip8

namespace Disassembly

/-- A mnemonic, a blank, and the operands with commas between them. -/
def withOperands (mnemonic : String) : List Token → List Token
  | [] => [.mnemonic mnemonic]
  | t :: ts => .mnemonic mnemonic :: .plain " " :: t :: ts.flatMap fun u => [.separator ", ", u]

/-- The operand for a general register. -/
def vreg (v : VReg) : Token := .register v.register

/-- The operand for an immediate byte or nibble. -/
def immediate (n : UInt8) : Token := .number .integer n.toUInt16

/-- The operand for an address. -/
def address (a : Address) : Token := .number .possibleAddress a

/-- The tokens of two bytes that are no instruction. -/
def rawTokens (hi lo : UInt8) : List Token :=
  [.mnemonic "_emit", .plain " ", .number .hexDumpByte hi.toUInt16, .separator " ",
    .number .hexDumpByte lo.toUInt16]

end Disassembly

open Disassembly

/-- The tokens of an instruction. -/
def Instruction.tokens (i : Instruction) : List Token :=
  let ops := withOperands i.mnemonic
  match i with
  | clearScreen | ret => ops []
  | sys a | jump a | call a => ops [address a]
  | skipEqImm x b | skipNeImm x b | loadImm x b | addImm x b | random x b =>
    ops [vreg x, immediate b]
  | skipEqReg x y | skipNeReg x y | load x y | or x y | and x y | xor x y | add x y | sub x y
  | subN x y =>
    ops [vreg x, vreg y]
  | shiftRight x _ | shiftLeft x _ => ops [vreg x, immediate 1]
  | setIndex a => ops [.register .index, address a]
  | jumpPlusV0 a => ops [vreg (.ofByte 0), address a]
  | draw x y n => ops [vreg x, vreg y, immediate n]
  | skipIfKeyPressed x | skipIfKeyNotPressed x => ops [vreg x]
  | loadDelay x => ops [vreg x, .register .delay]
  | waitKey x => ops [vreg x, .register .key]
  | setDelay x => ops [.register .delay, vreg x]
  | setSound x => ops [.register .sound, vreg x]
  | addIndex x => ops [.register .index, vreg x]
  | loadFont x => ops [.register .font, vreg x]
  | loadBcd x => ops [.register .bcd, vreg x]
  | storeRegisters x =>
    [.mnemonic i.mnemonic, .plain " [", .register .index, .separator "], ", vreg x]
  | loadRegisters x =>
    [.mnemonic i.mnemonic, .plain " ", vreg x, .separator ", [", .register .index, .plain "]"]

/-- The text of an instruction. -/
def Instruction.text (i : Instruction) : String := Token.render i.tokens

namespace Word

/-- The tokens of a word: of its instruction, or of its two bytes. -/
def tokens (w : Word) : List Token :=
  match w.decode? with
  | some i => i.tokens
  | none => rawTokens w.highByte w.lowByte

/-- The text of a word. -/
def text (w : Word) : String := Token.render w.tokens

/-- The tokens of the word at the front of `window`, and how many bytes it takes. -/
def windowTokens (window : Bytes) : Except Truncated (List Token × Nat) := do
  let w ← first window
  return (w.tokens, width.toNat)

end Word

end Chip8
