import Chip8.Instruction
import Chip8.Json.Basic

/-!
# Instructions as JSON

An instruction is an object whose `op` names the kind and whose other members are the operands: `x` and
`y` for registers, `kk` for a byte, `n` for a nibble, `addr` for an address. It is also read from a list
of the name and the operands. Operands are read as they stand, so a register may have an index above 15
and an address may lie above the memory.
-/

namespace Chip8.Instruction

open Json

/-- The name of the kind of an instruction. -/
def tag : Instruction → String
  | clearScreen => "clear_screen"
  | ret => "return"
  | sys .. => "sys"
  | jump .. => "jump"
  | call .. => "call"
  | skipEqImm .. => "skip_eq_imm"
  | skipNeImm .. => "skip_ne_imm"
  | skipEqReg .. => "skip_eq_reg"
  | loadImm .. => "load_imm"
  | addImm .. => "add_imm"
  | load .. => "load"
  | or .. => "or"
  | and .. => "and"
  | xor .. => "xor"
  | add .. => "add"
  | sub .. => "sub"
  | shiftRight .. => "shift_right"
  | subN .. => "sub_n"
  | shiftLeft .. => "shift_left"
  | skipNeReg .. => "skip_ne_reg"
  | setIndex .. => "set_index"
  | jumpPlusV0 .. => "jump_plus_v0"
  | random .. => "random"
  | draw .. => "draw"
  | skipIfKeyPressed .. => "skip_if_key_pressed"
  | skipIfKeyNotPressed .. => "skip_if_key_not_pressed"
  | loadDelay .. => "load_delay"
  | waitKey .. => "wait_key"
  | setDelay .. => "set_delay"
  | setSound .. => "set_sound"
  | addIndex .. => "add_index"
  | loadFont .. => "load_font"
  | loadBcd .. => "load_bcd"
  | storeRegisters .. => "store_registers"
  | loadRegisters .. => "load_registers"

/-- The operands with their names, in the order in which they are written. -/
def operands : Instruction → List (String × Nat)
  | clearScreen | ret => []
  | sys a | jump a | call a | setIndex a | jumpPlusV0 a => [("addr", a.toNat)]
  | skipEqImm x b | skipNeImm x b | loadImm x b | addImm x b | random x b =>
    [("x", x.index.toNat), ("kk", b.toNat)]
  | skipEqReg x y | skipNeReg x y | load x y | or x y | and x y | xor x y | add x y | sub x y
  | shiftRight x y | subN x y | shiftLeft x y =>
    [("x", x.index.toNat), ("y", y.index.toNat)]
  | draw x y n => [("x", x.index.toNat), ("y", y.index.toNat), ("n", n.toNat)]
  | skipIfKeyPressed x | skipIfKeyNotPressed x | loadDelay x | waitKey x | setDelay x
  | setSound x | addIndex x | loadFont x | loadBcd x | storeRegisters x | loadRegisters x =>
    [("x", x.index.toNat)]

/-- The object of an instruction. -/
def toJson (i : Instruction) : Json :=
  record (("op", text i.tag) :: i.operands.map fun (k, n) => (k, nat n))

/-- The names of the operands of the kind that a tag names. -/
def operandNames : String → List String
  | "clear_screen" | "return" => []
  | "sys" | "jump" | "call" | "set_index" | "jump_plus_v0" => ["addr"]
  | "skip_eq_imm" | "skip_ne_imm" | "load_imm" | "add_imm" | "random" => ["x", "kk"]
  | "skip_eq_reg" | "skip_ne_reg" | "load" | "or" | "and" | "xor" | "add" | "sub" | "shift_right"
  | "sub_n" | "shift_left" => ["x", "y"]
  | "draw" => ["x", "y", "n"]
  | _ => ["x"]

/-- The instruction of the kind that `tag` names, with the operands among `members`. -/
def ofMembers? (tag : String) (members : List (String × Json)) : Option Instruction :=
  let vreg (key : String) : Option VReg := VReg.mk <$> (required? members key >>= uint8?)
  let byte (key : String) : Option UInt8 := required? members key >>= uint8?
  let address : Option Address := required? members "addr" >>= uint16?
  match tag with
  | "clear_screen" => some .clearScreen
  | "return" => some .ret
  | "sys" => .sys <$> address
  | "jump" => .jump <$> address
  | "call" => .call <$> address
  | "skip_eq_imm" => .skipEqImm <$> vreg "x" <*> byte "kk"
  | "skip_ne_imm" => .skipNeImm <$> vreg "x" <*> byte "kk"
  | "skip_eq_reg" => .skipEqReg <$> vreg "x" <*> vreg "y"
  | "load_imm" => .loadImm <$> vreg "x" <*> byte "kk"
  | "add_imm" => .addImm <$> vreg "x" <*> byte "kk"
  | "load" => .load <$> vreg "x" <*> vreg "y"
  | "or" => .or <$> vreg "x" <*> vreg "y"
  | "and" => .and <$> vreg "x" <*> vreg "y"
  | "xor" => .xor <$> vreg "x" <*> vreg "y"
  | "add" => .add <$> vreg "x" <*> vreg "y"
  | "sub" => .sub <$> vreg "x" <*> vreg "y"
  | "shift_right" => .shiftRight <$> vreg "x" <*> vreg "y"
  | "sub_n" => .subN <$> vreg "x" <*> vreg "y"
  | "shift_left" => .shiftLeft <$> vreg "x" <*> vreg "y"
  | "skip_ne_reg" => .skipNeReg <$> vreg "x" <*> vreg "y"
  | "set_index" => .setIndex <$> address
  | "jump_plus_v0" => .jumpPlusV0 <$> address
  | "random" => .random <$> vreg "x" <*> byte "kk"
  | "draw" => .draw <$> vreg "x" <*> vreg "y" <*> byte "n"
  | "skip_if_key_pressed" => .skipIfKeyPressed <$> vreg "x"
  | "skip_if_key_not_pressed" => .skipIfKeyNotPressed <$> vreg "x"
  | "load_delay" => .loadDelay <$> vreg "x"
  | "wait_key" => .waitKey <$> vreg "x"
  | "set_delay" => .setDelay <$> vreg "x"
  | "set_sound" => .setSound <$> vreg "x"
  | "add_index" => .addIndex <$> vreg "x"
  | "load_font" => .loadFont <$> vreg "x"
  | "load_bcd" => .loadBcd <$> vreg "x"
  | "store_registers" => .storeRegisters <$> vreg "x"
  | "load_registers" => .loadRegisters <$> vreg "x"
  | _ => none

/-- Reads an instruction. Members that its kind does not have are ignored. -/
def ofJson? (v : Json) : Option Instruction := do
  let (tag, members) ← v.tagged? "op" operandNames
  ofMembers? tag members

end Chip8.Instruction
