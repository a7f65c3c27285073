/-!
# Registers

The names that stand for registers in operands, and the register file of the machine. The two
overlap but neither holds the other: `K`, `B` and `F` mark operand forms and name no register, while
`PC` and `SP` are registers that no operand names.
-/

namespace Chip8

/-- A register name as it appears in operands. -/
inductive Register where
  | general (index : Fin 16)
  | index
  | delay
  | sound
  | key
  | bcd
  | font
  deriving DecidableEq, Repr

namespace Register

/-- The name of a general register. -/
def generalText (i : Fin 16) : String := String.ofList ['V', Nat.digitChar i]

/-- The name as listings show it. -/
def text : Register → String
  | general i => generalText i
  | index => "I"
  | delay => "DT"
  | sound => "ST"
  | key => "K"
  | bcd => "B"
  | font => "F"

/-- The name under which data files refer to the register: one capital, then lower case. -/
def label : Register → String
  | general i => generalText i
  | index => "I"
  | delay => "Dt"
  | sound => "St"
  | key => "K"
  | bcd => "B"
  | font => "F"

/-- Every register name, the general registers first. -/
def all : List Register :=
  (List.finRange 16).map general ++ [index, delay, sound, key, bcd, font]

/-- The register that a data file calls `name`. -/
def ofLabel? (name : String) : Option Register := all.find? (·.label == name)

/-- The index of a general register. -/
def generalIndex? : Register → Option (Fin 16)
  | general i => some i
  | _ => none

end Register

/-! ## Register operands -/

/--
The register operand of an instruction: an index whose low four bits choose among `V0` to `VF`.
Decoding keeps it below 16; an instruction read from a data file may hold any byte.
-/
structure VReg where
  index : UInt8
  deriving DecidableEq, Repr

namespace VReg

/-- The operand with the low four bits of `i`. -/
def ofByte (i : UInt8) : VReg := ⟨i &&& 0xF⟩

/-- Which of the sixteen general registers is meant. -/
def general (v : VReg) : Fin 16 := Fin.ofNat 16 v.index.toNat

/-- The register that is meant. -/
def register (v : VReg) : Register := .general v.general

end VReg

/-! ## The register file -/

/-- A register of the machine and its size in bytes. -/
structure RegisterInfo where
  name : String
  size : Nat
  deriving DecidableEq, Repr

/-- The registers of the machine: the special ones, then the general ones. -/
def registerFile : List RegisterInfo :=
  [⟨"PC", 2⟩, ⟨"SP", 1⟩, ⟨"I", 2⟩, ⟨"DT", 1⟩, ⟨"ST", 1⟩] ++
    (List.finRange 16).map fun i => ⟨Register.generalText i, 1⟩

/-- The register of the machine with this name. -/
def RegisterInfo.find? (name : String) : Option RegisterInfo :=
  registerFile.find? (·.name == name)

end Chip8
