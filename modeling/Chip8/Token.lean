import Chip8.Numeral
import Chip8.Register

/-!
# Tokens

A line of disassembly is a list of tokens: pieces of text that know what they are. A token that shows
a number also carries it, so that a viewer can follow an address without reading the text again.
-/

namespace Chip8

namespace Token

/-- What a token is. -/
inductive Kind where
  | instruction
  | text
  | register
  | operandSeparator
  | integer
  | possibleAddress
  | hexDumpByte
  deriving DecidableEq, Repr

/-- Every kind. -/
def Kind.all : List Kind :=
  [instruction, text, register, operandSeparator, integer, possibleAddress, hexDumpByte]

/-- The name under which data files refer to a kind. -/
def Kind.name : Kind → String
  | instruction => "Instruction"
  | text => "Text"
  | register => "Register"
  | operandSeparator => "OperandSeparator"
  | integer => "Integer"
  | possibleAddress => "PossibleAddress"
  | hexDumpByte => "HexDumpByte"

/-- The kind with this name. -/
def Kind.ofName? (name : String) : Option Kind := all.find? (·.name == name)

end Token

/-- A piece of disassembly. -/
structure Token where
  kind : Token.Kind
  text : String
  value : Option UInt16
  deriving DecidableEq, Repr

namespace Token

/-- The mnemonic. -/
def mnemonic (s : String) : Token := ⟨.instruction, s, none⟩

/-- Text that means nothing by itself. -/
def plain (s : String) : Token := ⟨.text, s, none⟩

/-- What stands between two operands. -/
def separator (s : String) : Token := ⟨.operandSeparator, s, none⟩

/-- A register. -/
def register (r : Register) : Token := ⟨.register, r.text, none⟩

/-- A number in its shortest hexadecimal form. -/
def number (kind : Kind) (n : UInt16) : Token := ⟨kind, Numeral.hex n.toNat, some n⟩

/-- The text of a list of tokens. -/
def render (tokens : List Token) : String := String.join (tokens.map text)

end Token

end Chip8
