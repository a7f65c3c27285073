/-!
# Words and their bit fields

A CHIP-8 program is a row of 16-bit words, each stored with its high byte first. The top four bits
of a word choose its family; what the other twelve mean depends on the family, so the fields overlap:

```
  15..12   11..8   7..4   3..0
  family     x       y      n
                   [ byte     ]
           [ address          ]
```

Words are read from bytes in two ways: from the front of a window, where a missing byte is an error
that tells how many there were, and at an offset, where it is just the absence of a word.
-/

namespace Chip8

/-- One 16-bit instruction word. -/
abbrev Word := UInt16

/-- A place in memory. Arithmetic on addresses wraps at `2 ^ 16`. -/
abbrev Address := UInt16

/-- The content of a file or of a piece of memory. -/
abbrev Bytes := Array UInt8

namespace Word

/-- How many bytes a word, and so every instruction, takes. -/
def width : UInt16 := 2

/-- The address of the word behind the one at `a`. -/
def next (a : Address) : Address := a + width

/-! ## Bytes of a word -/

/-- The word stored as `hi` and then `lo`. -/
def ofBytes (hi lo : UInt8) : Word := hi.toUInt16 <<< 8 ||| lo.toUInt16

/-- The byte that is stored first. -/
def highByte (w : Word) : UInt8 := (w >>> 8).toUInt8

/-- The byte that is stored second. -/
def lowByte (w : Word) : UInt8 := w.toUInt8

/-! ## Fields -/

/-- Bits 15 to 12: the family. -/
def family (w : Word) : UInt8 := (w >>> 12).toUInt8

/-- Bits 11 to 0: an address in the 4 KiB memory. -/
def address (w : Word) : Address := w &&& 0x0FFF

/-- Bits 11 to 8: the index of the first register. -/
def x (w : Word) : UInt8 := ((w >>> 8) &&& 0xF).toUInt8

/-- Bits 7 to 4: the index of the second register. -/
def y (w : Word) : UInt8 := ((w >>> 4) &&& 0xF).toUInt8

/-- Bits 7 to 0: an immediate byte. -/
def byte (w : Word) : UInt8 := (w &&& 0xFF).toUInt8

/-- Bits 3 to 0: an immediate nibble. -/
def nibble (w : Word) : UInt8 := (w &&& 0xF).toUInt8

/-! ## Reading -/

/-- A window that is too short to hold a word. -/
structure Truncated where
  length : Nat
  deriving DecidableEq, Repr

/-- What is said about a window that is too short. -/
def Truncated.message (e : Truncated) : String :=
  "instruction window holds " ++ toString e.length ++ " byte(s), need 2"

/-- The word that starts at `offset`, if both its bytes are there. -/
def at? (bytes : Bytes) (offset : Nat) : Option Word := do
  let hi ← bytes[offset]?
  let lo ← bytes[offset + 1]?
  return ofBytes hi lo

/-- The word at the front of `window`. -/
def first (window : Bytes) : Except Truncated Word :=
  match at? window 0 with
  | some w => .ok w
  | none => .error ⟨window.size⟩

end Word

end Chip8
