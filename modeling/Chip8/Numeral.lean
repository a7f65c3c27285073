import Chip8.Blank

/-!
# Numerals

How numbers are written in listings, and how they are read from text that a person typed.

Numbers are written in lower-case hexadecimal behind `0x`, either with as few digits as possible or
padded with zeros to a fixed count. They are read digit by digit: the leftmost fault decides, and at
one place a wrong digit comes before a value that has grown too large.
-/

namespace Chip8.Numeral

/-! ## Writing -/

/-- The hexadecimal digits of `n`, at least `count` of them. -/
def hexDigits (count n : Nat) : String :=
  String.ofList ((Nat.toDigits 16 n).leftpad count '0')

/-- `n` behind `0x`, with at least `count` digits. -/
def hexPadded (count n : Nat) : String := "0x" ++ hexDigits count n

/-- `n` behind `0x`, with as few digits as possible. -/
def hex (n : Nat) : String := hexPadded 1 n

/-- The usual form of an address: four digits. -/
def address (a : UInt16) : String := hexPadded 4 a.toNat

/-! ## Reading -/

/-- Why a text is not a number. -/
inductive Fault where
  | empty
  | invalidDigit
  | tooLarge
  deriving DecidableEq, Repr

/-- What is said about a text that is not a number. -/
def Fault.message : Fault → String
  | .empty => "cannot parse integer from empty string"
  | .invalidDigit => "invalid digit found in string"
  | .tooLarge => "number too large to fit in target type"

/-- The value of an ASCII digit or letter below `radix`. -/
def digit? (radix : Nat) (c : Char) : Option Nat :=
  let value :=
    if '0' ≤ c ∧ c ≤ '9' then c.toNat - '0'.toNat
    else if 'a' ≤ c ∧ c ≤ 'z' then c.toNat - 'a'.toNat + 10
    else if 'A' ≤ c ∧ c ≤ 'Z' then c.toNat - 'A'.toNat + 10
    else radix
  if value < radix then some value else none

/-- Reads digits behind a number whose value so far is `value`. The value may not exceed `limit`. -/
def readDigits (radix limit : Nat) (value : Nat) : List Char → Except Fault Nat
  | [] => .ok value
  | c :: cs =>
    match digit? radix c with
    | none => .error .invalidDigit
    | some d =>
      if value * radix + d ≤ limit then readDigits radix limit (value * radix + d) cs
      else .error .tooLarge

/-- Reads an unsigned number. One `+` may stand in front of the digits. -/
def read (radix limit : Nat) : List Char → Except Fault Nat
  | [] => .error .empty
  | ['+'] => .error .invalidDigit
  | '+' :: cs => readDigits radix limit 0 cs
  | cs => readDigits radix limit 0 cs

/-- Reads an address: hexadecimal behind `0x` or `0X`, else decimal. Blanks around it are ignored. -/
def readAddress (s : String) : Except Fault UInt16 :=
  let limit := UInt16.size - 1
  UInt16.ofNat <$>
    match Blank.trim s.toList with
    | '0' :: 'x' :: cs => read 16 limit cs
    | '0' :: 'X' :: cs => read 16 limit cs
    | cs => read 10 limit cs

/-- The largest size or count: 64 bits hold it. -/
def maxSize : Nat := UInt64.size - 1

/-- Reads a size or count: decimal, with nothing around it. -/
def readSize (s : String) : Except Fault Nat := read 10 maxSize s.toList

end Chip8.Numeral
