import Chip8.Json.Basic

/-!
# Lexemes of JSON text

The text of a document is cut into punctuation, strings and atoms (numbers and the three names). An
atom is the longest run of characters that can occur in one, which is then read as a whole: a run
such as `1true` is no lexeme, and no document has two atoms without punctuation between them.

A string is read in two passes. The first finds its end and turns escapes into characters or 16-bit
units; the second pairs the units that are surrogates.
-/

namespace Chip8.Json

/-- A lexeme. -/
inductive Lexeme where
  | openList
  | closeList
  | openObject
  | closeObject
  | comma
  | colon
  | atom (value : Json)
  | text (s : Text)

/-! ## Strings -/

/-- A piece of a string literal: a character, or the 16-bit unit that `\u` names. -/
inductive Piece where
  | char (c : Char)
  | unit (u : Nat)
  deriving DecidableEq, Repr

/-- The character of a one-letter escape. -/
def escape? : Char → Option Char
  | '"' => some '"'
  | '\\' => some '\\'
  | '/' => some '/'
  | 'b' => some '\x08'
  | 'f' => some '\x0c'
  | 'n' => some '\n'
  | 'r' => some '\r'
  | 't' => some '\t'
  | _ => none

/-- The value of a hexadecimal digit. -/
def hexDigit? (c : Char) : Option Nat :=
  if c.isDigit then some (c.toNat - '0'.toNat)
  else if 'a' ≤ c ∧ c ≤ 'f' then some (c.toNat - 'a'.toNat + 10)
  else if 'A' ≤ c ∧ c ≤ 'F' then some (c.toNat - 'A'.toNat + 10)
  else none

/-- The unit that four hexadecimal digits name. -/
def unit? (a b c d : Char) : Option Nat := do
  let a ← hexDigit? a
  let b ← hexDigit? b
  let c ← hexDigit? c
  let d ← hexDigit? d
  return ((a * 16 + b) * 16 + c) * 16 + d

/-- The pieces up to the closing quote, and what stands behind it. -/
def pieces? : List Char → Option (List Piece × List Char)
  | [] => none
  | '"' :: cs => some ([], cs)
  | '\\' :: 'u' :: a :: b :: c :: d :: cs => do
    let u ← unit? a b c d
    let (ps, rest) ← pieces? cs
    return (.unit u :: ps, rest)
  | '\\' :: e :: cs => do
    let c ← escape? e
    let (ps, rest) ← pieces? cs
    return (.char c :: ps, rest)
  | c :: cs =>
    if c.toNat < 0x20 then none
    else do
      let (ps, rest) ← pieces? cs
      return (.char c :: ps, rest)

/-- A string takes at least its closing quote. -/
theorem length_lt_of_pieces? {cs rest : List Char} {ps : List Piece}
    (h : pieces? cs = some (ps, rest)) : rest.length < cs.length := by
  fun_induction pieces? cs generalizing ps rest with
  | case1 => cases h
  | case2 cs =>
    cases h
    simp
  | case3 a b c d cs ih =>
    simp only [Option.bind_eq_bind, Option.bind_eq_some_iff] at h
    obtain ⟨u, -, ⟨qs, r⟩, hq, hr⟩ := h
    cases hr
    have := ih hq
    simp only [List.length_cons]
    omega
  | case4 e cs _ ih =>
    simp only [Option.bind_eq_bind, Option.bind_eq_some_iff] at h
    obtain ⟨c, -, ⟨qs, r⟩, hq, hr⟩ := h
    cases hr
    have := ih hq
    simp only [List.length_cons]
    omega
  | case5 => cases h
  | case6 c cs _ _ _ _ ih =>
    simp only [Option.bind_eq_bind, Option.bind_eq_some_iff] at h
    obtain ⟨⟨qs, r⟩, hq, hr⟩ := h
    cases hr
    have := ih hq
    simp only [List.length_cons]
    omega

/-- The first half of a surrogate pair. -/
def isHighSurrogate (u : Nat) : Bool := 0xD800 ≤ u && u < 0xDC00

/-- The second half of a surrogate pair. -/
def isLowSurrogate (u : Nat) : Bool := 0xDC00 ≤ u && u < 0xE000

/-- The characters of the pieces, if every surrogate has its other half. -/
def characters? : List Piece → Option (List Char)
  | [] => some []
  | .char c :: ps => (c :: ·) <$> characters? ps
  | .unit h :: .unit l :: ps =>
    if isHighSurrogate h && isLowSurrogate l then
      (Char.ofNat (0x10000 + (h - 0xD800) * 0x400 + (l - 0xDC00)) :: ·) <$> characters? ps
    else if isHighSurrogate h || isLowSurrogate h then none
    else (Char.ofNat h :: ·) <$> characters? (.unit l :: ps)
  | .unit u :: ps =>
    if isHighSurrogate u || isLowSurrogate u then none
    else (Char.ofNat u :: ·) <$> characters? ps

/-- What a string literal with these pieces denotes. -/
def textOf (ps : List Piece) : Text := String.ofList <$> characters? ps

/-! ## Atoms -/

/-- Whether a character can occur in a number or a name. -/
def isAtomChar (c : Char) : Bool := c.isAlphanum || c == '-' || c == '+' || c == '.'

/-- Reads `cs` as digits, at least one of them, and gives what stands behind. -/
def digits? (cs : List Char) : Option (List Char × List Char) :=
  match cs.takeWhile Char.isDigit with
  | [] => none
  | ds => some (ds, cs.dropWhile Char.isDigit)

/-- Drops the fraction of a number, if there is one. -/
def fraction? : List Char → Option (List Char)
  | '.' :: cs => Prod.snd <$> digits? cs
  | cs => some cs

/-- Drops the exponent of a number, if there is one. -/
def exponent? : List Char → Option (List Char)
  | e :: cs =>
    if e = 'e' ∨ e = 'E' then
      Prod.snd <$> digits? (if cs.head? = some '+' ∨ cs.head? = some '-' then cs.tail else cs)
    else some (e :: cs)
  | [] => some []

/-- The value of decimal digits. -/
def decimal (ds : List Char) : Nat := ds.foldl (fun n c => n * 10 + (c.toNat - '0'.toNat)) 0

/-- Whether an integer part has a leading zero that does not stand alone. -/
def hasLeadingZero : List Char → Bool
  | '0' :: _ :: _ => true
  | _ => false

/-- The digits of the longest number that is taken for an integer. All of 64 bits have fewer. -/
def maxIntDigits : Nat := 20

/--
Reads a number without its sign: no leading zeros, a digit on each side of the point, a digit in the
exponent. Gives the value if the number is an integer, and not too long for one.
-/
def unsigned? (cs : List Char) : Option (Option Nat) := do
  let (ds, tail) ← digits? cs
  match ← exponent? (← fraction? tail) with
  | [] =>
    if hasLeadingZero ds then none
    else if tail.isEmpty ∧ ds.length ≤ maxIntDigits then some (some (decimal ds))
    else some none
  | _ :: _ => none

/-- Reads a number. -/
def number? (cs : List Char) : Option Json :=
  let real := Json.real (String.ofList cs)
  match cs with
  | '-' :: ds =>
    (fun
      | some (n + 1) => .int (.negSucc n)
      | _ => real) <$> unsigned? ds
  | ds =>
    (fun
      | some n => .int (.ofNat n)
      | none => real) <$> unsigned? ds

/-- The value of an atom. -/
def atom? (cs : List Char) : Option Json :=
  if cs = "null".toList then some .null
  else if cs = "true".toList then some (.bool true)
  else if cs = "false".toList then some (.bool false)
  else number? cs

/-! ## Cutting the text -/

/-- The characters that may stand between lexemes. -/
def isSpace (c : Char) : Bool := c == ' ' || c == '\t' || c == '\n' || c == '\r'

/-- The lexeme that is this one character. -/
def punctuation? : Char → Option Lexeme
  | '[' => some .openList
  | ']' => some .closeList
  | '\x7b' => some .openObject
  | '\x7d' => some .closeObject
  | ',' => some .comma
  | ':' => some .colon
  | _ => none

/-- The lexemes of a text. -/
def lexemes? : List Char → Option (List Lexeme)
  | [] => some []
  | c :: cs =>
    if isSpace c then lexemes? cs
    else if c = '"' then
      match _h : pieces? cs with
      | some (ps, rest) => (.text (textOf ps) :: ·) <$> lexemes? rest
      | none => none
    else
      match punctuation? c with
      | some p => (p :: ·) <$> lexemes? cs
      | none => do
        let v ← atom? (c :: cs.takeWhile isAtomChar)
        (.atom v :: ·) <$> lexemes? (cs.dropWhile isAtomChar)
termination_by cs => cs.length
decreasing_by
  · simp
  · have := length_lt_of_pieces? _h
    simp; omega
  · simp
  · have := (List.dropWhile_sublist isAtomChar (l := cs)).length_le
    simp; omega

end Chip8.Json
