import Chip8.Json.Lexeme
import Chip8.Json.Printer
import Chip8.Proofs.Numeral

/-!
# Reading what was written: lexemes

A text between quotes is one lexeme, whatever its characters: each is read back from the way in which it
was written, be that itself, an escape, or a 16-bit unit (`Json.lexemes?_quote`). An integer is one lexeme as
long as no more of an atom stands behind it (`Json.lexemes?_int`).
-/

namespace Chip8.Json

variable {c : Char} {cs rest : List Char} {n : Nat} {ps : List Piece}

/-! ## Strings -/

/-- The piece as which a character is read back. -/
def Piece.of (c : Char) : Piece :=
  if c.toNat < 0x20 ∧ c ∉ ['\x08', '\x0c', '\n', '\r', '\t'] then .unit c.toNat else .char c

theorem Piece.of_eq_or (c : Char) :
    (Piece.of c = .unit c.toNat ∧ c.toNat < 0x20) ∨ Piece.of c = .char c := by
  unfold Piece.of
  split
  · next hc => exact .inl ⟨rfl, hc.1⟩
  · exact .inr rfl

/-- Puts a piece in front of those that were read. -/
def addPiece (p : Piece) : List Piece × List Char → List Piece × List Char
  | (ps, rest) => (p :: ps, rest)

/-- Four digits name every control character, the first two of them zeros. -/
theorem hexDigits_of_control : ∀ n < 0x20,
    (Numeral.hexDigits 4 n).toList = ['0', '0', Nat.digitChar (n / 16), Nat.digitChar (n % 16)] ∧
      unit? '0' '0' (Nat.digitChar (n / 16)) (Nat.digitChar (n % 16)) = some n := by
  have h : ∀ n < 0x20,
      List.replicate (4 - (Nat.toDigits 16 n).length) '0' ++ Nat.toDigits 16 n =
          ['0', '0', Nat.digitChar (n / 16), Nat.digitChar (n % 16)] ∧
        unit? '0' '0' (Nat.digitChar (n / 16)) (Nat.digitChar (n % 16)) = some n := by decide
  intro n hn
  rw [Numeral.toList_hexDigits]
  exact h n hn

theorem pieces?_escape {e : Char} (he : escape? e = some c) :
    pieces? ('\\' :: e :: cs) = addPiece (.char c) <$> pieces? cs := by
  have hu : e ≠ 'u' := by
    rintro rfl
    cases he
  rw [pieces?]
  · rw [he]
    cases pieces? cs <;> rfl
  · intro a b c d cs' heq
    exact absurd heq hu

theorem pieces?_unit {a b d e : Char} (h : unit? a b d e = some n) :
    pieces? ('\\' :: 'u' :: a :: b :: d :: e :: cs) = addPiece (.unit n) <$> pieces? cs := by
  rw [pieces?, h]
  cases pieces? cs <;> rfl

theorem pieces?_char (hquote : c ≠ '"') (hslash : c ≠ '\\') (hc : 0x20 ≤ c.toNat) :
    pieces? (c :: cs) = addPiece (.char c) <$> pieces? cs := by
  rw [pieces?]
  · rw [if_neg (Nat.not_lt.mpr hc)]
    cases pieces? cs <;> rfl
  all_goals simp_all

/-- **A character is read back as one piece.** -/
theorem pieces?_writeChar (c : Char) (cs : List Char) :
    pieces? ((writeChar c).toList ++ cs) = addPiece (.of c) <$> pieces? cs := by
  unfold writeChar
  split
  -- all cases but the last are escapes of one letter
  all_goals try exact pieces?_escape rfl
  next hquote hslash hb hf hn hr ht =>
  by_cases hc : c.toNat < 0x20
  · obtain ⟨hdigits, hunit⟩ := hexDigits_of_control c.toNat hc
    have hof : Piece.of c = .unit c.toNat := by
      unfold Piece.of
      rw [if_pos ⟨hc, by simp_all⟩]
    rw [if_pos hc, String.toList_append, hdigits, hof]
    exact pieces?_unit hunit
  · have hof : Piece.of c = .char c := by
      unfold Piece.of
      rw [if_neg fun h => hc h.1]
    rw [if_neg hc, String.toList_singleton, hof]
    exact pieces?_char hquote hslash (Nat.not_lt.mp hc)

theorem pieces?_join (l cs : List Char) :
    pieces? ((l.map writeChar).flatMap String.toList ++ '"' :: cs) = some (l.map .of, cs) := by
  induction l with
  | nil => rfl
  | cons c l ih =>
    simp only [List.map_cons, List.flatMap_cons, List.append_assoc]
    rw [pieces?_writeChar, ih]
    rfl

/-- A unit below the surrogates is a character by itself, whatever stands behind it. -/
theorem characters?_unit (h : n < 0xD800) :
    characters? (.unit n :: ps) = (Char.ofNat n :: ·) <$> characters? ps := by
  have hhigh : isHighSurrogate n = false := by simp [isHighSurrogate]; omega
  have hlow : isLowSurrogate n = false := by simp [isLowSurrogate]; omega
  rcases ps with - | ⟨c | u, ps⟩ <;> simp [characters?, hhigh, hlow]

/-- The pieces as which characters are read back give these characters. -/
theorem characters?_map_of (l : List Char) : characters? (l.map .of) = some l := by
  induction l with
  | nil => rfl
  | cons c l ih =>
    rcases Piece.of_eq_or c with ⟨hof, hc⟩ | hof
    · rw [List.map_cons, hof, characters?_unit (by omega), ih, Char.ofNat_toNat]
      rfl
    · rw [List.map_cons, hof, characters?, ih]
      rfl

/-! ## Lexemes -/

theorem lexemes?_of_isSpace (h : isSpace c = true) : lexemes? (c :: cs) = lexemes? cs := by
  rw [lexemes?, if_pos h]

/-- Space in front of lexemes does not count. -/
theorem lexemes?_append_of_isSpace {ws : List Char} (h : ∀ c ∈ ws, isSpace c = true) :
    lexemes? (ws ++ cs) = lexemes? cs := by
  induction ws with
  | nil => rfl
  | cons c ws ih =>
    rw [List.cons_append, lexemes?_of_isSpace (h c List.mem_cons_self)]
    exact ih fun d hd => h d (List.mem_cons_of_mem c hd)

theorem lexemes?_punctuation {p : Lexeme} (h : punctuation? c = some p) :
    lexemes? (c :: cs) = (p :: ·) <$> lexemes? cs := by
  have hspace : isSpace c = false := by
    unfold punctuation? at h
    split at h <;> first | rfl | cases h
  have hquote : c ≠ '"' := by
    rintro rfl
    cases h
  rw [lexemes?, hspace, if_neg Bool.false_ne_true, if_neg hquote, h]

/-- **A text between quotes is one lexeme**, and is read back. -/
theorem lexemes?_quote (s : String) (cs : List Char) :
    lexemes? ((quote s).toList ++ cs) = (.text (some s) :: ·) <$> lexemes? cs := by
  have hpieces : pieces? ((s.toList.map writeChar).flatMap String.toList ++ '"' :: cs) =
      some (s.toList.map .of, cs) := pieces?_join s.toList cs
  have htext : textOf (s.toList.map .of) = some s := by
    rw [textOf, characters?_map_of]
    exact congrArg some String.ofList_toList
  have hquote : (quote s).toList ++ cs =
      '"' :: ((s.toList.map writeChar).flatMap String.toList ++ '"' :: cs) := by
    simp [quote, String.toList_append, String.toList_join]
  rw [hquote, lexemes?, if_neg (by decide), if_pos rfl]
  split
  · next ps rest heq =>
    rw [hpieces] at heq
    obtain ⟨rfl, rfl⟩ := Prod.mk.inj (Option.some.inj heq)
    rw [htext]
  · next heq =>
    rw [hpieces] at heq
    cases heq

/-! ## Atoms -/

/-- What does not go on with more of an atom. -/
def Stops (rest : List Char) : Prop := ∀ c cs, rest = c :: cs → isAtomChar c = false

/-- No other lexeme starts with a character of an atom, and no space does. -/
theorem isAtomChar_excludes (h : isAtomChar c = true) :
    isSpace c = false ∧ c ≠ '"' ∧ punctuation? c = none := by
  refine ⟨?_, ?_, ?_⟩
  · simp only [isSpace, Bool.or_eq_false_iff, beq_eq_false_iff_ne]
    refine ⟨⟨⟨?_, ?_⟩, ?_⟩, ?_⟩ <;> · rintro rfl; exact absurd h (by decide)
  · rintro rfl
    exact absurd h (by decide)
  · unfold punctuation?
    split <;> first | exact absurd h (by decide) | rfl

/-- **A run of characters of an atom is one lexeme** if no more of them follow. -/
theorem lexemes?_atom {as : List Char} {v : Json} (hne : as ≠ []) (has : ∀ c ∈ as, isAtomChar c = true)
    (hrest : Stops rest) (h : atom? as = some v) :
    lexemes? (as ++ rest) = (.atom v :: ·) <$> lexemes? rest := by
  obtain ⟨c, cs, rfl⟩ := List.exists_cons_of_ne_nil hne
  obtain ⟨hspace, hquote, hpunctuation⟩ := isAtomChar_excludes (has c List.mem_cons_self)
  have hcs : ∀ d ∈ cs, isAtomChar d = true := fun d hd => has d (List.mem_cons_of_mem c hd)
  have hstop : rest.takeWhile isAtomChar = [] ∧ rest.dropWhile isAtomChar = rest := by
    cases rest with
    | nil => exact ⟨rfl, rfl⟩
    | cons d rest => simp [hrest d rest rfl]
  rw [List.cons_append, lexemes?, hspace, if_neg Bool.false_ne_true, if_neg hquote, hpunctuation,
    List.takeWhile_append_of_pos hcs, List.dropWhile_append_of_pos hcs, hstop.1, hstop.2,
    List.append_nil, h]
  rfl

/-! ## Integers -/

theorem hasLeadingZero_toDigits (n : Nat) : hasLeadingZero (Nat.toDigits 10 n) = false := by
  rcases Nat.eq_zero_or_pos n with rfl | hn
  · rfl
  · have hhead := toDigits_head_ne_zero hn
    unfold hasLeadingZero
    split
    · next heq =>
      rw [heq] at hhead
      exact absurd rfl hhead
    · rfl

theorem decimal_toDigits (n : Nat) : decimal (Nat.toDigits 10 n) = n := by
  have h := Nat.ofDigitChars_ten_toDigits (n := n)
  rw [Nat.ofDigitChars_eq_foldl] at h
  simpa only [decimal, Nat.mul_comm] using h

/-- An unsigned number is read back unless it is too long. -/
theorem unsigned?_toDigits (h : (Nat.toDigits 10 n).length ≤ maxIntDigits) :
    unsigned? (Nat.toDigits 10 n) = some (some n) := by
  have hdigit : ∀ c ∈ Nat.toDigits 10 n, c.isDigit = true := fun _ => isDigit_of_mem_toDigits
  have hdigits : digits? (Nat.toDigits 10 n) = some (Nat.toDigits 10 n, []) := by
    unfold digits?
    rw [List.takeWhile_eq_self_iff.mpr hdigit, List.dropWhile_eq_nil_iff.mpr hdigit]
    split
    · next heq => exact absurd heq Nat.toDigits_ne_nil
    · rfl
  rw [unsigned?, hdigits]
  show (if hasLeadingZero _ = true then none else if _ then some (some (decimal _)) else _) = _
  rw [hasLeadingZero_toDigits, if_neg Bool.false_ne_true, if_pos ⟨rfl, h⟩, decimal_toDigits]

/-- An integer is made of characters of an atom, and starts like no name. -/
theorem toString_int_chars (n : Int) :
    (toString n).toList ≠ [] ∧ (∀ c ∈ (toString n).toList, isAtomChar c = true) ∧
      ∀ c ∈ (toString n).toList.head?, c ∉ ['n', 't', 'f'] := by
  have hatom : ∀ c, c.isDigit = true → isAtomChar c = true := by
    intro c hc
    simp [isAtomChar, Char.isAlphanum, hc]
  have hname : ∀ c ∈ ['n', 't', 'f'], c.isDigit = false := by simp
  cases n with
  | ofNat n =>
    rw [toList_toString_ofNat]
    refine ⟨Nat.toDigits_ne_nil, fun c hc => hatom c (isDigit_of_mem_toDigits hc), fun c hc hmem => ?_⟩
    have hdigit := isDigit_of_mem_toDigits (List.mem_of_mem_head? hc)
    rw [hname c hmem] at hdigit
    cases hdigit
  | negSucc n =>
    rw [toList_toString_negSucc]
    refine ⟨List.cons_ne_nil _ _, ?_, ?_⟩
    · exact List.forall_mem_cons.mpr ⟨rfl, fun c hc => hatom c (isDigit_of_mem_toDigits hc)⟩
    · intro c hc
      rw [← Option.some.inj hc]
      decide

theorem number?_toString {n : Int} (h : (Nat.toDigits 10 n.natAbs).length ≤ maxIntDigits) :
    number? (toString n).toList = some (.int n) := by
  cases n with
  | ofNat n =>
    have hunsigned : unsigned? (Nat.toDigits 10 n) = some (some n) := unsigned?_toDigits h
    rw [toList_toString_ofNat]
    unfold number?
    split
    · next ds heq =>
      have hminus : '-' ∈ Nat.toDigits 10 n := by
        rw [heq]
        exact List.mem_cons_self
      exact absurd (isDigit_of_mem_toDigits hminus) (by decide)
    · rw [hunsigned]
      rfl
  | negSucc n =>
    have hunsigned : unsigned? (Nat.toDigits 10 (n + 1)) = some (some (n + 1)) := unsigned?_toDigits h
    rw [toList_toString_negSucc, number?, hunsigned]
    rfl

/-- **An integer that is not too long is one lexeme**, and is read back. -/
theorem lexemes?_int {n : Int} (h : (Nat.toDigits 10 n.natAbs).length ≤ maxIntDigits)
    (hrest : Stops rest) :
    lexemes? ((toString n).toList ++ rest) = (.atom (.int n) :: ·) <$> lexemes? rest := by
  obtain ⟨hne, hchars, hhead⟩ := toString_int_chars n
  have hatom : atom? (toString n).toList = some (.int n) := by
    unfold atom?
    rw [if_neg, if_neg, if_neg, number?_toString h]
    -- it is none of the three names
    all_goals
      intro heq
      rw [heq] at hhead
      exact hhead _ rfl (by decide)
  exact lexemes?_atom hne hchars hrest hatom

/-- The other atoms are read back. -/
theorem lexemes?_null (hrest : Stops rest) :
    lexemes? ("null".toList ++ rest) = (.atom .null :: ·) <$> lexemes? rest :=
  lexemes?_atom (List.cons_ne_nil _ _) (List.all_eq_true.mp rfl) hrest rfl

theorem lexemes?_bool (b : Bool) (hrest : Stops rest) :
    lexemes? ((writeAtom (.bool b)).toList ++ rest) = (.atom (.bool b) :: ·) <$> lexemes? rest := by
  cases b
  · exact lexemes?_atom (List.cons_ne_nil _ _) (List.all_eq_true.mp rfl) hrest rfl
  · exact lexemes?_atom (List.cons_ne_nil _ _) (List.all_eq_true.mp rfl) hrest rfl

/-- What starts like no lexeme is cut into none. -/
theorem lexemes?_eq_none (hspace : isSpace c = false) (hpunctuation : punctuation? c = none)
    (hc : c ∉ ['"', '-', 'n', 't', 'f']) (hdigit : c.isDigit = false) : lexemes? (c :: cs) = none := by
  simp only [List.mem_cons, List.not_mem_nil, or_false, not_or] at hc
  obtain ⟨hquote, hminus, hnames⟩ := hc
  have hunsigned : unsigned? (c :: cs.takeWhile isAtomChar) = none := by
    simp [unsigned?, digits?, hdigit]
  have hatom : atom? (c :: cs.takeWhile isAtomChar) = none := by
    simp [atom?, number?, hminus, hnames, hunsigned]
  rw [lexemes?, hspace, if_neg Bool.false_ne_true, if_neg hquote, hpunctuation, hatom]
  rfl

end Chip8.Json
