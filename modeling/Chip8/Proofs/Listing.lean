import Chip8.Listing
import Chip8.Proofs.Basic
import Chip8.Proofs.Disassembly
import Chip8.Proofs.Image.Program
import Chip8.Proofs.Numeral
import Chip8.Proofs.Word

/-!
# Reading listings

What a line of a listing says is read off its text: where it stands, how many bytes it is about, and, in a
listing with bytes, which bytes these are. Nothing else about a line is needed to say what a listing shows.

The lines of a range stand at every other address (`Image.rangeLines_eq_map`), and there are as many as
start in the range without a gap in front of them (`Image.lt_length_rangeLines_iff`).
-/

namespace Chip8

/-! ## What a line says -/

namespace Line

/-- Where a line stands: the address in front of the colon. -/
def address? (line : String) : Option Address :=
  (Numeral.readAddress (String.ofList (line.toList.takeWhile (· != ':')))).toOption

/-- What stands behind the address, the colon and a blank. -/
def body (line : String) : List Char := (line.toList.dropWhile (· != ':')).drop 2

/-- Whether a line says that there is no byte at its address. -/
def isOutside (line : String) : Bool := body line == "<oob>".toList

/-- Whether a line is about a single byte. -/
def isByte (line : String) : Bool := ".byte ".toList.isPrefixOf (body line)

/-- How many bytes a line is about. -/
def width (line : String) : Nat :=
  if isOutside line then 0 else if isByte line then 1 else Word.width.toNat

/-- The byte with these digits. -/
def byte? (digits : List Char) : Option UInt8 :=
  (UInt8.ofNat <$> Numeral.read 16 (UInt8.size - 1) digits).toOption

/-- The bytes that a line shows: one behind `.byte 0x`, or else two at the front. -/
def bytes (line : String) : List UInt8 :=
  let shown :=
    if isByte line then [(body line).drop 8] else [(body line).take 2, ((body line).drop 3).take 2]
  shown.filterMap byte?

variable {a : Address} {s : String}

theorem toList_at (a : Address) (s : String) :
    (Numeral.address a ++ ": " ++ s).toList = (Numeral.address a).toList ++ ':' :: ' ' :: s.toList := by
  rw [String.toList_append, String.toList_append, List.append_assoc]
  rfl

theorem ne_colon_of_mem_address {c : Char} (h : c ∈ (Numeral.address a).toList) :
    (c != ':') = true :=
  Numeral.forall_mem_hexPadded (P := fun c => (c != ':') = true) (by decide) (by decide) c h

@[simp]
theorem address?_at (a : Address) (s : String) : address? (Numeral.address a ++ ": " ++ s) = some a := by
  have htake : (Numeral.address a ++ ": " ++ s).toList.takeWhile (· != ':') =
      (Numeral.address a).toList := by
    rw [toList_at, List.takeWhile_append_of_pos fun _ => ne_colon_of_mem_address,
      List.takeWhile_cons_of_neg (by decide), List.append_nil]
  rw [address?, htake, String.ofList_toList, Numeral.readAddress_address]
  rfl

@[simp]
theorem body_at (a : Address) (s : String) : body (Numeral.address a ++ ": " ++ s) = s.toList := by
  rw [body, toList_at, List.dropWhile_append_of_pos fun _ => ne_colon_of_mem_address,
    List.dropWhile_cons_of_neg (by decide)]
  rfl

@[simp]
theorem byte?_hexDigits (b : UInt8) : byte? (Numeral.hexDigits 2 b.toNat).toList = some b := by
  have hle : b.toNat ≤ UInt8.size - 1 := Nat.le_sub_one_of_lt b.toNat_lt
  rw [byte?, Numeral.read_hexDigits 2 hle]
  show some (UInt8.ofNat b.toNat) = _
  rw [UInt8.ofNat_toNat]

end Line

/-! ## Lines for words -/

namespace Word

/-- What the line for a word shows behind the address. -/
def shown (showBytes : Bool) (w : Word) : String :=
  (if showBytes then
    Numeral.hexDigits 2 w.highByte.toNat ++ " " ++ Numeral.hexDigits 2 w.lowByte.toNat ++ "   "
  else "") ++ w.text

@[simp]
theorem length_hexDigits_byte (b : UInt8) : (Numeral.hexDigits 2 b.toNat).toList.length = 2 := by
  refine Numeral.length_hexDigits ((Nat.length_toDigits_le_iff (by decide) (by decide)).mpr ?_)
  exact b.toNat_lt

theorem toList_shown_true (w : Word) :
    (w.shown true).toList =
      (Numeral.hexDigits 2 w.highByte.toNat).toList ++ ' ' ::
        ((Numeral.hexDigits 2 w.lowByte.toNat).toList ++ ("   " ++ w.text).toList) := by
  simp [shown, String.toList_append]

/-- No line for a word starts as a line for a byte, or for none, does. -/
theorem shown_head (showBytes : Bool) (w : Word) :
    ∃ c cs, (w.shown showBytes).toList = c :: cs ∧ c ≠ '.' ∧ c ≠ '<' := by
  cases showBytes with
  | false =>
    obtain ⟨c, cs, hcs, hc⟩ := w.text_head
    have htext : w.shown false = w.text := String.empty_append
    refine ⟨c, cs, by rw [htext, hcs], ?_, ?_⟩
    · rintro rfl
      exact absurd hc (by decide)
    · rintro rfl
      exact absurd hc (by decide)
  | true =>
    have hdigit : ∀ d < 16, Nat.digitChar d ≠ '.' ∧ Nat.digitChar d ≠ '<' := by decide
    obtain ⟨d, hd, cs, hcs⟩ := Numeral.hexDigits_head 2 w.highByte.toNat
    have hshown := w.toList_shown_true
    rw [hcs, List.cons_append] at hshown
    exact ⟨_, _, hshown, hdigit d hd⟩

end Word

namespace Line

variable {a : Address} {w : Word} {showBytes : Bool}

@[simp]
theorem isOutside_word : isOutside (Numeral.address a ++ ": " ++ w.shown showBytes) = false := by
  obtain ⟨c, cs, hcs, -, hc⟩ := w.shown_head showBytes
  rw [isOutside, body_at, hcs, beq_eq_false_iff_ne]
  intro h
  exact hc (List.cons.inj h).1

@[simp]
theorem isByte_word : isByte (Numeral.address a ++ ": " ++ w.shown showBytes) = false := by
  obtain ⟨c, cs, hcs, hc, -⟩ := w.shown_head showBytes
  rw [isByte, body_at, hcs]
  show (('.' == c) && _) = false
  rw [beq_eq_false_iff_ne.mpr hc.symm, Bool.false_and]

/-- In a listing with bytes the line for a word shows its two bytes. -/
@[simp]
theorem bytes_word : bytes (Numeral.address a ++ ": " ++ w.shown true) = [w.highByte, w.lowByte] := by
  have hhi := Word.length_hexDigits_byte w.highByte
  have hlo := Word.length_hexDigits_byte w.lowByte
  have hfirst : (w.shown true).toList.take 2 = (Numeral.hexDigits 2 w.highByte.toNat).toList := by
    rw [w.toList_shown_true, List.take_left' hhi]
  have hsecond : ((w.shown true).toList.drop 3).take 2 =
      (Numeral.hexDigits 2 w.lowByte.toNat).toList := by
    rw [w.toList_shown_true, ← List.drop_drop (i := 1) (j := 2), List.drop_left' hhi]
    exact List.take_left' hlo
  simp only [bytes, isByte_word, body_at, hfirst, hsecond, Bool.false_eq_true, if_false,
    List.filterMap_cons, List.filterMap_nil, byte?_hexDigits]

/-! ### Lines for less than a word -/

theorem toList_byte (b : UInt8) :
    (".byte " ++ Numeral.hexPadded 2 b.toNat).toList =
      ".byte 0x".toList ++ (Numeral.hexDigits 2 b.toNat).toList := by
  simp [Numeral.hexPadded, String.toList_append]

@[simp]
theorem isOutside_byte (a : Address) (b : UInt8) :
    isOutside (Numeral.address a ++ ": " ++ (".byte " ++ Numeral.hexPadded 2 b.toNat)) = false := by
  rw [isOutside, body_at, toList_byte]
  rfl

@[simp]
theorem isByte_byte (a : Address) (b : UInt8) :
    isByte (Numeral.address a ++ ": " ++ (".byte " ++ Numeral.hexPadded 2 b.toNat)) = true := by
  rw [isByte, body_at, toList_byte]
  rfl

/-- The line for a single byte shows this byte. -/
@[simp]
theorem bytes_byte (a : Address) (b : UInt8) :
    bytes (Numeral.address a ++ ": " ++ (".byte " ++ Numeral.hexPadded 2 b.toNat)) = [b] := by
  have hdigits : (".byte " ++ Numeral.hexPadded 2 b.toNat).toList.drop 8 =
      (Numeral.hexDigits 2 b.toNat).toList := by
    rw [toList_byte]
    rfl
  simp only [bytes, isByte_byte, body_at, hdigits, if_true, List.filterMap_cons,
    List.filterMap_nil, byte?_hexDigits]

@[simp]
theorem isOutside_none (a : Address) : isOutside (Numeral.address a ++ ": " ++ "<oob>") = true := by
  rw [isOutside, body_at]
  rfl

@[simp]
theorem isByte_none (a : Address) : isByte (Numeral.address a ++ ": " ++ "<oob>") = false := by
  rw [isByte, body_at]
  rfl

end Line

/-! ## The line at an address -/

namespace Image

variable {img : Image} {showBytes : Bool} {a : Address} {w : Word} {b : UInt8}

/-- The line that a range shows at an address, whether a word starts there or not. -/
def lineAt (img : Image) (showBytes : Bool) (a : Address) : String :=
  (img.line? showBytes a).getD (img.lastLine a)

theorem line?_eq (img : Image) (showBytes : Bool) (a : Address) :
    img.line? showBytes a =
      (img.word? a).map fun w => Numeral.address a ++ ": " ++ w.shown showBytes := by
  unfold line?
  cases img.word? a with
  | none => rfl
  | some w =>
    show some (Numeral.address a ++ ": " ++ _ ++ w.text) =
      some (Numeral.address a ++ ": " ++ (_ ++ w.text))
    simp only [String.append_assoc]

theorem lineAt_of_word (h : img.word? a = some w) :
    img.lineAt showBytes a = Numeral.address a ++ ": " ++ w.shown showBytes := by
  rw [lineAt, line?_eq, h]
  rfl

theorem lineAt_of_byte (h : img.word? a = none) (hb : img.byte? a = some b) :
    img.lineAt showBytes a = Numeral.address a ++ ": " ++ (".byte " ++ Numeral.hexPadded 2 b.toNat) := by
  have hsplit : ": .byte " = ": " ++ ".byte " := rfl
  rw [lineAt, line?_eq, h]
  show img.lastLine a = _
  simp only [lastLine, hb, hsplit, String.append_assoc]

theorem lineAt_of_none (h : img.word? a = none) (hb : img.byte? a = none) :
    img.lineAt showBytes a = Numeral.address a ++ ": " ++ "<oob>" := by
  have hsplit : ": <oob>" = ": " ++ "<oob>" := rfl
  rw [lineAt, line?_eq, h]
  show img.lastLine a = _
  simp only [lastLine, hb, hsplit, String.append_assoc]

/-- There are three kinds of lines. -/
theorem lineAt_cases (img : Image) (showBytes : Bool) (a : Address) :
    (∃ w, img.word? a = some w ∧
        img.lineAt showBytes a = Numeral.address a ++ ": " ++ w.shown showBytes) ∨
      (∃ b, img.word? a = none ∧ img.byte? a = some b ∧ img.lineAt showBytes a =
        Numeral.address a ++ ": " ++ (".byte " ++ Numeral.hexPadded 2 b.toNat)) ∨
      (img.word? a = none ∧ img.byte? a = none ∧
        img.lineAt showBytes a = Numeral.address a ++ ": " ++ "<oob>") := by
  cases hw : img.word? a with
  | some w => exact Or.inl ⟨w, rfl, lineAt_of_word hw⟩
  | none =>
    cases hb : img.byte? a with
    | some b => exact Or.inr (Or.inl ⟨b, rfl, rfl, lineAt_of_byte hw hb⟩)
    | none => exact Or.inr (Or.inr ⟨rfl, rfl, lineAt_of_none hw hb⟩)

/-- Every line stands at its address. -/
@[simp]
theorem address?_lineAt (img : Image) (showBytes : Bool) (a : Address) :
    Line.address? (img.lineAt showBytes a) = some a := by
  obtain ⟨w, -, hline⟩ | ⟨b, -, -, hline⟩ | ⟨-, -, hline⟩ := lineAt_cases img showBytes a
  all_goals simp [hline]

@[simp]
theorem isOutside_lineAt (img : Image) (showBytes : Bool) (a : Address) :
    Line.isOutside (img.lineAt showBytes a) = (img.byte? a).isNone := by
  obtain ⟨w, hw, hline⟩ | ⟨b, -, hb, hline⟩ | ⟨-, hb, hline⟩ := lineAt_cases img showBytes a
  · obtain ⟨-, hi, lo, hhi, -, -⟩ := bytes_of_word? hw
    simp [hline, hhi]
  · simp [hline, hb]
  · simp [hline, hb]

@[simp]
theorem isByte_lineAt (img : Image) (showBytes : Bool) (a : Address) :
    Line.isByte (img.lineAt showBytes a) = ((img.word? a).isNone && (img.byte? a).isSome) := by
  obtain ⟨w, hw, hline⟩ | ⟨b, hw, hb, hline⟩ | ⟨hw, hb, hline⟩ := lineAt_cases img showBytes a
  · simp [hline, hw]
  · simp [hline, hw, hb]
  · simp [hline, hw, hb]

/-- A line is about two bytes if a word starts at its address, and else about those that are there. -/
@[simp]
theorem width_lineAt (img : Image) (showBytes : Bool) (a : Address) :
    Line.width (img.lineAt showBytes a) =
      if (img.word? a).isSome then 2 else if (img.byte? a).isSome then 1 else 0 := by
  rw [Line.width, isOutside_lineAt, isByte_lineAt]
  cases hw : img.word? a with
  | some w =>
    obtain ⟨-, hi, lo, hhi, -, -⟩ := bytes_of_word? hw
    rw [hhi]
    rfl
  | none => cases img.byte? a <;> rfl

@[simp]
theorem oneLine_lineAt (img : Image) (showBytes : Bool) (a : Address) :
    OneLine (img.lineAt showBytes a) := by
  have hfixed : OneLine ": " ∧ OneLine " " ∧ OneLine "   " ∧ OneLine "" ∧ OneLine ".byte " ∧
      OneLine "<oob>" := by
    decide
  obtain ⟨w, -, hline⟩ | ⟨b, -, -, hline⟩ | ⟨-, -, hline⟩ := lineAt_cases img showBytes a
  · cases showBytes <;> simp [hline, Numeral.address, Word.shown, hfixed]
  · simp [hline, Numeral.address, hfixed]
  · simp [hline, Numeral.address, hfixed]

/-! ## The lines of a range -/

/-- **Every line of a range stands two addresses behind the one before it.** -/
theorem rangeLines_eq_map (img : Image) (showBytes : Bool) (pos stop : Nat) :
    img.rangeLines showBytes pos stop =
      (List.range' pos (img.rangeLines showBytes pos stop).length 2).map fun n =>
        img.lineAt showBytes (UInt16.ofNat n) := by
  fun_induction rangeLines img showBytes pos stop with
  | case1 pos hlt line hline ih =>
    rw [List.length_cons, List.range'_succ, List.map_cons, ← ih, lineAt, hline]
    rfl
  | case2 pos hlt hline =>
    rw [List.length_singleton, List.range'_one, List.map_singleton, lineAt, hline]
    rfl
  | case3 pos hlt => rfl

/-- **There are as many lines as start in the range, up to the first address without a word.** -/
theorem lt_length_rangeLines_iff {pos stop k : Nat} :
    k < (img.rangeLines showBytes pos stop).length ↔
      pos + 2 * k < stop ∧ ∀ j < k, (img.word? (UInt16.ofNat (pos + 2 * j))).isSome = true := by
  have hsome : ∀ a, (img.line? showBytes a).isSome = (img.word? a).isSome := fun a => by
    rw [line?_eq, Option.isSome_map]
  fun_induction rangeLines img showBytes pos stop generalizing k with
  | case1 pos hlt line hline ih =>
    have hpos : (img.word? (UInt16.ofNat pos)).isSome = true := by rw [← hsome, hline]; rfl
    cases k with
    | zero => simp [hlt]
    | succ k =>
      rw [List.length_cons]
      refine (Nat.succ_lt_succ_iff.trans ih).trans ?_
      simp only [next_place]
      refine and_congr_right fun _ => ⟨?_, fun h j hj => h (j + 1) (Nat.succ_lt_succ hj)⟩
      intro h j hj
      cases j with
      | zero => exact hpos
      | succ j => exact h j (Nat.lt_of_succ_lt_succ hj)
  | case2 pos hlt hline =>
    have hpos : ¬ (img.word? (UInt16.ofNat pos)).isSome = true := by rw [← hsome, hline]; simp
    cases k with
    | zero => simp [hlt]
    | succ k =>
      constructor
      · intro h
        exact absurd h (by simp)
      · rintro ⟨-, h⟩
        exact absurd (h 0 (Nat.succ_pos k)) hpos
  | case3 pos hle =>
    constructor
    · intro h
      cases h
    · rintro ⟨h, -⟩
      omega

theorem mem_rangeLines_iff {line : String} {pos stop : Nat} :
    line ∈ img.rangeLines showBytes pos stop ↔
      ∃ k < (img.rangeLines showBytes pos stop).length,
        line = img.lineAt showBytes (UInt16.ofNat (pos + 2 * k)) := by
  rw [rangeLines_eq_map, List.mem_map]
  simp only [List.length_map, List.length_range', List.mem_range']
  constructor
  · rintro ⟨n, ⟨k, hk, rfl⟩, rfl⟩
    exact ⟨k, hk, rfl⟩
  · rintro ⟨k, hk, rfl⟩
    exact ⟨_, ⟨k, hk, rfl⟩, rfl⟩

/-- Only the last line of a range may be about less than a word. -/
theorem exists_word?_of_mem_dropLast {line : String} {pos stop : Nat}
    (h : line ∈ (img.rangeLines showBytes pos stop).dropLast) :
    ∃ a w, img.word? a = some w ∧ line = img.lineAt showBytes a := by
  obtain ⟨k, hk, rfl⟩ := List.mem_iff_getElem.mp h
  rw [List.length_dropLast] at hk
  have hnext : k + 1 < (img.rangeLines showBytes pos stop).length := by omega
  obtain ⟨-, hwords⟩ := lt_length_rangeLines_iff.mp hnext
  obtain ⟨w, hw⟩ := Option.isSome_iff_exists.mp (hwords k (Nat.lt_succ_self k))
  refine ⟨UInt16.ofNat (pos + 2 * k), w, hw, ?_⟩
  rw [List.getElem_dropLast, List.getElem_of_eq (rangeLines_eq_map img showBytes pos stop),
    List.getElem_map, List.getElem_range']

end Image

end Chip8
