import Chip8.Proofs.Listing

/-!
# Words in a window, at an offset and at an address

A word can be read at the front of a window, at an offset of a program, and at an address of the image of the
program. All of them find the same word, or none (`Image.readers_agree`), and it is shown as the same text: a
window shows the instruction at its front, or else its own first two bytes (`Word.windowTokens_eq`), and these
are the bytes of the word.
-/

namespace Chip8

/-! ## Windows -/

namespace Word

open Disassembly

variable {window : Bytes} {w : Word}

/-- A word is missing only where there are fewer bytes than two. -/
theorem size_le_of_at?_eq_none (h : at? window 0 = none) : window.size ≤ 1 := by
  by_cases hsize : window.size ≤ 1
  · exact hsize
  · obtain ⟨w, hw⟩ : ∃ w, at? window 0 = some w := exists_at?_of_lt (by omega)
    rw [h] at hw
    cases hw

/-- What stands at an offset stands at the front of what is left from there on. -/
theorem at?_extract (bytes : Bytes) (i : Nat) : at? (bytes.extract i) 0 = at? bytes i := by
  have hget : ∀ k, (bytes.extract i)[k]? = bytes[i + k]? := by
    intro k
    rw [Array.getElem?_extract]
    split
    · rfl
    · exact (Array.getElem?_eq_none (by omega)).symm
  simp only [at?, hget, Nat.add_zero, Nat.zero_add]

theorem first_eq_ok_iff : first window = .ok w ↔ at? window 0 = some w := by
  unfold first
  cases at? window 0 <;> simp

theorem tokens_ofBytes (hi lo : UInt8) :
    (ofBytes hi lo).tokens =
      match (ofBytes hi lo).decode? with
      | some i => i.tokens
      | none => rawTokens hi lo := by
  rw [tokens]
  cases (ofBytes hi lo).decode? with
  | none => simp
  | some i => rfl

/-- **A window shows the instruction at its front, or the two bytes that it starts with.** -/
theorem windowTokens_eq (window : Bytes) :
    windowTokens window =
      match window[0]?, window[1]? with
      | some hi, some lo =>
        .ok (match (ofBytes hi lo).decode? with
          | some i => i.tokens
          | none => rawTokens hi lo, 2)
      | _, _ => .error ⟨window.size⟩ := by
  unfold windowTokens first at?
  cases window[0]? with
  | none => rfl
  | some hi =>
    cases window[1]? with
    | none => rfl
    | some lo =>
      show Except.ok ((ofBytes hi lo).tokens, 2) = _
      rw [tokens_ofBytes]

theorem windowTokens_of_at? (h : at? window 0 = some w) : windowTokens window = .ok (w.tokens, 2) := by
  obtain ⟨hi, lo, hhi, hlo, rfl⟩ := at?_eq_some_iff.mp h
  rw [windowTokens_eq, hhi, hlo, tokens_ofBytes]

theorem windowTokens_of_none (h : at? window 0 = none) :
    windowTokens window = .error ⟨window.size⟩ := by
  have hlast : window[1]? = none := Array.getElem?_eq_none (size_le_of_at?_eq_none h)
  rw [windowTokens_eq, hlast]
  cases window[0]? <;> rfl

end Word

/-! ## Windows on a program -/

namespace Image

variable {img : Image} {program : Bytes} {base a : Address} {w : Word}

/-- The bytes of a program at `base` from an address on. There are none in front of it and behind. -/
def windowAt (program : Bytes) (base a : Address) : Bytes :=
  if base ≤ a then program.extract (a.toNat - base.toNat) else #[]

theorem at?_windowAt (program : Bytes) (base a : Address) :
    Word.at? (windowAt program base a) 0 =
      if base ≤ a then Word.at? program (a.toNat - base.toNat) else none := by
  unfold windowAt
  by_cases hle : base ≤ a
  · rw [if_pos hle, if_pos hle, Word.at?_extract]
  · rw [if_neg hle, if_neg hle]
    rfl

/-- The word at an address is the one at the front of the window there. -/
theorem word?_eq_at?_windowAt (himg : ofProgram program base = .ok img) (a : Address) :
    img.word? a = Word.at? (windowAt program base a) 0 := by
  rw [at?_windowAt]
  by_cases hle : base ≤ a
  · rw [if_pos hle, word?_eq_at? himg (UInt16.le_iff_toNat_le.mp hle)]
  · rw [if_neg hle]
    rw [UInt16.le_iff_toNat_le] at hle
    refine Option.eq_none_iff_forall_ne_some.mpr fun w hw => ?_
    exact hle ((exists_word?_iff himg).mp ⟨w, hw⟩).1

/-- A line without bytes is the address and the text of the word there. -/
theorem line?_false (img : Image) (a : Address) :
    img.line? false a = (img.word? a).map fun w => Numeral.address a ++ ": " ++ w.text := by
  have hshown : ∀ w : Word, w.shown false = w.text := fun w => String.empty_append
  rw [line?_eq]
  simp only [hshown]

/-- The word `w` is read and shown in the same way at an address and at the front of a window. -/
structure Shows (img : Image) (a : Address) (window : Bytes) (w : Word) : Prop where
  first : Word.first window = .ok w
  tokens : ∃ tokens, Word.windowTokens window = .ok (tokens, 2) ∧ Token.render tokens = w.text ∧
    (w.decode? = none → ∃ hi lo, window[0]? = some hi ∧ window[1]? = some lo ∧
      tokens = Disassembly.rawTokens hi lo)
  line : img.line? false a = some (Numeral.address a ++ ": " ++ w.text)

/-- No word is read or shown at an address, nor at the front of a window. -/
structure ShowsNone (img : Image) (a : Address) (window : Bytes) : Prop where
  short : window.size ≤ 1
  tokens : Word.windowTokens window = .error ⟨window.size⟩
  line : ∀ showBytes, img.line? showBytes a = none

/--
**All readers of words agree, and so do all that show them.**

At every address the image of a program has the word that stands at this distance from the base, and that
the window from there on starts with. Its tokens and its line have the same text. If there is none, the
window holds less than two bytes.
-/
theorem readers_agree (himg : ofProgram program base = .ok img) (a : Address) :
    img.word? a = (if base ≤ a then Word.at? program (a.toNat - base.toNat) else none) ∧
      ((∃ w, img.word? a = some w) ↔
        ∃ shown, Word.windowTokens (windowAt program base a) = .ok shown) ∧
      (∀ w, img.word? a = some w → img.Shows a (windowAt program base a) w) ∧
      (img.word? a = none → img.ShowsNone a (windowAt program base a)) := by
  have hword := word?_eq_at?_windowAt himg a
  refine ⟨hword.trans (at?_windowAt program base a), ?_, ?_, ?_⟩
  · rw [hword]
    cases hat : Word.at? (windowAt program base a) 0 with
    | some w =>
      exact ⟨fun _ => ⟨_, Word.windowTokens_of_at? hat⟩, fun _ => ⟨w, rfl⟩⟩
    | none =>
      rw [Word.windowTokens_of_none hat]
      exact ⟨nofun, nofun⟩
  · intro w hw
    have hat := hword.symm.trans hw
    constructor
    case first => exact Word.first_eq_ok_iff.mpr hat
    case tokens =>
      refine ⟨w.tokens, Word.windowTokens_of_at? hat, rfl, fun hd => ?_⟩
      obtain ⟨hi, lo, hhi, hlo, rfl⟩ := Word.at?_eq_some_iff.mp hat
      exact ⟨hi, lo, hhi, hlo, by rw [Word.tokens_ofBytes, hd]⟩
    case line =>
      rw [line?_false, hw]
      rfl
  · intro hw
    have hat := hword.symm.trans hw
    constructor
    case short => exact Word.size_le_of_at?_eq_none hat
    case tokens => exact Word.windowTokens_of_none hat
    case line =>
      intro showBytes
      rw [line?_eq, hw]
      rfl

/-- A word that does not decode up to the last byte of the memory, and the half of a word behind it. -/
theorem readers_agree_end :
    ∃ img, ofProgram #[0x8F, 0xFF, 0x00] 0xFFD = .ok img ∧
      img.Shows 0xFFE #[0xFF, 0x00] 0xFF00 ∧ img.ShowsNone 0xFFF #[0x00] ∧
      img.ShowsNone 0xFFFF #[] := by
  have himg : ofProgram #[0x8F, 0xFF, 0x00] 0xFFD = .ok _ := rfl
  exact ⟨_, himg, (readers_agree himg 0xFFE).2.2.1 0xFF00 rfl,
    (readers_agree himg 0xFFF).2.2.2 rfl, (readers_agree himg 0xFFFF).2.2.2 rfl⟩

end Image

end Chip8
