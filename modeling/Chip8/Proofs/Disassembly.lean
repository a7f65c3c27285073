import Chip8.Disassembly
import Chip8.Proofs.Numeral

/-!
# Text of instructions

The text of an instruction starts with its mnemonic, and so with a capital, which the text of bytes to emit
does not. What a line shows can thus be told from its first character. No text breaks its line.
-/

namespace Chip8

open Disassembly

@[simp]
theorem Token.toList_render_cons (t : Token) (ts : List Token) :
    (render (t :: ts)).toList = t.text.toList ++ (render ts).toList := by
  simp [render]

theorem Opcode.mnemonic_head (o : Opcode) :
    ∃ c cs, o.row.mnemonic.toList = c :: cs ∧ c.isUpper = true := by
  cases o <;> exact ⟨_, _, rfl, rfl⟩

namespace Instruction

theorem exists_tokens_eq (i : Instruction) : ∃ ts, i.tokens = .mnemonic i.mnemonic :: ts := by
  cases i <;> exact ⟨_, rfl⟩

/-- The text of an instruction starts with a capital. -/
theorem text_head (i : Instruction) : ∃ c cs, i.text.toList = c :: cs ∧ c.isUpper = true := by
  obtain ⟨ts, hts⟩ := i.exists_tokens_eq
  obtain ⟨c, cs, hcs, hc⟩ := i.opcode.mnemonic_head
  refine ⟨c, cs ++ (Token.render ts).toList, ?_, hc⟩
  rw [text, hts, Token.toList_render_cons, ← List.cons_append, ← hcs]
  rfl

end Instruction

theorem Disassembly.rawTokens_head (hi lo : UInt8) :
    ∃ cs, (Token.render (rawTokens hi lo)).toList = '_' :: cs := by
  rw [rawTokens, Token.toList_render_cons]
  exact ⟨_, rfl⟩

/-- **An instruction is never shown as bytes to emit.** -/
theorem Instruction.text_ne_raw (i : Instruction) (hi lo : UInt8) :
    i.text ≠ Token.render (rawTokens hi lo) := by
  intro h
  obtain ⟨c, cs, hcs, hc⟩ := i.text_head
  obtain ⟨ds, hds⟩ := rawTokens_head hi lo
  rw [h, hds] at hcs
  rw [← (List.cons.inj hcs).1] at hc
  cases hc

namespace Word

theorem text_of_decode? {w : Word} {i : Instruction} (h : w.decode? = some i) : w.text = i.text := by
  rw [text, tokens, h]
  rfl

theorem text_head (w : Word) :
    ∃ c cs, w.text.toList = c :: cs ∧ (c.isUpper = true ∨ c = '_') := by
  cases hd : w.decode? with
  | none =>
    obtain ⟨cs, hcs⟩ := rawTokens_head w.highByte w.lowByte
    refine ⟨'_', cs, ?_, Or.inr rfl⟩
    rw [text, tokens, hd]
    exact hcs
  | some i =>
    obtain ⟨c, cs, hcs, hc⟩ := i.text_head
    rw [text_of_decode? hd]
    exact ⟨c, cs, hcs, Or.inl hc⟩

end Word

/-! ## One line -/

/-- The text stays on one line. -/
def OneLine (s : String) : Prop := '\n' ∉ s.toList

instance (s : String) : Decidable (OneLine s) := inferInstanceAs (Decidable ('\n' ∉ s.toList))

@[simp]
theorem oneLine_append_iff {s t : String} : OneLine (s ++ t) ↔ OneLine s ∧ OneLine t := by
  simp [OneLine]

@[simp]
theorem Numeral.oneLine_hexDigits (k n : Nat) : OneLine (hexDigits k n) := by
  have hdigit : ∀ d < 16, '\n' ≠ Nat.digitChar d := by decide
  intro h
  obtain ⟨d, hd, he⟩ := exists_digitChar_of_mem_hexDigits h
  exact hdigit d hd he

@[simp]
theorem Numeral.oneLine_hexPadded (k n : Nat) : OneLine (hexPadded k n) :=
  oneLine_append_iff.mpr ⟨by decide, oneLine_hexDigits k n⟩

@[simp]
theorem Register.oneLine_text (r : Register) : OneLine r.text := by
  cases r with
  | general i =>
    revert i
    decide
  | _ => decide

@[simp]
theorem Opcode.oneLine_mnemonic (o : Opcode) : OneLine o.row.mnemonic := by
  cases o <;> decide

theorem Token.oneLine_render {ts : List Token} (h : ∀ t ∈ ts, OneLine t.text) :
    OneLine (render ts) := by
  rw [OneLine, render, String.toList_join, List.mem_flatMap]
  rintro ⟨s, hs, hc⟩
  obtain ⟨t, ht, rfl⟩ := List.mem_map.mp hs
  exact h t ht hc

theorem Instruction.oneLine_tokens (i : Instruction) : ∀ t ∈ i.tokens, OneLine t.text := by
  have hmnemonic : OneLine i.mnemonic := i.opcode.oneLine_mnemonic
  have hfixed : OneLine " " ∧ OneLine ", " ∧ OneLine " [" ∧ OneLine "], " ∧ OneLine ", [" ∧
      OneLine "]" := by
    decide
  cases i <;>
    simp [tokens, withOperands, vreg, immediate, address, Token.mnemonic, Token.plain, Token.separator,
      Token.register, Token.number, Numeral.hex, hmnemonic, hfixed]

theorem Disassembly.oneLine_rawTokens (hi lo : UInt8) : ∀ t ∈ rawTokens hi lo, OneLine t.text := by
  have hfixed : OneLine "_emit" ∧ OneLine " " := by decide
  simp [rawTokens, Token.mnemonic, Token.plain, Token.separator, Token.number, Numeral.hex, hfixed]

@[simp]
theorem Word.oneLine_text (w : Word) : OneLine w.text := by
  refine Token.oneLine_render ?_
  unfold tokens
  cases w.decode? with
  | none => exact oneLine_rawTokens w.highByte w.lowByte
  | some i => exact i.oneLine_tokens

end Chip8
