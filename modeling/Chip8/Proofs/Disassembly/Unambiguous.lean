import Chip8.Proofs.Disassembly.Operands
import Chip8.Proofs.Numeral
import Mathlib.Data.List.Nodup

/-!
# Texts tell instructions apart

A text is taken apart at its blanks into a mnemonic and the texts of operands (`Disassembly.parts_line`), and
what an operand is can be read off its text (`Operand.ofText?_text`). No two opcodes agree in their mnemonic
and in the forms of their operands (`Opcode.nodup_forms`). So two instructions have the same text just if
nothing tells them apart but what texts do not show (`Instruction.text_eq_text_iff`), and bytes to emit are
never mistaken for an instruction or for other bytes (`Disassembly.texts_unambiguous`).
-/

namespace Chip8

/-! ## Operands -/

namespace Operand

/-- The operand that a text shows. -/
def ofText? (s : String) : Option Operand :=
  match Numeral.readAddress s with
  | .ok n => some (.number n)
  | .error _ => if s = "[I]" then some .memory else (Register.all.find? (·.text == s)).map .register

/-- **Operands are read back.** -/
theorem ofText?_text (o : Operand) : ofText? o.text = some o := by
  cases o with
  | register r =>
    have hall : ∀ r ∈ Register.all, ofText? r.text = some (.register r) := by decide
    exact hall r r.mem_all
  | number n =>
    have hread : Numeral.readAddress (text (number n)) = .ok n := Numeral.readAddress_hexPadded 1 n
    rw [ofText?, hread]
  | memory => decide

theorem text_injective : Function.Injective text := by
  intro o p h
  have hread := ofText?_text o
  rw [h, ofText?_text] at hread
  exact (Option.some.inj hread).symm

end Operand

/-- Bytes differ in their numerals. -/
theorem Numeral.eq_of_hex_eq {b c : UInt8} (h : hex b.toNat = hex c.toNat) : b = c := by
  have hdigits : hexDigits 1 b.toNat = hexDigits 1 c.toNat := by
    simpa [hex, hexPadded] using h
  exact UInt8.toNat_inj.mp (hexDigits_injective hdigits)

/-! ## Lines -/

namespace Disassembly

/-- The parts of a line: the text between blanks, without the commas behind operands. -/
def parts (line : String) : List String :=
  (line.toList.splitOn ' ').map fun cs => String.ofList (cs.takeWhile (· != ','))

/-- A text that can be a part of a line. -/
def IsPart (s : String) : Prop := ∀ c ∈ s.toList, c ≠ ' ' ∧ c ≠ ','

instance (s : String) : Decidable (IsPart s) := List.decidableBAll _ s.toList

variable {s mnemonic : String} {ss : List String}

theorem IsPart.takeWhile (hs : IsPart s) {tail : List Char} (h : tail = [] ∨ tail = [',']) :
    (s.toList ++ tail).takeWhile (· != ',') = s.toList := by
  have hkeep : ∀ c ∈ s.toList, (c != ',') = true := fun c hc => bne_iff_ne.mpr (hs c hc).2
  have htail : tail.takeWhile (· != ',') = [] := by
    rcases h with rfl | rfl <;> rfl
  rw [List.takeWhile_append_of_pos hkeep, htail, List.append_nil]

theorem parts_of_isPart (hs : IsPart s) : parts s = [s] := by
  have hblank : ' ' ∉ s.toList := fun h => (hs ' ' h).1 rfl
  have hkeep := hs.takeWhile (Or.inl rfl)
  rw [List.append_nil] at hkeep
  rw [parts, List.splitOn_eq_singleton hblank, List.map_singleton, hkeep, String.ofList_toList]

theorem parts_between (hs : IsPart s) {between : String} (h : between = " " ∨ between = ", ")
    (t : String) : parts (s ++ between ++ t) = s :: parts t := by
  obtain ⟨tail, hbetween, htail⟩ :
      ∃ tail, between.toList = tail ++ [' '] ∧ (tail = [] ∨ tail = [',']) := by
    rcases h with rfl | rfl
    · exact ⟨[], rfl, Or.inl rfl⟩
    · exact ⟨[','], rfl, Or.inr rfl⟩
  have hblank : ' ' ∉ s.toList ++ tail := by
    intro hmem
    rcases List.mem_append.mp hmem with hmem | hmem
    · exact (hs ' ' hmem).1 rfl
    · rcases htail with rfl | rfl <;> exact absurd hmem (by decide)
  have hlist : (s ++ between ++ t).toList = (s.toList ++ tail) ++ ' ' :: t.toList := by
    simp [hbetween]
  rw [parts, hlist, List.splitOn_append_cons_self_of_not_mem hblank, List.map_cons,
    hs.takeWhile htail, String.ofList_toList]
  rfl

theorem parts_intercalate (hs : IsPart s) (hss : ∀ t ∈ ss, IsPart t) :
    parts (String.intercalate ", " (s :: ss)) = s :: ss := by
  induction ss generalizing s with
  | nil =>
    rw [String.intercalate_singleton]
    exact parts_of_isPart hs
  | cons t ss ih =>
    rw [String.intercalate_cons_cons, parts_between hs (Or.inr rfl),
      ih (hss t List.mem_cons_self) fun u hu => hss u (List.mem_cons_of_mem t hu)]

/-- **A line is taken apart into what it was made of.** -/
theorem parts_line (hm : IsPart mnemonic) (hss : ∀ s ∈ ss, IsPart s) :
    parts (line mnemonic ss) = mnemonic :: ss := by
  cases ss with
  | nil => exact parts_of_isPart hm
  | cons s ss =>
    rw [line, parts_between hm (Or.inl rfl),
      parts_intercalate (hss s List.mem_cons_self) fun t ht => hss t (List.mem_cons_of_mem s ht)]

end Disassembly

open Disassembly

theorem Opcode.isPart_mnemonic (o : Opcode) : IsPart o.row.mnemonic := by
  have hall : ∀ o ∈ Opcode.all, IsPart o.row.mnemonic := by decide
  exact hall o o.mem_all

theorem Numeral.isPart_hex (n : Nat) : IsPart (hex n) :=
  forall_mem_hexPadded (by decide) (by decide)

theorem Operand.isPart_text (o : Operand) : IsPart o.text := by
  cases o with
  | register r =>
    have hall : ∀ r ∈ Register.all, IsPart r.text := by decide
    exact hall r r.mem_all
  | number n => exact Numeral.isPart_hex n.toNat
  | memory => decide

theorem Instruction.parts_text (i : Instruction) :
    parts i.text = i.mnemonic :: i.shownOperands.map Operand.text := by
  have hmnemonic : IsPart i.mnemonic := i.opcode.isPart_mnemonic
  rw [text_eq, parts_line hmnemonic]
  · intro s hs
    obtain ⟨o, -, rfl⟩ := List.mem_map.mp hs
    exact o.isPart_text

/-- Bytes to emit have a blank between them and no comma. -/
theorem Disassembly.parts_rawTokens (hi lo : UInt8) :
    parts (Token.render (rawTokens hi lo)) = ["_emit", Numeral.hex hi.toNat, Numeral.hex lo.toNat] := by
  have htext : Token.render (rawTokens hi lo) =
      "_emit" ++ " " ++ (Numeral.hex hi.toNat ++ " " ++ Numeral.hex lo.toNat) := by
    rfl
  rw [htext, parts_between (by decide) (Or.inl rfl), parts_between (Numeral.isPart_hex _) (Or.inl rfl),
    parts_of_isPart (Numeral.isPart_hex _)]

/-! ## Instructions -/

/-- An operand without what varies between two operands of its form. -/
def Operand.form : Operand → Operand
  | register (.general _) => register (VReg.ofByte 0).register
  | number _ => number 0
  | o => o

/-- The forms of the operands of an opcode. -/
def Opcode.forms (o : Opcode) : List Operand := o.slots.map fun s => (s.operand {}).form

theorem Slot.form_operand (s : Slot) (f : Fields) : (s.operand f).form = (s.operand {}).form := by
  cases s <;> rfl

theorem Instruction.forms_shownOperands (i : Instruction) :
    i.shownOperands.map Operand.form = i.opcode.forms := by
  rw [shownOperands, List.map_map]
  exact List.map_congr_left fun s _ => s.form_operand i.fields

/-- **No two opcodes agree in their mnemonic and in the forms of their operands.** -/
theorem Opcode.nodup_forms : (Opcode.all.map fun o => (o.row.mnemonic, o.forms)).Nodup := by
  decide

/-- Whether an opcode is one of the two shifts, which leave their second register out of the text. -/
def Opcode.isShift (o : Opcode) : Bool := o = .shr || o = .shl

/--
Two instructions that a text does not tell apart: of one kind and with the same operands, where of registers
only the low four bits count, and the second register of a shift does not.
-/
structure Instruction.SameText (i j : Instruction) : Prop where
  opcode : i.opcode = j.opcode
  x : i.fields.x.index % 16 = j.fields.x.index % 16
  y : i.opcode.isShift = false → i.fields.y.index % 16 = j.fields.y.index % 16
  byte : i.fields.byte = j.fields.byte
  nibble : i.fields.nibble = j.fields.nibble
  address : i.fields.address = j.fields.address

theorem VReg.register_eq_iff {v w : VReg} : v.register = w.register ↔ v.index % 16 = w.index % 16 := by
  rw [← UInt8.toNat_inj, UInt8.toNat_mod, UInt8.toNat_mod]
  simp [register, general, Fin.ext_iff]

namespace Instruction

variable {i j : Instruction} {s : Slot}

/-- What has no slot is no operand, but for the second register of a shift. -/
theorem operand_of_not_mem (h : s ∉ i.opcode.slots) (hshift : s = .y → i.opcode.isShift = false) :
    s.operand i.fields = s.operand {} := by
  cases i <;> cases s <;> first | rfl | simp [opcode, Opcode.slots, Opcode.isShift] at h hshift

theorem SameText.operand_eq (h : i.SameText j) (hs : s ∈ i.opcode.slots) :
    s.operand i.fields = s.operand j.fields := by
  cases s with
  | x => exact congrArg Operand.register (VReg.register_eq_iff.mpr h.x)
  | y =>
    have hshift : ∀ o ∈ Opcode.all, Slot.y ∈ o.slots → o.isShift = false := by decide
    exact congrArg Operand.register (VReg.register_eq_iff.mpr (h.y (hshift _ i.opcode.mem_all hs)))
  | byte => rw [Slot.operand, h.byte, Slot.operand]
  | nibble => rw [Slot.operand, h.nibble, Slot.operand]
  | address => rw [Slot.operand, h.address, Slot.operand]
  | _ => rfl

theorem sameText_of_operand_eq (hopcode : i.opcode = j.opcode)
    (h : ∀ s ∈ i.opcode.slots, s.operand i.fields = s.operand j.fields) : i.SameText j := by
  have hall : ∀ s : Slot, (s = .y → i.opcode.isShift = false) →
      s.operand i.fields = s.operand j.fields := by
    intro s hshift
    by_cases hs : s ∈ i.opcode.slots
    · exact h s hs
    · rw [operand_of_not_mem hs hshift]
      rw [hopcode] at hs hshift
      rw [operand_of_not_mem hs hshift]
  constructor
  case opcode => exact hopcode
  case x => exact VReg.register_eq_iff.mp (Operand.register.inj (hall .x nofun))
  case y =>
    intro hshift
    exact VReg.register_eq_iff.mp (Operand.register.inj (hall .y fun _ => hshift))
  case byte => exact UInt8.toUInt16_inj.mp (Operand.number.inj (hall .byte nofun))
  case nibble => exact UInt8.toUInt16_inj.mp (Operand.number.inj (hall .nibble nofun))
  case address => exact Operand.number.inj (hall .address nofun)

/-- **Two instructions have the same text just if a text cannot tell them apart.** -/
theorem text_eq_text_iff : i.text = j.text ↔ i.SameText j := by
  constructor
  · intro h
    have hparts : parts i.text = parts j.text := congrArg parts h
    rw [parts_text, parts_text] at hparts
    obtain ⟨hmnemonic, htexts⟩ := List.cons.inj hparts
    have hoperands : i.shownOperands = j.shownOperands :=
      List.map_injective_iff.mpr Operand.text_injective htexts
    have hforms : i.opcode.forms = j.opcode.forms := by
      rw [← forms_shownOperands, ← forms_shownOperands, hoperands]
    have hopcode : i.opcode = j.opcode :=
      List.inj_on_of_nodup_map Opcode.nodup_forms i.opcode.mem_all j.opcode.mem_all
        (Prod.ext hmnemonic hforms)
    refine sameText_of_operand_eq hopcode (List.map_inj_left.mp ?_)
    rw [shownOperands, shownOperands, ← hopcode] at hoperands
    exact hoperands
  · intro h
    have hoperands : i.shownOperands = j.shownOperands := by
      rw [shownOperands, shownOperands, ← h.opcode]
      exact List.map_congr_left fun s hs => h.operand_eq hs
    rw [text_eq, text_eq, hoperands, mnemonic, mnemonic, h.opcode]

end Instruction

/--
**Texts are unambiguous.**

The texts of two instructions, whatever values their operands hold, are the same just if the instructions
are, as far as texts show them. No instruction has the text of bytes to emit, and different bytes have
different texts.
-/
theorem Disassembly.texts_unambiguous :
    (∀ i j : Instruction, i.text = j.text ↔ i.SameText j) ∧
      (∀ (i : Instruction) (hi lo : UInt8), i.text ≠ Token.render (rawTokens hi lo)) ∧
      ∀ hi lo hi' lo' : UInt8,
        Token.render (rawTokens hi lo) = Token.render (rawTokens hi' lo') ↔ hi = hi' ∧ lo = lo' := by
  refine ⟨fun i j => Instruction.text_eq_text_iff, Instruction.text_ne_raw, fun hi lo hi' lo' => ?_⟩
  constructor
  · intro h
    have hparts := congrArg parts h
    rw [parts_rawTokens, parts_rawTokens] at hparts
    obtain ⟨-, hparts⟩ := List.cons.inj hparts
    obtain ⟨hhi, hparts⟩ := List.cons.inj hparts
    obtain ⟨hlo, -⟩ := List.cons.inj hparts
    exact ⟨Numeral.eq_of_hex_eq hhi, Numeral.eq_of_hex_eq hlo⟩
  · rintro ⟨rfl, rfl⟩
    rfl

end Chip8
