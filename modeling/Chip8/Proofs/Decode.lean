import Chip8.Decode
import Chip8.Proofs.Fields
import Mathlib.Tactic.IntervalCases

/-!
# Decoding by the table

Decoding goes by the family of a word and then by whatever this family looks at; the opcode table goes row by
row, and each row compares the family and some of the lowest bits (`Opcode.selects_iff`). Both come to the
same: a word decodes to the instruction of the first row that selects it, with the operands in the fields of
the word, and if there is no such row, it does not decode (`Word.decode?_eq_map_row?`).
-/

namespace Chip8

/-! ## What a row compares -/

namespace Opcode

/-- How many of the lowest bits of a word a row compares. -/
def selectorBits : Opcode → Nat
  | cls | ret => 12
  | ld | or | and | xor | add | sub | shr | subn | shl => 4
  | skp | sknp | ldVxDt | ldVxK | ldDtVx | ldStVx | addIVx | ldFVx | ldBVx | ldMemVx | ldVxMem => 8
  | _ => 0

theorem selectorBits_le (o : Opcode) : o.selectorBits ≤ 12 := by
  cases o <;> decide

theorem toNat_mask (o : Opcode) : o.row.mask.toNat = 15 * 2 ^ 12 + (2 ^ o.selectorBits - 1) := by
  cases o <;> rfl

theorem value_lt (o : Opcode) : o.row.value.toNat % 2 ^ 12 < 2 ^ o.selectorBits := by
  cases o <;> decide

variable {o : Opcode} {w : Word}

theorem selects_iff :
    o.row.selects w = true ↔ w.family = o.row.value.family ∧
      w.toNat % 2 ^ o.selectorBits = o.row.value.toNat % 2 ^ 12 := by
  have hvalue := o.value_lt
  have hle : 2 ^ o.selectorBits ≤ 2 ^ 12 := Nat.pow_le_pow_right (by decide) o.selectorBits_le
  have hmod : w.toNat % 2 ^ o.selectorBits < 2 ^ o.selectorBits := Nat.mod_lt _ (Nat.two_pow_pos _)
  rw [OpcodeRow.selects, beq_iff_eq, ← UInt16.toNat_inj, w.toNat_and_mask o.selectorBits_le o.toNat_mask,
    ← UInt8.toNat_inj, Word.toNat_family, Word.toNat_family]
  constructor
  · intro h
    constructor <;> omega
  · rintro ⟨hhigh, hlow⟩
    omega

theorem selects_iff_family (hbits : o.selectorBits = 0) :
    o.row.selects w = true ↔ w.family = o.row.value.family := by
  have hvalue := o.value_lt
  rw [hbits] at hvalue
  rw [selects_iff, hbits, and_iff_left]
  omega

theorem selects_iff_nibble (hbits : o.selectorBits = 4) :
    o.row.selects w = true ↔ w.family = o.row.value.family ∧ w.nibble = o.row.value.nibble := by
  have hvalue := o.value_lt
  rw [hbits] at hvalue
  refine selects_iff.trans (and_congr_right fun _ => ?_)
  rw [hbits, ← UInt8.toNat_inj, Word.toNat_nibble, Word.toNat_nibble]
  omega

theorem selects_iff_byte (hbits : o.selectorBits = 8) :
    o.row.selects w = true ↔ w.family = o.row.value.family ∧ w.byte = o.row.value.byte := by
  have hvalue := o.value_lt
  rw [hbits] at hvalue
  refine selects_iff.trans (and_congr_right fun _ => ?_)
  rw [hbits, ← UInt8.toNat_inj, Word.toNat_byte, Word.toNat_byte]
  omega

theorem selects_iff_eq (hbits : o.selectorBits = 12) :
    o.row.selects w = true ↔ w = o.row.value := by
  rw [selects_iff, hbits, ← UInt8.toNat_inj, Word.toNat_family, Word.toNat_family, ← UInt16.toNat_inj]
  omega

end Opcode

/-! ## Rows and decoding -/

namespace Word

variable {w : Word} {o : Opcode} {i : Instruction} {r : OpcodeRow}

/-- A word decodes as a row asks that selects it. A system call has to give way to the two exact words. -/
theorem decode?_of_selects (h : o.row.selects w = true)
    (hsystem : o = .sys → w ≠ 0x00E0 ∧ w ≠ 0x00EE) : w.decode? = some (o.instruction w.fields) := by
  have hfamily := (Opcode.selects_iff.mp h).1
  unfold decode?
  cases o
  case cls | ret =>
    rw [(Opcode.selects_iff_eq rfl).mp h]
    rfl
  case sys =>
    obtain ⟨hcls, hret⟩ := hsystem rfl
    simp only [hfamily, decodeSystem, if_neg hcls, if_neg hret]
    rfl
  case ld | or | and | xor | add | sub | shr | subn | shl =>
    simp only [hfamily, ((Opcode.selects_iff_nibble rfl).mp h).2]
    rfl
  case skp | sknp | ldVxDt | ldVxK | ldDtVx | ldStVx | addIVx | ldFVx | ldBVx | ldMemVx | ldVxMem =>
    simp only [hfamily, ((Opcode.selects_iff_byte rfl).mp h).2]
    rfl
  all_goals
    simp only [hfamily]
    rfl

theorem family_eq_of_ne (h : ∀ n < 15, w.family ≠ UInt8.ofNat n) : w.family = 15 := by
  have hw := w.toNat_lt
  have hfamily := w.toNat_family
  by_contra hne
  have hne' : w.family.toNat ≠ 15 := fun he => hne (UInt8.toNat_inj.mp he)
  exact h w.family.toNat (by omega) UInt8.ofNat_toNat.symm

/-- A word is selected by the row of the instruction that it decodes to. -/
theorem selects_of_decode? (h : w.decode? = some i) : i.opcode.row.selects w = true := by
  unfold decode? at h
  dsimp only at h
  -- one case for each family; families 0, 8, E and F have several rows
  split at h
  case h_1 hf =>
    cases h
    unfold decodeSystem
    split
    · next hw =>
      rw [hw]
      rfl
    · split
      · next hw =>
        rw [hw]
        rfl
      · rw [Instruction.opcode]
        exact (Opcode.selects_iff_family rfl).mpr (hf.trans (by decide))
  case h_9 hf =>
    unfold decodeArithmetic? at h
    split at h <;> cases h
    all_goals
      next hn =>
      rw [Instruction.opcode]
      exact (Opcode.selects_iff_nibble rfl).mpr ⟨hf.trans (by decide), hn.trans (by decide)⟩
  case h_15 hf =>
    unfold decodeKeypad? at h
    split at h <;> cases h
    all_goals
      next hb =>
      rw [Instruction.opcode]
      exact (Opcode.selects_iff_byte rfl).mpr ⟨hf.trans (by decide), hb.trans (by decide)⟩
  case h_16 =>
    have hf : w.family = 15 := by
      refine family_eq_of_ne fun n hn => ?_
      interval_cases n <;> assumption
    unfold decodeMemory? at h
    split at h <;> cases h
    all_goals
      next hb =>
      rw [Instruction.opcode]
      exact (Opcode.selects_iff_byte rfl).mpr ⟨hf.trans (by decide), hb.trans (by decide)⟩
  all_goals
    next hf =>
    cases h
    rw [Instruction.opcode]
    exact (Opcode.selects_iff_family rfl).mpr (hf.trans (by decide))

/-- The first row of the table that selects a word is not that of system calls if the word is an exact one. -/
theorem exists_row (h : w.row? = some r) :
    ∃ o : Opcode, r = o.row ∧ o.row.selects w = true ∧ (o = .sys → w ≠ 0x00E0 ∧ w ≠ 0x00EE) := by
  have hselects := List.find?_some h
  obtain ⟨o, -, rfl⟩ := List.mem_map.mp (List.mem_of_find?_eq_some h)
  refine ⟨o, rfl, hselects, ?_⟩
  rintro rfl
  constructor <;> rintro rfl <;> exact absurd h (by decide)

/-- **Decoding follows the table.** -/
theorem decode?_eq_map_row? (w : Word) :
    w.decode? = w.row?.map fun r => r.opcode.instruction w.fields := by
  cases hrow : w.row? with
  | none =>
    rw [Option.map_none]
    refine Option.eq_none_iff_forall_ne_some.mpr fun i hi => ?_
    have hmem : i.opcode.row ∈ opcodeTable := List.mem_map_of_mem i.opcode.mem_all
    exact List.find?_eq_none.mp hrow _ hmem (selects_of_decode? hi)
  | some r =>
    obtain ⟨o, rfl, hselects, hsystem⟩ := exists_row hrow
    rw [decode?_of_selects hselects hsystem, Option.map_some, o.opcode_row]

theorem decode?_eq_none_iff : w.decode? = none ↔ w.row? = none := by
  rw [decode?_eq_map_row?, Option.map_eq_none_iff]

theorem exists_opcode_of_decode? (h : w.decode? = some i) :
    ∃ o : Opcode, i = o.instruction w.fields ∧ w.row? = some o.row ∧ o.row.selects w = true ∧
      (o = .sys → w ≠ 0x00E0 ∧ w ≠ 0x00EE) := by
  rw [decode?_eq_map_row?] at h
  obtain ⟨r, hrow, rfl⟩ := Option.map_eq_some_iff.mp h
  obtain ⟨o, rfl, hselects⟩ := exists_row hrow
  rw [o.opcode_row]
  exact ⟨o, rfl, hrow, hselects⟩

end Word

end Chip8
