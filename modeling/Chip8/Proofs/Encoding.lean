import Chip8.Proofs.Basic
import Chip8.Proofs.Decode

/-!
# Encoding

An instruction is put back into a word by the value of its row and the operands in their fields. The operands
lie in a word in one of six ways (`Fields.Layout`), with nothing between them and the family. So the bits of a
row that choose the instruction are all below the operands, and encoding is adding
(`Instruction.toNat_encode`).

What is encoded decodes to the same instruction, if its operands fit into their fields. A word that decodes is
encoded again as it was, but for the two comparisons of registers, whose rows do not look at the lowest digit.
-/

namespace Chip8

/-! ## Disjoint bits -/

/-- Bits between the highest digit of `v` and its lowest bits are added. -/
theorem or_eq_add_of_between {v b k : Nat} (hv : v % 2 ^ 12 < 2 ^ k) (hb : b % 2 ^ k = 0)
    (hlt : b < 2 ^ 12) : v ||| b = v + b ∧ v % 2 ^ 12 + b < 2 ^ 12 := by
  have hlow : b ||| v % 2 ^ 12 = b + v % 2 ^ 12 := or_eq_add k hb hv
  have hroom : b + v % 2 ^ 12 < 2 ^ 12 := by
    rw [← hlow]
    exact Nat.or_lt_two_pow hlt (Nat.mod_lt _ (Nat.two_pow_pos 12))
  have hhigh : v / 2 ^ 12 * 2 ^ 12 ||| v % 2 ^ 12 = v := by
    rw [or_eq_add 12] <;> omega
  have hor : v ||| b = v / 2 ^ 12 * 2 ^ 12 + (b + v % 2 ^ 12) :=
    calc v ||| b = v / 2 ^ 12 * 2 ^ 12 ||| v % 2 ^ 12 ||| b := by rw [hhigh]
      _ = v / 2 ^ 12 * 2 ^ 12 ||| (b ||| v % 2 ^ 12) := by rw [Nat.or_assoc, Nat.or_comm b]
      _ = v / 2 ^ 12 * 2 ^ 12 + (b + v % 2 ^ 12) := by rw [hlow, or_eq_add 12 (by omega) hroom]
  omega

/-! ## Fields at their places -/

namespace Fields

/-- The fields at their places in a word. -/
def bits (f : Fields) : Word :=
  f.x.index.toUInt16 <<< 8 ||| f.y.index.toUInt16 <<< 4 ||| f.byte.toUInt16 ||| f.nibble.toUInt16 |||
    f.address

/-- Every value has room in its field. -/
structure Fit (f : Fields) : Prop where
  x_lt : f.x.index < 16
  y_lt : f.y.index < 16
  nibble_lt : f.nibble < 16
  address_lt : f.address < 0x1000

variable {x y : VReg} {n : UInt8}

theorem bits_address (a : Address) : bits { address := a } = a := by
  simp [bits]

theorem toNat_bits_byte (x : VReg) (b : UInt8) :
    (bits { x := x, byte := b }).toNat = 256 * x.index.toNat + b.toNat := by
  have hb := b.toNat_lt
  have hbits : bits { x := x, byte := b } = x.index.toUInt16 <<< 8 ||| b.toUInt16 := by
    simp [bits]
  have hx : (x.index.toUInt16 <<< 8).toNat = 256 * x.index.toNat := toNat_shiftLeft _ (by decide)
  rw [hbits, UInt16.toNat_or, hx, UInt8.toNat_toUInt16, or_eq_add 8] <;> omega

theorem toNat_bits_nibble (hy : y.index.toNat < 16) (hn : n.toNat < 16) :
    (bits { x := x, y := y, nibble := n }).toNat =
      256 * x.index.toNat + 16 * y.index.toNat + n.toNat := by
  have hbits : bits { x := x, y := y, nibble := n } =
      x.index.toUInt16 <<< 8 ||| y.index.toUInt16 <<< 4 ||| n.toUInt16 := by
    simp [bits]
  have hx : (x.index.toUInt16 <<< 8).toNat = 256 * x.index.toNat := toNat_shiftLeft _ (by decide)
  have hy' : (y.index.toUInt16 <<< 4).toNat = 16 * y.index.toNat := toNat_shiftLeft _ (by decide)
  have hxy : 256 * x.index.toNat ||| 16 * y.index.toNat = 256 * x.index.toNat + 16 * y.index.toNat :=
    or_eq_add 8 (by omega) (by omega)
  rw [hbits, UInt16.toNat_or, UInt16.toNat_or, hx, hy', hxy, UInt8.toNat_toUInt16, or_eq_add 4] <;> omega

/-! ## Layouts -/

/-- How operands lie in a word. -/
inductive Layout where
  | bare | address | byte | nibble | registers | register
  deriving DecidableEq, Repr

namespace Layout

/-- How many of the lowest bits no operand takes. -/
def free : Layout → Nat
  | bare => 12
  | address | byte | nibble => 0
  | registers => 4
  | register => 8

/-- The fields that hold operands, with zero in the others. -/
def keep (f : Fields) : Layout → Fields
  | bare => {}
  | address => { address := f.address }
  | byte => { x := f.x, byte := f.byte }
  | nibble => { x := f.x, y := f.y, nibble := f.nibble }
  | registers => { x := f.x, y := f.y }
  | register => { x := f.x }

/-- The number that the operands form at their places. -/
def number (f : Fields) : Layout → Nat
  | bare => 0
  | address => f.address.toNat
  | byte => 256 * f.x.index.toNat + f.byte.toNat
  | nibble => 256 * f.x.index.toNat + 16 * f.y.index.toNat + f.nibble.toNat
  | registers => 256 * f.x.index.toNat + 16 * f.y.index.toNat
  | register => 256 * f.x.index.toNat

variable {f g : Fields} {w : Word} (l : Layout)

theorem fit_keep (h : f.Fit) : (l.keep f).Fit := by
  have hzero : (0 : UInt8) < 16 := by decide
  have hzero' : (0 : Address) < 0x1000 := by decide
  cases l
  case bare => exact ⟨hzero, hzero, hzero, hzero'⟩
  case address => exact ⟨hzero, hzero, hzero, h.address_lt⟩
  case byte | register => exact ⟨h.x_lt, hzero, hzero, hzero'⟩
  case nibble => exact ⟨h.x_lt, h.y_lt, h.nibble_lt, hzero'⟩
  case registers => exact ⟨h.x_lt, h.y_lt, hzero, hzero'⟩

theorem number_keep : l.number (l.keep f) = l.number f := by
  cases l <;> rfl

theorem toNat_bits_keep (h : f.Fit) : (l.keep f).bits.toNat = l.number f := by
  cases l
  case bare => exact congrArg UInt16.toNat (bits_address 0)
  case address => exact congrArg UInt16.toNat (bits_address f.address)
  case byte => exact toNat_bits_byte f.x f.byte
  case nibble => exact toNat_bits_nibble h.y_lt h.nibble_lt
  case registers => exact toNat_bits_nibble h.y_lt (by decide)
  case register => exact toNat_bits_byte f.x 0

theorem free_le : l.free ≤ 12 := by
  cases l <;> decide

theorem number_mod {k : Nat} (hk : k ≤ l.free) : l.number f % 2 ^ k = 0 := by
  have hfree : l.number f % 2 ^ l.free = 0 := by
    cases l <;> rw [free, number] <;> omega
  rw [← Nat.mod_mod_of_dvd _ (Nat.pow_dvd_pow 2 hk), hfree, Nat.zero_mod]

theorem number_lt (h : f.Fit) : l.number f < 2 ^ 12 := by
  have hx : f.x.index.toNat < 16 := h.x_lt
  have hy : f.y.index.toNat < 16 := h.y_lt
  have hn : f.nibble.toNat < 16 := h.nibble_lt
  have ha : f.address.toNat < 2 ^ 12 := h.address_lt
  have hb := f.byte.toNat_lt
  cases l <;> rw [number] <;> omega

/-- The number tells what the operands are. -/
theorem keep_eq_of_number_eq (hf : f.Fit) (hg : g.Fit) (h : l.number f = l.number g) :
    l.keep f = l.keep g := by
  have hxf : f.x.index.toNat < 16 := hf.x_lt
  have hxg : g.x.index.toNat < 16 := hg.x_lt
  have hyf : f.y.index.toNat < 16 := hf.y_lt
  have hyg : g.y.index.toNat < 16 := hg.y_lt
  have hnf : f.nibble.toNat < 16 := hf.nibble_lt
  have hng : g.nibble.toNat < 16 := hg.nibble_lt
  have hbf := f.byte.toNat_lt
  have hbg := g.byte.toNat_lt
  have hregister : ∀ u v : VReg, u.index.toNat = v.index.toNat → u = v := fun _ _ he =>
    congrArg VReg.mk (UInt8.toNat_inj.mp he)
  cases l <;> rw [number, number] at h <;> rw [keep, keep]
  case address => rw [UInt16.toNat_inj.mp h]
  case byte =>
    rw [hregister f.x g.x (by omega), UInt8.toNat_inj.mp (show f.byte.toNat = g.byte.toNat by omega)]
  case nibble =>
    rw [hregister f.x g.x (by omega), hregister f.y g.y (by omega),
      UInt8.toNat_inj.mp (show f.nibble.toNat = g.nibble.toNat by omega)]
  case registers => rw [hregister f.x g.x (by omega), hregister f.y g.y (by omega)]
  case register => rw [hregister f.x g.x (by omega)]

/-- What a word has between its family and the bits that are free are the operands. -/
theorem number_fields : l.number w.fields + w.toNat % 2 ^ l.free = w.toNat % 2 ^ 12 := by
  have hx := w.toNat_fields_x
  have hy := w.toNat_fields_y
  have hb := w.toNat_fields_byte
  have hn := w.toNat_fields_nibble
  have ha := w.toNat_fields_address
  cases l <;> rw [free, number] <;> omega

end Layout

end Fields

theorem Word.fit_fields (w : Word) : w.fields.Fit where
  x_lt := by
    rw [UInt8.lt_iff_toNat_lt, toNat_fields_x]
    exact Nat.mod_lt _ (by decide)
  y_lt := by
    rw [UInt8.lt_iff_toNat_lt, toNat_fields_y]
    exact Nat.mod_lt _ (by decide)
  nibble_lt := by
    rw [UInt8.lt_iff_toNat_lt, toNat_fields_nibble]
    exact Nat.mod_lt _ (by decide)
  address_lt := by
    rw [UInt16.lt_iff_toNat_lt, toNat_fields_address]
    exact Nat.mod_lt _ (by decide)

namespace Opcode

/-- How the operands of an opcode lie in a word. -/
def layout : Opcode → Fields.Layout
  | cls | ret => .bare
  | sys | jp | call | ldI | jpV0 => .address
  | seImm | sneImm | ldImm | addImm | rnd => .byte
  | seReg | sneReg | ld | or | and | xor | add | sub | shr | subn | shl => .registers
  | drw => .nibble
  | skp | sknp | ldVxDt | ldVxK | ldDtVx | ldStVx | addIVx | ldFVx | ldBVx | ldMemVx | ldVxMem => .register

theorem fields_instruction (o : Opcode) (f : Fields) : (o.instruction f).fields = o.layout.keep f := by
  cases o <;> rfl

theorem instruction_keep (o : Opcode) (f : Fields) : o.instruction (o.layout.keep f) = o.instruction f := by
  cases o <;> rfl

theorem fit_fields_instruction (o : Opcode) (w : Word) : (o.instruction w.fields).fields.Fit := by
  rw [o.fields_instruction]
  exact o.layout.fit_keep w.fit_fields

/-- A row compares all bits that no operand takes, unless it compares two registers. -/
theorem selectorBits_eq (o : Opcode) :
    o.selectorBits = if o = .seReg ∨ o = .sneReg then 0 else o.layout.free := by
  cases o <;> rfl

theorem selectorBits_le_free (o : Opcode) : o.selectorBits ≤ o.layout.free := by
  cases o <;> decide

end Opcode

/-! ## Encoding -/

namespace Instruction

/-- The word of an instruction. -/
def encode (i : Instruction) : Word := i.opcode.row.value ||| i.fields.bits

/-- The operands fit, and the word is not one that clears the screen or returns. -/
structure Canonical (i : Instruction) : Prop extends i.fields.Fit where
  ne_exact : i ≠ .sys 0x0E0 ∧ i ≠ .sys 0x0EE

variable {i : Instruction}

theorem keep_fields (i : Instruction) : i.opcode.layout.keep i.fields = i.fields := by
  rw [← i.opcode.fields_instruction, Opcode.instruction_fields]

/-- Encoding adds the operands to the value of the row, and the sum stays in the family. -/
theorem toNat_encode (h : i.fields.Fit) :
    i.encode.toNat = i.opcode.row.value.toNat + i.opcode.layout.number i.fields ∧
      i.opcode.row.value.toNat % 2 ^ 12 + i.opcode.layout.number i.fields < 2 ^ 12 := by
  have hbits := i.opcode.layout.toNat_bits_keep h
  rw [keep_fields] at hbits
  rw [encode, UInt16.toNat_or, hbits]
  exact or_eq_add_of_between i.opcode.value_lt (i.opcode.layout.number_mod i.opcode.selectorBits_le_free)
    (i.opcode.layout.number_lt h)

/-- Below the operands an encoded instruction has the bits of its row. -/
theorem toNat_encode_mod (h : i.fields.Fit) {k : Nat} (hk : i.opcode.selectorBits ≤ k)
    (hfree : k ≤ i.opcode.layout.free) :
    i.encode.toNat % 2 ^ k = i.opcode.row.value.toNat % 2 ^ 12 := by
  have hnumber : i.opcode.layout.number i.fields % 2 ^ k = 0 := i.opcode.layout.number_mod hfree
  have hdvd : 2 ^ k ∣ 2 ^ 12 := Nat.pow_dvd_pow 2 (hfree.trans i.opcode.layout.free_le)
  have hvalue : i.opcode.row.value.toNat % 2 ^ 12 < 2 ^ k :=
    i.opcode.value_lt.trans_le (Nat.pow_le_pow_right (by decide) hk)
  rw [(toNat_encode h).1, Nat.add_mod, hnumber, Nat.add_zero, Nat.mod_mod, ← Nat.mod_mod_of_dvd _ hdvd]
  exact Nat.mod_eq_of_lt hvalue

theorem selects_encode (h : i.fields.Fit) : i.opcode.row.selects i.encode = true := by
  obtain ⟨hencode, hroom⟩ := toNat_encode h
  rw [Opcode.selects_iff, toNat_encode_mod h le_rfl i.opcode.selectorBits_le_free, ← UInt8.toNat_inj,
    Word.toNat_family, Word.toNat_family, hencode]
  exact ⟨by omega, rfl⟩

/-- The operands are read back. -/
theorem instruction_encode (h : i.fields.Fit) : i.opcode.instruction i.encode.fields = i := by
  obtain ⟨hencode, hroom⟩ := toNat_encode h
  have hlow := toNat_encode_mod h i.opcode.selectorBits_le_free le_rfl
  have hfields := i.opcode.layout.number_fields (w := i.encode)
  have hnumber : i.opcode.layout.number i.encode.fields = i.opcode.layout.number i.fields := by omega
  calc i.opcode.instruction i.encode.fields
      = i.opcode.instruction (i.opcode.layout.keep i.encode.fields) := (i.opcode.instruction_keep _).symm
    _ = i.opcode.instruction (i.opcode.layout.keep i.fields) := by
      rw [i.opcode.layout.keep_eq_of_number_eq i.encode.fit_fields h hnumber]
    _ = i := by rw [keep_fields, Opcode.instruction_fields]

theorem encode_sys (a : Address) : (sys a).encode = a := by
  rw [encode, fields, Fields.bits_address]
  exact UInt16.zero_or

/-- **What is encoded decodes to the same instruction.** -/
theorem decode?_encode (h : i.Canonical) : i.encode.decode? = some i := by
  have hsystem : i.opcode = .sys → i.encode ≠ 0x00E0 ∧ i.encode ≠ 0x00EE := by
    intro ho
    cases i <;> cases ho
    rw [encode_sys]
    exact ⟨fun he => h.ne_exact.1 (congrArg sys he), fun he => h.ne_exact.2 (congrArg sys he)⟩
  rw [Word.decode?_of_selects (selects_encode h.toFit) hsystem, instruction_encode h.toFit]

end Instruction

/-! ## Words that decode -/

namespace Word

variable {w : Word} {o : Opcode}

theorem fields_address_of_sys (h : Opcode.sys.row.selects w = true) : w.fields.address = w := by
  have hfamily : w.family = 0 := (Opcode.selects_iff_family rfl).mp h
  have hhigh : w.toNat / 2 ^ 12 = 0 := by
    rw [← toNat_family, hfamily]
    rfl
  rw [← UInt16.toNat_inj, toNat_fields_address]
  omega

theorem canonical_instruction (h : o.row.selects w = true)
    (hsystem : o = .sys → w ≠ 0x00E0 ∧ w ≠ 0x00EE) : (o.instruction w.fields).Canonical where
  toFit := o.fit_fields_instruction w
  ne_exact := by
    have hne : ∀ a, (o = .sys → w ≠ a) → o.instruction w.fields ≠ .sys a := by
      intro a hw he
      have ho : o = .sys := by
        rw [← o.opcode_instruction w.fields, he]
        rfl
      subst ho
      rw [Opcode.instruction, fields_address_of_sys h] at he
      exact hw rfl (Instruction.sys.inj he)
    exact ⟨hne _ fun ho => (hsystem ho).1, hne _ fun ho => (hsystem ho).2⟩

/-- A word is what its row and its operands encode, but for the bits that neither has. -/
theorem encode_instruction (h : o.row.selects w = true) :
    (o.instruction w.fields).encode = if o = .seReg ∨ o = .sneReg then w &&& 0xFFF0 else w := by
  have hencode := (Instruction.toNat_encode (o.fit_fields_instruction w)).1
  rw [o.opcode_instruction, o.fields_instruction, Fields.Layout.number_keep] at hencode
  have hfields := o.layout.number_fields (w := w)
  have hfamily : w.toNat / 2 ^ 12 = o.row.value.toNat / 2 ^ 12 := by
    rw [← toNat_family, (Opcode.selects_iff.mp h).1, toNat_family]
  have hlow := (Opcode.selects_iff.mp h).2
  rw [o.selectorBits_eq] at hlow
  rw [← UInt16.toNat_inj, hencode]
  -- only in comparisons of registers are there bits that neither the row nor an operand takes
  by_cases ho : o = .seReg ∨ o = .sneReg
  · have hfree : o.layout.free = 4 := by
      obtain rfl | rfl := ho <;> rfl
    rw [if_pos ho] at hlow
    rw [hfree] at hfields
    rw [if_pos ho, toNat_and_high]
    omega
  · rw [if_neg ho] at hlow
    rw [if_neg ho]
    omega

/-- **Decoding loses nothing and agrees with the table.** An instruction whose operands fit is read back from
its word. A word decodes if a row selects it, to an instruction of this row whose operands fit, and this
instruction is encoded as the word. Comparisons of registers have the lowest digit cleared. -/
theorem decode?_lossless :
    (∀ i : Instruction, i.Canonical → i.encode.decode? = some i) ∧
      ∀ w : Word, (w.decode? = none ↔ w.row? = none) ∧
        ∀ i, w.decode? = some i → i.Canonical ∧ w.row? = some i.opcode.row ∧
          i.encode = if i.opcode = .seReg ∨ i.opcode = .sneReg then w &&& 0xFFF0 else w := by
  refine ⟨fun i hi => Instruction.decode?_encode hi, fun w => ⟨decode?_eq_none_iff, fun i hi => ?_⟩⟩
  obtain ⟨o, rfl, hrow, hselects, hsystem⟩ := exists_opcode_of_decode? hi
  rw [o.opcode_instruction]
  exact ⟨canonical_instruction hselects hsystem, hrow, encode_instruction hselects⟩

/-- `SE V1, V2` is written as 5120. The word 512F decodes to it as well. -/
theorem decode?_lossless_skip :
    (Instruction.skipEqReg ⟨1⟩ ⟨2⟩).Canonical ∧ (0x5120 : Word).decode? = some (.skipEqReg ⟨1⟩ ⟨2⟩) ∧
      (0x512F : Word).row? = some Opcode.seReg.row ∧ (Instruction.skipEqReg ⟨1⟩ ⟨2⟩).encode = 0x5120 := by
  have hdecode : (0x512F : Word).decode? = some (.skipEqReg ⟨1⟩ ⟨2⟩) := by decide
  obtain ⟨hcanonical, hrow, hencode⟩ := (decode?_lossless.2 0x512F).2 _ hdecode
  have hread := decode?_lossless.1 _ hcanonical
  have hword : (Instruction.skipEqReg ⟨1⟩ ⟨2⟩).encode = 0x5120 := hencode.trans (by decide)
  rw [hword] at hread
  exact ⟨hcanonical, hread, hrow, hword⟩

end Word

end Chip8
