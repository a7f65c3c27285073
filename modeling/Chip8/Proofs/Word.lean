import Chip8.Word
import Mathlib.Algebra.Group.Nat.Defs

/-!
# Words as numbers

A word is the number that its two bytes form, and taken apart it gives the same two bytes back. It is also a
number of four hexadecimal digits, and its fields are runs of these digits.
-/

namespace Chip8.Word

@[simp]
theorem toNat_ofBytes (hi lo : UInt8) : (ofBytes hi lo).toNat = 256 * hi.toNat + lo.toNat := by
  have hhi := hi.toNat_lt
  have hlo := lo.toNat_lt
  have hshift : hi.toNat <<< 8 = 256 * hi.toNat := by
    rw [Nat.shiftLeft_eq]
    omega
  have hsmall : hi.toNat <<< 8 % 2 ^ 16 = hi.toNat <<< 8 := Nat.mod_eq_of_lt (by omega)
  simp only [ofBytes, UInt16.toNat_or, UInt16.toNat_shiftLeft, UInt8.toNat_toUInt16]
  show hi.toNat <<< 8 % 2 ^ 16 ||| lo.toNat = _
  rw [hsmall, ← Nat.shiftLeft_add_eq_or_of_lt hlo, hshift]

/-- A word is the number that its bytes form, the high one first. -/
theorem eq_ofBytes_iff {w : Word} {hi lo : UInt8} :
    w = ofBytes hi lo ↔ w.toNat = 256 * hi.toNat + lo.toNat := by
  rw [← UInt16.toNat_inj, toNat_ofBytes]

theorem toNat_highByte (w : Word) : w.highByte.toNat = w.toNat / 256 := by
  have hw := w.toNat_lt
  have hshift : w.toNat >>> 8 = w.toNat / 256 := Nat.shiftRight_eq_div_pow w.toNat 8
  rw [highByte, UInt16.toNat_toUInt8, UInt16.toNat_shiftRight]
  show w.toNat >>> 8 % 256 = _
  rw [hshift]
  omega

theorem toNat_lowByte (w : Word) : w.lowByte.toNat = w.toNat % 256 := by
  simp [lowByte]

@[simp]
theorem highByte_ofBytes (hi lo : UInt8) : (ofBytes hi lo).highByte = hi := by
  have hlo := lo.toNat_lt
  rw [← UInt8.toNat_inj, toNat_highByte, toNat_ofBytes]
  omega

@[simp]
theorem lowByte_ofBytes (hi lo : UInt8) : (ofBytes hi lo).lowByte = lo := by
  have hlo := lo.toNat_lt
  rw [← UInt8.toNat_inj, toNat_lowByte, toNat_ofBytes]
  omega

/-! ## Reading -/

variable {bytes : Bytes} {offset : Nat} {w : Word}

theorem at?_eq_some_iff :
    at? bytes offset = some w ↔
      ∃ hi lo, bytes[offset]? = some hi ∧ bytes[offset + 1]? = some lo ∧ w = ofBytes hi lo := by
  unfold at?
  constructor
  · intro h
    obtain ⟨hi, hhi, h⟩ := Option.bind_eq_some_iff.mp h
    obtain ⟨lo, hlo, h⟩ := Option.bind_eq_some_iff.mp h
    exact ⟨hi, lo, hhi, hlo, (Option.some.inj h).symm⟩
  · rintro ⟨hi, lo, hhi, hlo, rfl⟩
    simp [hhi, hlo]

/-- A word has two bytes. -/
theorem lt_size_of_at? (h : at? bytes offset = some w) : offset + 1 < bytes.size := by
  obtain ⟨hi, lo, -, hlo, -⟩ := at?_eq_some_iff.mp h
  exact (Array.getElem?_eq_some_iff.mp hlo).1

/-- A word starts wherever there are two bytes. -/
theorem exists_at?_of_lt (h : offset + 1 < bytes.size) : ∃ w, at? bytes offset = some w :=
  ⟨_, at?_eq_some_iff.mpr ⟨_, _, Array.getElem?_eq_getElem (by omega), Array.getElem?_eq_getElem h, rfl⟩⟩

/-! ## Fields -/

@[simp]
theorem toNat_family (w : Word) : w.family.toNat = w.toNat / 2 ^ 12 := by
  have hw := w.toNat_lt
  rw [family, UInt16.toNat_toUInt8, UInt16.toNat_shiftRight]
  show w.toNat >>> 12 % 2 ^ 8 = _
  rw [Nat.shiftRight_eq_div_pow]
  omega

/-- The digit of a word above its lowest `k` bits. -/
theorem toNat_digit (w : Word) {k : Word} (hk : k.toNat < 16) :
    ((w >>> k) &&& 0xF).toUInt8.toNat = w.toNat / 2 ^ k.toNat % 2 ^ 4 := by
  rw [UInt16.toNat_toUInt8, UInt16.toNat_and, UInt16.toNat_shiftRight, Nat.mod_eq_of_lt hk,
    Nat.shiftRight_eq_div_pow]
  show (w.toNat / 2 ^ k.toNat &&& 2 ^ 4 - 1) % 2 ^ 8 = _
  rw [Nat.and_two_pow_sub_one_eq_mod]
  omega

@[simp]
theorem toNat_x (w : Word) : w.x.toNat = w.toNat / 2 ^ 8 % 2 ^ 4 := w.toNat_digit (by decide)

@[simp]
theorem toNat_y (w : Word) : w.y.toNat = w.toNat / 2 ^ 4 % 2 ^ 4 := w.toNat_digit (by decide)

/-- The lowest `k` bits of a word. -/
theorem toNat_low (w : Word) {mask : Word} {k : Nat} (hk : k ≤ 8) (hmask : mask.toNat = 2 ^ k - 1) :
    (w &&& mask).toUInt8.toNat = w.toNat % 2 ^ k := by
  have hlt : w.toNat % 2 ^ k < 2 ^ 8 :=
    Nat.lt_of_lt_of_le (Nat.mod_lt _ (Nat.two_pow_pos k)) (Nat.pow_le_pow_right (by decide) hk)
  rw [UInt16.toNat_toUInt8, UInt16.toNat_and, hmask, Nat.and_two_pow_sub_one_eq_mod, Nat.mod_eq_of_lt hlt]

@[simp]
theorem toNat_byte (w : Word) : w.byte.toNat = w.toNat % 2 ^ 8 := w.toNat_low (Nat.le_refl 8) rfl

@[simp]
theorem toNat_nibble (w : Word) : w.nibble.toNat = w.toNat % 2 ^ 4 := w.toNat_low (by decide) rfl

@[simp]
theorem toNat_address (w : Word) : w.address.toNat = w.toNat % 2 ^ 12 :=
  Nat.and_two_pow_sub_one_eq_mod w.toNat 12

/-! ## Masks -/

/-- The mask of the family and the lowest `k` bits. -/
theorem toNat_and_mask (w : Word) {mask : Word} {k : Nat} (hk : k ≤ 12)
    (hmask : mask.toNat = 15 * 2 ^ 12 + (2 ^ k - 1)) :
    (w &&& mask).toNat = w.toNat / 2 ^ 12 * 2 ^ 12 + w.toNat % 2 ^ k := by
  have hw := w.toNat_lt
  have hle : 2 ^ k ≤ 2 ^ 12 := Nat.pow_le_pow_right (by decide) hk
  have hpos : 0 < 2 ^ k := Nat.two_pow_pos k
  have hhigh : (w.toNat &&& mask.toNat) / 2 ^ 12 = w.toNat / 2 ^ 12 := by
    have hfamily : mask.toNat / 2 ^ 12 = 2 ^ 4 - 1 := by omega
    rw [Nat.and_div_two_pow, hfamily, Nat.and_two_pow_sub_one_eq_mod]
    omega
  have hlow : (w.toNat &&& mask.toNat) % 2 ^ 12 = w.toNat % 2 ^ k := by
    have hselector : mask.toNat % 2 ^ 12 = 2 ^ k - 1 := by omega
    rw [Nat.and_mod_two_pow, hselector, Nat.and_two_pow_sub_one_eq_mod,
      Nat.mod_mod_of_dvd _ (Nat.pow_dvd_pow 2 hk)]
  rw [UInt16.toNat_and]
  omega

/-- The mask of all but the nibble. -/
theorem toNat_and_high (w : Word) : (w &&& 0xFFF0).toNat = w.toNat / 2 ^ 4 * 2 ^ 4 := by
  have hw := w.toNat_lt
  have hhigh : (w.toNat &&& 0xFFF0) / 2 ^ 4 = w.toNat / 2 ^ 4 := by
    rw [Nat.and_div_two_pow]
    show w.toNat / 2 ^ 4 &&& 2 ^ 12 - 1 = _
    rw [Nat.and_two_pow_sub_one_eq_mod]
    omega
  have hlow : (w.toNat &&& 0xFFF0) % 2 ^ 4 = 0 := by
    rw [Nat.and_mod_two_pow]
    exact Nat.and_zero _
  rw [UInt16.toNat_and]
  show w.toNat &&& 0xFFF0 = _
  omega

end Chip8.Word
