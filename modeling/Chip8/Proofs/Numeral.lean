import Chip8.Numeral
import Chip8.Proofs.Basic

/-!
# Reading numbers back

A number that was written in hexadecimal is read back as itself, whatever the zeros in front of it and as
long as it does not exceed the limit (`readDigits_hexDigits`). So the form in which addresses are shown is
one that is understood where an address may be typed (`readAddress_address`).
-/

namespace Chip8

/-! ## Blanks -/

/-- Where there are no blanks, there is nothing to trim. -/
theorem Blank.trim_eq_self {cs : List Char} (h : ∀ c ∈ cs, isBlank c = false) : trim cs = cs := by
  have hkeep : ∀ ds : List Char, (∀ c ∈ ds, isBlank c = false) → ds.dropWhile isBlank = ds := by
    intro ds hds
    cases ds with
    | nil => rfl
    | cons d ds => exact List.dropWhile_cons_of_neg (by simp [hds d List.mem_cons_self])
  have hrev : ∀ c ∈ cs.reverse, isBlank c = false := fun c hc => h c (List.mem_reverse.mp hc)
  rw [trim, hkeep cs h, hkeep cs.reverse hrev, List.reverse_reverse]

namespace Numeral

variable {k n limit : Nat} {c : Char} {cs ds : List Char}

/-! ## Digits -/

theorem digit?_digitChar : ∀ d < 16, digit? 16 (Nat.digitChar d) = some d := by decide

theorem isBlank_digitChar : ∀ d < 16, Blank.isBlank (Nat.digitChar d) = false := by decide

/-- Reading goes on behind what has been read. -/
theorem readDigits_append {radix value m : Nat} (h : readDigits radix limit value cs = .ok m) :
    readDigits radix limit value (cs ++ ds) = readDigits radix limit m ds := by
  induction cs generalizing value with
  | nil =>
    rw [← Except.ok.inj h]
    rfl
  | cons c cs ih =>
    rw [List.cons_append]
    cases hd : digit? radix c with
    | none =>
      simp only [readDigits, hd] at h
      cases h
    | some d =>
      simp only [readDigits, hd] at h ⊢
      by_cases hle : value * radix + d ≤ limit
      · rw [if_pos hle] at h ⊢
        exact ih h
      · rw [if_neg hle] at h
        cases h

theorem readDigits_digitChar {d value : Nat} (hd : d < 16) (h : value * 16 + d ≤ limit) :
    readDigits 16 limit value [Nat.digitChar d] = .ok (value * 16 + d) := by
  simp only [readDigits, digit?_digitChar d hd, if_pos h]

/-- A number is read back from its digits. -/
theorem readDigits_toDigits (h : n ≤ limit) : readDigits 16 limit 0 (Nat.toDigits 16 n) = .ok n := by
  induction n using Nat.strongRecOn with
  | ind n ih =>
    by_cases hlt : n < 16
    · rw [Nat.toDigits_of_lt_base hlt, readDigits_digitChar hlt (by omega), Nat.zero_mul, Nat.zero_add]
    · -- all digits but the last are those of `n / 16`
      have hrest := ih (n / 16) (by omega) (by omega)
      have hn : n / 16 * 16 + n % 16 = n := by omega
      rw [Nat.toDigits_of_base_le (by decide) (by omega), readDigits_append hrest,
        readDigits_digitChar (Nat.mod_lt n (by decide)) (by omega), hn]

/-! ## Padded digits -/

theorem toList_hexDigits (k n : Nat) :
    (hexDigits k n).toList =
      List.replicate (k - (Nat.toDigits 16 n).length) '0' ++ Nat.toDigits 16 n := by
  rw [hexDigits, String.toList_ofList]
  rfl

/-- A number that fits takes exactly the digits that were asked for. -/
theorem length_hexDigits (h : (Nat.toDigits 16 n).length ≤ k) : (hexDigits k n).toList.length = k := by
  rw [toList_hexDigits, List.length_append, List.length_replicate]
  omega

theorem exists_digitChar_of_mem_hexDigits (h : c ∈ (hexDigits k n).toList) :
    ∃ d < 16, c = Nat.digitChar d := by
  rw [toList_hexDigits, List.mem_append] at h
  rcases h with h | h
  · exact ⟨0, by decide, List.eq_of_mem_replicate h⟩
  · exact exists_digitChar_of_mem_toDigits (by decide) h

theorem readDigits_replicate_zero (k limit : Nat) :
    readDigits 16 limit 0 (List.replicate k '0') = .ok 0 := by
  induction k with
  | zero => rfl
  | succ k ih =>
    have hzero : digit? 16 '0' = some 0 := rfl
    rw [List.replicate_succ, readDigits, hzero]
    exact ih

theorem readDigits_hexDigits (k : Nat) (h : n ≤ limit) :
    readDigits 16 limit 0 (hexDigits k n).toList = .ok n := by
  rw [toList_hexDigits, readDigits_append (readDigits_replicate_zero _ limit), readDigits_toDigits h]

/-- Digits start with a digit, and so with no sign. -/
theorem hexDigits_head (k n : Nat) : ∃ d < 16, ∃ cs, (hexDigits k n).toList = Nat.digitChar d :: cs := by
  cases hcs : (hexDigits k n).toList with
  | nil =>
    rw [toList_hexDigits, List.append_eq_nil_iff] at hcs
    exact absurd hcs.2 Nat.toDigits_ne_nil
  | cons c cs =>
    have hmem : c ∈ (hexDigits k n).toList := by
      rw [hcs]
      exact List.mem_cons_self
    obtain ⟨d, hd, rfl⟩ := exists_digitChar_of_mem_hexDigits hmem
    exact ⟨d, hd, cs, rfl⟩

/-- **Numbers are read back as they were written.** -/
theorem read_hexDigits (k : Nat) (h : n ≤ limit) : read 16 limit (hexDigits k n).toList = .ok n := by
  have hsign : ∀ d < 16, Nat.digitChar d ≠ '+' := by decide
  have hread := readDigits_hexDigits k h
  obtain ⟨d, hd, cs, hcs⟩ := hexDigits_head k n
  rw [hcs] at hread ⊢
  unfold read
  split
  · next heq => cases heq
  · next heq => exact absurd (List.cons.inj heq).1 (hsign d hd)
  · next heq => exact absurd (List.cons.inj heq).1 (hsign d hd)
  · exact hread

/-- **Different numbers are written differently.** -/
theorem hexDigits_injective {m : Nat} (h : hexDigits k m = hexDigits k n) : m = n := by
  have hm := readDigits_hexDigits k (Nat.le_max_left m n)
  have hn := readDigits_hexDigits k (Nat.le_max_right m n)
  rw [h, hn] at hm
  exact (Except.ok.inj hm).symm

/-! ## Addresses -/

/-- An address takes four digits. -/
@[simp]
theorem length_hexDigits_address (a : UInt16) : (hexDigits 4 a.toNat).toList.length = 4 :=
  length_hexDigits ((Nat.length_toDigits_le_iff (by decide) (by decide)).mpr a.toNat_lt)

@[simp]
theorem toList_hexPadded (k n : Nat) :
    (hexPadded k n).toList = '0' :: 'x' :: (hexDigits k n).toList := by
  rw [hexPadded, String.toList_append]
  rfl

theorem forall_mem_hexPadded {P : Char → Prop} (hx : P 'x') (hdigit : ∀ d < 16, P (Nat.digitChar d)) :
    ∀ c ∈ (hexPadded k n).toList, P c := by
  intro c hc
  rw [toList_hexPadded] at hc
  rcases List.mem_cons.mp hc with rfl | hc
  · exact hdigit 0 (by decide)
  rcases List.mem_cons.mp hc with rfl | hc
  · exact hx
  obtain ⟨d, hd, rfl⟩ := exists_digitChar_of_mem_hexDigits hc
  exact hdigit d hd

/-- **A number of 16 bits that is shown can be typed**, with or without zeros in front. -/
@[simp]
theorem readAddress_hexPadded (k : Nat) (a : UInt16) : readAddress (hexPadded k a.toNat) = .ok a := by
  have hblank : ∀ c ∈ (hexPadded k a.toNat).toList, Blank.isBlank c = false :=
    forall_mem_hexPadded (by decide) isBlank_digitChar
  have hle : a.toNat ≤ UInt16.size - 1 := Nat.le_sub_one_of_lt a.toNat_lt
  unfold readAddress
  rw [Blank.trim_eq_self hblank, toList_hexPadded]
  show UInt16.ofNat <$> read 16 (UInt16.size - 1) (hexDigits k a.toNat).toList = _
  rw [read_hexDigits k hle]
  show Except.ok (UInt16.ofNat a.toNat) = _
  rw [UInt16.ofNat_toNat]

@[simp]
theorem toList_address (a : UInt16) :
    (address a).toList = '0' :: 'x' :: (hexDigits 4 a.toNat).toList :=
  toList_hexPadded 4 a.toNat

/-- **An address that is shown can be typed.** -/
@[simp]
theorem readAddress_address (a : UInt16) : readAddress (address a) = .ok a :=
  readAddress_hexPadded 4 a

end Numeral

end Chip8
