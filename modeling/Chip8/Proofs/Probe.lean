import Chip8.Image.Basic
import Chip8.Probe
import Chip8.Proofs.Basic
import Chip8.Proofs.Word

/-!
# What passes the probe

A file passes if it is not too large and every word in the window at its front decodes
(`Probe.check_eq_ok_iff`). The default limit for its size is the room above the load address, so what is too
large for the probe is what cannot be loaded there (`Probe.tooLarge_iff_misfit`).

What does not pass is refused for the first of three reasons that applies: it is too large, it is shorter than
the window, or a word in the window does not decode, and then the first such word is named
(`Probe.check_eq_iff_verdict`). The size of the window is cut off at the largest size there is, but no file is
so large that this matters.
-/

namespace Chip8.Probe

variable {limits : Limits} {bytes : Bytes} {need offset size max : Nat}

/-- Every word passes if all words of the window decode. -/
theorem checkWords_eq_ok_iff :
    checkWords bytes need offset = .ok () ↔
      ∀ k, offset + 2 * k < need →
        ∃ w, Word.at? bytes (offset + 2 * k) = some w ∧ w.decode?.isSome = true := by
  fun_induction checkWords bytes need offset with
  | case1 offset hlt hnone =>
    refine ⟨nofun, fun h => ?_⟩
    obtain ⟨w, hw, -⟩ := h 0 hlt
    rw [Nat.mul_zero, Nat.add_zero, hnone] at hw
    cases hw
  | case2 offset hlt w hw hdecodes ih =>
    refine ih.trans ⟨fun h k hk => ?_, fun h k hk => ?_⟩
    · cases k with
      | zero => exact ⟨w, hw, hdecodes⟩
      | succ k =>
        rw [← next_place] at hk ⊢
        exact h k hk
    · rw [next_place] at hk ⊢
      exact h (k + 1) hk
  | case3 offset hlt w hw hnot =>
    refine ⟨nofun, fun h => ?_⟩
    obtain ⟨v, hv, hdecodes⟩ := h 0 hlt
    rw [Nat.mul_zero, Nat.add_zero, hw] at hv
    rw [← Option.some.inj hv] at hdecodes
    exact absurd hdecodes hnot
  | case4 offset hle => exact ⟨fun _ k hk => absurd hk (by omega), fun _ => rfl⟩

theorem checkWords_ne_tooLarge : checkWords bytes need offset ≠ .error (.tooLarge size max) := by
  fun_induction checkWords bytes need offset with
  | case1 => nofun
  | case2 _ _ _ _ _ ih => exact ih
  | case3 => nofun
  | case4 => nofun

/-- A word that decodes is passed over. -/
theorem checkWords_of_decodes {w : Word} (hlt : offset < need) (hw : Word.at? bytes offset = some w)
    (hd : w.decode?.isSome = true) :
    checkWords bytes need offset = checkWords bytes need (offset + 2) := by
  rw [checkWords, if_pos hlt, hw]
  exact if_pos hd

/-- A word that does not decode is named. -/
theorem checkWords_of_fails {w : Word} (hlt : offset < need) (hw : Word.at? bytes offset = some w)
    (hd : w.decode? = none) : checkWords bytes need offset = .error (.undecodable offset w) := by
  rw [checkWords, if_pos hlt, hw]
  exact if_neg (by simp [hd])

/-- All words that decode are passed over. -/
theorem checkWords_skip {k : Nat} (h : ∀ j < k, offset + 2 * j < need ∧
      ∃ w, Word.at? bytes (offset + 2 * j) = some w ∧ w.decode?.isSome = true) :
    checkWords bytes need offset = checkWords bytes need (offset + 2 * k) := by
  induction k with
  | zero => rfl
  | succ k ih =>
    obtain ⟨hlt, w, hw, hd⟩ := h k (Nat.lt_succ_self k)
    rw [ih fun j hj => h j (Nat.lt_succ_of_lt hj), checkWords_of_decodes hlt hw hd]
    rfl

/-- The word that is named is the first in the window that does not decode. -/
theorem checkWords_eq_undecodable_iff {place : Nat} {w : Word} :
    checkWords bytes need offset = .error (.undecodable place w) ↔
      ∃ k, place = offset + 2 * k ∧ place < need ∧ Word.at? bytes place = some w ∧
        w.decode? = none ∧
        ∀ j < k, ∃ v, Word.at? bytes (offset + 2 * j) = some v ∧ v.decode?.isSome = true := by
  constructor
  · fun_induction checkWords bytes need offset with
    | case1 => nofun
    | case2 offset hlt v hv hdecodes ih =>
      intro h
      obtain ⟨k, rfl, hneed, hw, hfails, hearlier⟩ := ih h
      refine ⟨k + 1, next_place offset k, hneed, hw, hfails, fun j hj => ?_⟩
      cases j with
      | zero => exact ⟨v, hv, hdecodes⟩
      | succ j =>
        rw [← next_place]
        exact hearlier j (Nat.lt_of_succ_lt_succ hj)
    | case3 offset hlt v hv hnot =>
      rintro ⟨⟩
      exact ⟨0, rfl, hlt, hv, Option.not_isSome_iff_eq_none.mp hnot, nofun⟩
    | case4 => nofun
  · rintro ⟨k, rfl, hneed, hw, hfails, hearlier⟩
    rw [checkWords_skip fun j hj => ⟨by omega, hearlier j hj⟩, checkWords_of_fails hneed hw hfails]

/-- Where a word starts at every place that is looked at, none is missing. -/
theorem checkWords_ne_tooShort (h : ∀ k, offset + 2 * k < need → offset + 2 * k + 1 < bytes.size) :
    checkWords bytes need offset ≠ .error (.tooShort size max) := by
  fun_induction checkWords bytes need offset with
  | case1 offset hlt hnone =>
    obtain ⟨w, hw⟩ : ∃ w, Word.at? bytes offset = some w := Word.exists_at?_of_lt (h 0 hlt)
    rw [hnone] at hw
    cases hw
  | case2 offset hlt w hw hdecodes ih =>
    refine ih fun k hk => ?_
    have hnext := h (k + 1) (by omega)
    omega
  | case3 => nofun
  | case4 => nofun

/-- The outcome depends only on the size and on the words that are looked at. -/
theorem checkWords_congr {bytes' : Bytes} (hsize : bytes'.size = bytes.size)
    (h : ∀ k, offset + 2 * k < need →
      Word.at? bytes' (offset + 2 * k) = Word.at? bytes (offset + 2 * k)) :
    checkWords bytes' need offset = checkWords bytes need offset := by
  fun_induction checkWords bytes need offset with
  | case1 offset hlt hnone =>
    have hsame : Word.at? bytes' offset = Word.at? bytes offset := h 0 hlt
    rw [checkWords, if_pos hlt, hsame, hnone, hsize]
  | case2 offset hlt w hw hdecodes ih =>
    have hsame : Word.at? bytes' offset = Word.at? bytes offset := h 0 hlt
    rw [checkWords_of_decodes hlt (hsame.trans hw) hdecodes]
    refine ih fun k hk => ?_
    rw [next_place] at hk ⊢
    exact h (k + 1) hk
  | case3 offset hlt w hw hnot =>
    have hsame : Word.at? bytes' offset = Word.at? bytes offset := h 0 hlt
    exact checkWords_of_fails hlt (hsame.trans hw) (Option.not_isSome_iff_eq_none.mp hnot)
  | case4 offset hle => rw [checkWords, if_neg hle]

/-- **What passes is small enough and decodes in its window.** -/
theorem check_eq_ok_iff :
    check limits bytes = .ok () ↔
      bytes.size ≤ limits.maxSize ∧
        ∀ k, 2 * k < limits.windowSize →
          ∃ w, Word.at? bytes (2 * k) = some w ∧ w.decode?.isSome = true := by
  have hwords : checkWords bytes limits.windowSize 0 = .ok () ↔
      ∀ k, 2 * k < limits.windowSize →
        ∃ w, Word.at? bytes (2 * k) = some w ∧ w.decode?.isSome = true := by
    rw [checkWords_eq_ok_iff]
    simp only [Nat.zero_add]
  unfold check
  split
  · next hlarge => exact ⟨nofun, fun h => absurd h.1 (Nat.not_le.mpr hlarge)⟩
  split
  · next hle hshort =>
    refine ⟨nofun, fun h => ?_⟩
    -- the last word of the window would have to reach beyond the file
    obtain ⟨w, hw, -⟩ := h.2 ((limits.windowSize - 1) / 2) (by omega)
    have hlast := Word.lt_size_of_at? hw
    omega
  · next hle _ => rw [hwords, and_iff_right (Nat.not_lt.mp hle)]

/-- The size is looked at first, so nothing else says that a file is too large. -/
theorem check_eq_tooLarge_iff :
    (∃ size max, check limits bytes = .error (.tooLarge size max)) ↔ limits.maxSize < bytes.size := by
  unfold check
  by_cases hlarge : limits.maxSize < bytes.size
  · rw [if_pos hlarge]
    exact ⟨fun _ => hlarge, fun _ => ⟨_, _, rfl⟩⟩
  · rw [if_neg hlarge]
    refine ⟨?_, fun h => absurd h hlarge⟩
    rintro ⟨size, max, h⟩
    split at h
    · cases h
    · exact absurd h checkWords_ne_tooLarge

/-- **By default a file is too large exactly if it cannot be loaded.** -/
theorem tooLarge_iff_misfit :
    (∃ e, Image.ofProgram bytes Machine.loadAddress = .error e) ↔
      ∃ size max, check {} bytes = .error (.tooLarge size max) := by
  have hroom := Machine.loadAddress_add_maxProgramSize
  rw [check_eq_tooLarge_iff]
  show _ ↔ Machine.maxProgramSize < bytes.size
  unfold Image.ofProgram
  split
  · exact ⟨nofun, fun h => by omega⟩
  · exact ⟨fun _ => by omega, fun _ => ⟨_, rfl⟩⟩

/-! ## Why a file is refused -/

/-- The word `w` is number `k` of a file, counted from zero, and the first that does not decode. -/
structure FirstUndecodable (bytes : Bytes) (k : Nat) (w : Word) : Prop where
  stored : ∃ hi lo, bytes[2 * k]? = some hi ∧ bytes[2 * k + 1]? = some lo ∧
    w.toNat = 256 * hi.toNat + lo.toNat
  fails : w.decode? = none
  earlier : ∀ j < k, ∃ v, Word.at? bytes (2 * j) = some v ∧ v.decode?.isSome = true

/--
What is to be said about a file. There are three reasons to refuse it, and the first that applies is given:
its size, that it has fewer words than have to decode, and the first of these that does not.
-/
inductive Verdict (limits : Limits) (bytes : Bytes) : Except Rejection Unit → Prop where
  | tooLarge : limits.maxSize < bytes.size →
      Verdict limits bytes (.error (.tooLarge bytes.size limits.maxSize))
  | tooShort : bytes.size ≤ limits.maxSize → bytes.size < 2 * limits.words →
      Verdict limits bytes (.error (.tooShort bytes.size (min (2 * limits.words) (2 ^ 64 - 1))))
  | undecodable {k : Nat} {w : Word} : bytes.size ≤ limits.maxSize → 2 * limits.words ≤ bytes.size →
      k < limits.words → FirstUndecodable bytes k w →
      Verdict limits bytes (.error (.undecodable (2 * k) w))
  | ok : bytes.size ≤ limits.maxSize → 2 * limits.words ≤ bytes.size →
      (∀ k < limits.words, ∃ w, Word.at? bytes (2 * k) = some w ∧ w.decode?.isSome = true) →
      Verdict limits bytes (.ok ())

/-- No file is so large that the bound on the window would matter. -/
theorem size_lt_windowSize_iff (hsize : bytes.size < 2 ^ 63) :
    bytes.size < limits.windowSize ↔ bytes.size < 2 * limits.words := by
  have hmax : Numeral.maxSize = 2 ^ 64 - 1 := rfl
  unfold Limits.windowSize
  omega

/-- A window that a file can fill holds all its words. -/
theorem windowSize_eq (hsize : bytes.size < 2 ^ 63) (h : limits.windowSize ≤ bytes.size) :
    limits.windowSize = 2 * limits.words := by
  have hmax : Numeral.maxSize = 2 ^ 64 - 1 := rfl
  unfold Limits.windowSize at h ⊢
  omega

theorem checkWords_window_eq_undecodable_iff {place : Nat} {w : Word} :
    checkWords bytes (2 * limits.words) 0 = .error (.undecodable place w) ↔
      ∃ k < limits.words, place = 2 * k ∧ FirstUndecodable bytes k w := by
  simp only [checkWords_eq_undecodable_iff, Nat.zero_add]
  constructor
  · rintro ⟨k, rfl, hk, hw, hfails, hearlier⟩
    obtain ⟨hi, lo, hhi, hlo, heq⟩ := Word.at?_eq_some_iff.mp hw
    exact ⟨k, by omega, rfl, ⟨hi, lo, hhi, hlo, Word.eq_ofBytes_iff.mp heq⟩, hfails, hearlier⟩
  · rintro ⟨k, hk, rfl, hfirst⟩
    obtain ⟨hi, lo, hhi, hlo, heq⟩ := hfirst.stored
    have hw := Word.at?_eq_some_iff.mpr ⟨hi, lo, hhi, hlo, Word.eq_ofBytes_iff.mpr heq⟩
    exact ⟨k, rfl, by omega, hw, hfirst.fails, hfirst.earlier⟩

/-- Where there are as many words as have to decode, they decide. -/
theorem check_of_fits (hsize : bytes.size < 2 ^ 63) (hle : bytes.size ≤ limits.maxSize)
    (hlong : 2 * limits.words ≤ bytes.size) :
    check limits bytes = checkWords bytes (2 * limits.words) 0 := by
  have hfits : ¬ bytes.size < limits.windowSize := fun h =>
    Nat.not_lt.mpr hlong ((size_lt_windowSize_iff hsize).mp h)
  rw [check, if_neg (Nat.not_lt.mpr hle), if_neg hfits, windowSize_eq hsize (Nat.not_lt.mp hfits)]

/-- What is said about a file is what is to be said. -/
theorem verdict_check (limits : Limits) (hsize : bytes.size < 2 ^ 63) :
    Verdict limits bytes (check limits bytes) := by
  by_cases hlarge : limits.maxSize < bytes.size
  · rw [check, if_pos hlarge]
    exact .tooLarge hlarge
  have hle := Nat.not_lt.mp hlarge
  by_cases hshort : bytes.size < 2 * limits.words
  · rw [check, if_neg hlarge, if_pos ((size_lt_windowSize_iff hsize).mpr hshort)]
    exact .tooShort hle hshort
  have hlong := Nat.not_lt.mp hshort
  rw [check_of_fits hsize hle hlong]
  cases hwords : checkWords bytes (2 * limits.words) 0 with
  | ok _ =>
    have hall := checkWords_eq_ok_iff.mp hwords
    simp only [Nat.zero_add] at hall
    exact .ok hle hlong fun k hk => hall k (by omega)
  | error e =>
    cases e with
    | tooLarge => exact absurd hwords checkWords_ne_tooLarge
    | tooShort => exact absurd hwords (checkWords_ne_tooShort fun k hk => by omega)
    | undecodable place w =>
      obtain ⟨k, hk, rfl, hfirst⟩ := checkWords_window_eq_undecodable_iff.mp hwords
      exact .undecodable hle hlong hk hfirst

/-- There is only one thing to be said about a file. -/
theorem check_eq_of_verdict {r : Except Rejection Unit} (hsize : bytes.size < 2 ^ 63)
    (h : Verdict limits bytes r) : check limits bytes = r := by
  cases h with
  | tooLarge hlarge => rw [check, if_pos hlarge]
  | tooShort hle hshort =>
    rw [check, if_neg (Nat.not_lt.mpr hle), if_pos ((size_lt_windowSize_iff hsize).mpr hshort)]
    rfl
  | undecodable hle hlong hk hfirst =>
    rw [check_of_fits hsize hle hlong]
    exact checkWords_window_eq_undecodable_iff.mpr ⟨_, hk, rfl, hfirst⟩
  | ok hle hlong hall =>
    rw [check_of_fits hsize hle hlong]
    refine checkWords_eq_ok_iff.mpr fun k hk => ?_
    rw [Nat.zero_add] at hk ⊢
    exact hall k (by omega)

/-- What is behind the window counts only through the size of the file. -/
theorem check_congr {bytes' : Bytes} (hsize : bytes.size < 2 ^ 63) (hsame : bytes'.size = bytes.size)
    (h : ∀ i < 2 * limits.words, bytes'[i]? = bytes[i]?) : check limits bytes' = check limits bytes := by
  unfold check
  rw [hsame]
  split
  · rfl
  split
  · rfl
  · next hlong =>
    have hwindow := windowSize_eq hsize (Nat.not_lt.mp hlong)
    refine checkWords_congr hsame fun k hk => ?_
    unfold Word.at?
    rw [h _ (by omega), h _ (by omega)]

/--
**A probe decides exactly what it is to decide.**

The verdict on a file is the only one there is to be given. Once the words of a file are looked at, none of
them is missing. And the bytes behind the window count only through the size of the file.
-/
theorem check_eq_iff_verdict (limits : Limits) {bytes : Bytes} (hsize : bytes.size < 2 ^ 63) :
    (∀ r, check limits bytes = r ↔ Verdict limits bytes r) ∧
      (limits.windowSize ≤ bytes.size → ∀ size need,
        checkWords bytes limits.windowSize 0 ≠ .error (.tooShort size need)) ∧
      ∀ bytes' : Bytes, bytes'.size = bytes.size →
        (∀ i < 2 * limits.words, bytes'[i]? = bytes[i]?) →
        check limits bytes' = check limits bytes := by
  refine ⟨fun r => ⟨?_, check_eq_of_verdict hsize⟩, ?_, ?_⟩
  · rintro rfl
    exact verdict_check limits hsize
  · intro hlong size need
    have hwindow := windowSize_eq hsize hlong
    exact checkWords_ne_tooShort fun k hk => by omega
  · intro bytes' hsame h
    exact check_congr hsize hsame h

/-- The second word does not decode, whatever is behind it, and no file fills a window of so many words. -/
theorem check_eq_iff_verdict_second :
    (#[0x00, 0xE0, 0xE1, 0xFF, 0xFF] : Bytes).size < 2 ^ 63 ∧
      check ⟨16, 2⟩ #[0x00, 0xE0, 0xE1, 0xFF, 0xFF] = .error (.undecodable 2 0xE1FF) ∧
      check ⟨16, 2⟩ #[0x00, 0xE0, 0xE1, 0xFF, 0x00] = .error (.undecodable 2 0xE1FF) ∧
      check ⟨16, 2 ^ 63⟩ #[0x00, 0xE0, 0xE1, 0xFF, 0xFF] = .error (.tooShort 5 (2 ^ 64 - 1)) ∧
      checkWords #[0x00, 0xE0, 0xE1, 0xFF, 0xFF] 4 0 ≠ .error (.tooShort 5 4) := by
  have hsize : (#[0x00, 0xE0, 0xE1, 0xFF, 0xFF] : Bytes).size < 2 ^ 63 := by decide
  obtain ⟨hiff, hloop, hbehind⟩ := check_eq_iff_verdict ⟨16, 2⟩ hsize
  have hfirst : FirstUndecodable #[0x00, 0xE0, 0xE1, 0xFF, 0xFF] 1 0xE1FF :=
    ⟨⟨0xE1, 0xFF, rfl, rfl, rfl⟩, rfl, fun j hj => ⟨0x00E0, by rw [Nat.lt_one_iff.mp hj]; rfl, rfl⟩⟩
  have hcheck := (hiff _).mpr (.undecodable (by decide) (by decide) (by decide) hfirst)
  have hsame : check ⟨16, 2⟩ #[0x00, 0xE0, 0xE1, 0xFF, 0x00] = _ := hbehind _ rfl (by decide)
  exact ⟨hsize, hcheck, hsame.trans hcheck,
    ((check_eq_iff_verdict ⟨16, 2 ^ 63⟩ hsize).1 _).mpr (.tooShort (by decide) (by decide)),
    hloop (by decide) 5 4⟩

end Chip8.Probe
