import Chip8.Proofs.Address
import Chip8.Proofs.Image.Segments

/-!
# The image of a program

What can be read from the image of a program: its bytes are mapped one by one from the base on, nothing else
is mapped, and a word starts at every mapped address but the last.
-/

namespace Chip8.Image

variable {img : Image} {a : Address} {program : Bytes} {base : Address}

/-- Loading succeeds exactly if the program fits, and there is only one result. -/
theorem ofProgram_eq_ok_iff :
    ofProgram program base = .ok img ↔
      base.toNat + program.size ≤ Machine.memorySize ∧
        img = ⟨[⟨"ROM Data", base, program, .all⟩], base⟩ := by
  unfold ofProgram
  by_cases hfit : base.toNat + program.size ≤ Machine.memorySize
  · rw [if_pos hfit]
    constructor
    · intro h
      exact ⟨hfit, (Except.ok.inj h).symm⟩
    · rintro ⟨-, rfl⟩
      rfl
  · rw [if_neg hfit]
    constructor
    · intro h
      cases h
    · rintro ⟨hfit', -⟩
      exact absurd hfit' hfit

variable (himg : ofProgram program base = .ok img)
include himg

theorem fits_of_ofProgram : base.toNat + program.size ≤ Machine.memorySize :=
  (ofProgram_eq_ok_iff.mp himg).1

theorem size_le_of_ofProgram : program.size ≤ Machine.memorySize := by
  have hfit := fits_of_ofProgram himg
  omega

theorem segments_of_ofProgram : img.segments = [⟨"ROM Data", base, program, .all⟩] := by
  rw [(ofProgram_eq_ok_iff.mp himg).2]

/-- The mapped addresses are those of the bytes of the program. -/
theorem maps_iff :
    img.maps a = true ↔ base.toNat ≤ a.toNat ∧ a.toNat < base.toNat + program.size := by
  unfold maps
  rw [segments_of_ofProgram himg, List.any_cons, List.any_nil, Bool.or_false, Segment.contains_iff]
  rfl

/-- The byte at a mapped address is the one at this distance from the base. -/
theorem byte?_eq_some_iff {b : UInt8} :
    img.byte? a = some b ↔ base.toNat ≤ a.toNat ∧ program[a.toNat - base.toNat]? = some b := by
  unfold byte?
  rw [segments_of_ofProgram himg, List.find?_cons]
  have hiff := Segment.contains_iff (s := ⟨"ROM Data", base, program, .all⟩) (a := a)
  cases hc : Segment.contains ⟨"ROM Data", base, program, .all⟩ a with
  | true =>
    have hle : base.toNat ≤ a.toNat := (hiff.mp hc).1
    simp [hle]
  | false =>
    rw [List.find?_nil]
    constructor
    · intro h
      cases h
    · rintro ⟨hle, hb⟩
      obtain ⟨hlt, -⟩ := Array.getElem?_eq_some_iff.mp hb
      have htrue := hiff.mpr ⟨hle, show a.toNat < base.toNat + program.size by omega⟩
      rw [hc] at htrue
      cases htrue

/-- From the base on, reading the image is reading the program at the distance from the base. -/
theorem byte?_eq_getElem? (hle : base.toNat ≤ a.toNat) :
    img.byte? a = program[a.toNat - base.toNat]? := by
  ext b
  rw [byte?_eq_some_iff himg, and_iff_right hle]

theorem word?_eq_at? (hle : base.toNat ≤ a.toNat) :
    img.word? a = Word.at? program (a.toNat - base.toNat) := by
  have hfit := fits_of_ofProgram himg
  unfold word? Word.at?
  by_cases hlt : a.toNat + 1 < UInt16.size
  · have hnext : (a + 1).toNat = a.toNat + 1 := toNat_add_of_lt hlt
    have hidx : a.toNat + 1 - base.toNat = a.toNat - base.toNat + 1 := by omega
    rw [if_pos hlt, byte?_eq_getElem? himg hle, byte?_eq_getElem? himg (by omega), hnext, hidx]
  · -- so far up there is nothing of the program
    have hmemory : Machine.memorySize < UInt16.size := by decide
    have hnone : program[a.toNat - base.toNat]? = none := Array.getElem?_eq_none (by omega)
    rw [if_neg hlt, hnone]
    rfl

theorem toNat_lt_of_maps (h : img.maps a = true) : a.toNat < Machine.memorySize := by
  have hfit := fits_of_ofProgram himg
  have hlt := ((maps_iff himg).mp h).2
  omega

/-- A word starts at every address but the last. -/
theorem exists_word?_iff :
    (∃ w, img.word? a = some w) ↔
      base.toNat ≤ a.toNat ∧ a.toNat + 1 < base.toNat + program.size := by
  have hfit := fits_of_ofProgram himg
  have hsize : Machine.memorySize < UInt16.size := by decide
  constructor
  · rintro ⟨w, hw⟩
    obtain ⟨hlt, hi, lo, hhi, hlo, -⟩ := bytes_of_word? hw
    have hnext : (a + 1).toNat = a.toNat + 1 := toNat_add_of_lt hlt
    have hend := ((maps_iff himg).mp (maps_of_byte? hlo)).2
    exact ⟨((maps_iff himg).mp (maps_of_byte? hhi)).1, by omega⟩
  · rintro ⟨hle, hlt⟩
    have hwrap : a.toNat + 1 < UInt16.size := by omega
    have hnext : (a + 1).toNat = a.toNat + 1 := toNat_add_of_lt hwrap
    obtain ⟨hi, hhi⟩ := maps_iff_exists_byte?.mp ((maps_iff himg).mpr ⟨hle, by omega⟩)
    obtain ⟨lo, hlo⟩ := maps_iff_exists_byte?.mp
      ((maps_iff (a := a + 1) himg).mpr ⟨by omega, by omega⟩)
    exact ⟨Word.ofBytes hi lo, by simp [word?, hwrap, hhi, hlo]⟩

/-- The only mapped address without a word is that of the last byte. -/
theorem last_of_word?_eq_none (hm : img.maps a = true) (hw : img.word? a = none) :
    a.toNat + 1 = base.toNat + program.size := by
  obtain ⟨hle, hlt⟩ := (maps_iff himg).mp hm
  by_cases hend : a.toNat + 1 < base.toNat + program.size
  · obtain ⟨w, hw'⟩ := (exists_word?_iff himg).mpr ⟨hle, hend⟩
    rw [hw] at hw'
    cases hw'
  · omega

/-- There is room for one word less than there are bytes. -/
theorem length_le_of_words {l : List Address} (hl : l.Nodup)
    (hw : ∀ x ∈ l, ∃ w, img.word? x = some w) : l.length ≤ program.size - 1 := by
  have hnodup : (l.map UInt16.toNat).Nodup :=
    List.Pairwise.map UInt16.toNat (fun _ _ hne h => hne (UInt16.toNat_inj.mp h)) hl
  -- the words start at different places of one range, and none at its end
  have hsub : l.map UInt16.toNat ⊆ List.range' base.toNat (program.size - 1) := by
    intro n hn
    obtain ⟨x, hx, rfl⟩ := List.mem_map.mp hn
    obtain ⟨hle, hlt⟩ := (exists_word?_iff himg).mp (hw x hx)
    rw [List.mem_range'_1]
    omega
  have hlen := hnodup.length_le_of_subset hsub
  rw [List.length_map, List.length_range'] at hlen
  exact hlen

end Chip8.Image
