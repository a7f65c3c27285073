import Chip8.Proofs.Command
import Chip8.Proofs.Listing

/-!
# Listing a range

A range of a program is listed without loss: line by line it shows all bytes from its start to its end
(`Image.listed_rangeLines`). As a line is about two bytes wherever there are two, it may also show the first
byte behind the end. The end is given as exclusive, so that is a fault; it happens exactly if the range has
an odd number of bytes and does not reach the end of the program (`Image.rangeLines_within_iff`).
-/

namespace Chip8

/-! ## Listed bytes -/

/-- The lines list a program at `base` from address `s` to address `t`. -/
structure Listed (lines : List String) (program : Bytes) (base : Address) (s t : Nat) : Prop where
  oneLine : ∀ line ∈ lines, OneLine line
  /-- There is a line for every other address. -/
  addresses : lines.map Line.address? =
    (List.range' s ((t - s + 1) / 2) 2).map fun n => some (UInt16.ofNat n)
  /-- No line says that there is nothing. -/
  inside : ∀ line ∈ lines, Line.isOutside line = false
  /-- Only the last line may be about a single byte. -/
  words : ∀ line ∈ lines.dropLast, Line.isByte line = false
  /-- This byte is the last of the program. -/
  lastByte : ∀ line ∈ lines, Line.isByte line = true →
    Line.address? line = some (UInt16.ofNat (base.toNat + program.size - 1))
  /-- All bytes are shown in their order, and at most one more. -/
  bytes : ∃ more : List UInt8, more.length ≤ 1 ∧
    lines.flatMap Line.bytes = (program.extract (s - base.toNat) (t - base.toNat)).toList ++ more

/-- No line is about a byte at address `t` or behind. -/
def Within (lines : List String) (t : Nat) : Prop :=
  ∀ line ∈ lines, ∃ a, Line.address? line = some a ∧ a.toNat + Line.width line ≤ t

namespace Image

variable {img : Image} {program : Bytes} {base : Address} {showBytes : Bool} {a : Address} {s t : Nat}

/-- The line for a word that starts in front of the end may go one byte beyond it. -/
theorem rangeLines_within_succ (ht : t ≤ UInt16.size) :
    Within (img.rangeLines showBytes s t) (t + 1) := by
  intro line hline
  obtain ⟨k, hk, rfl⟩ := mem_rangeLines_iff.mp hline
  obtain ⟨hlt, -⟩ := lt_length_rangeLines_iff.mp hk
  have htoNat : (UInt16.ofNat (s + 2 * k)).toNat = s + 2 * k := UInt16.toNat_ofNat_of_lt' (by omega)
  refine ⟨_, address?_lineAt img showBytes _, ?_⟩
  rw [width_lineAt, htoNat]
  split_ifs <;> omega

section Program

variable (himg : ofProgram program base = .ok img)
include himg

/-- The line at an address of the program shows the bytes from there on, two at most. -/
theorem bytes_lineAt (hle : base.toNat ≤ a.toNat) (hlt : a.toNat < base.toNat + program.size) :
    Line.bytes (img.lineAt true a) = (program.toList.drop (a.toNat - base.toNat)).take 2 := by
  have hget : ∀ i, program.toList.drop i = program[i]?.toList ++ program.toList.drop (i + 1) := by
    intro i
    rw [← Array.getElem?_toList, ← List.drop_eq_getElem?_toList_append]
  obtain ⟨w, hw, hline⟩ | ⟨b, hw, hb, hline⟩ | ⟨-, hb, -⟩ := lineAt_cases img true a
  · rw [hline, Line.bytes_word]
    rw [word?_eq_at? himg hle, Word.at?] at hw
    obtain ⟨hi, hhi, hw⟩ := Option.bind_eq_some_iff.mp hw
    obtain ⟨lo, hlo, hw⟩ := Option.bind_eq_some_iff.mp hw
    rw [← Option.some.inj hw, Word.highByte_ofBytes, Word.lowByte_ofBytes, hget, hget, hhi, hlo]
    rfl
  · -- no word starts at the last byte, and nothing is behind it
    have hlast := last_of_word?_eq_none himg (maps_of_byte? hb) hw
    have hend : program.toList.drop (a.toNat - base.toNat + 1) = [] :=
      List.drop_eq_nil_of_le (by rw [Array.length_toList]; omega)
    rw [byte?_eq_getElem? himg hle] at hb
    rw [hline, Line.bytes_byte, hget, hb, hend]
    rfl
  · obtain ⟨b, hb'⟩ := maps_iff_exists_byte?.mp ((maps_iff himg).mpr ⟨hle, hlt⟩)
    rw [hb] at hb'
    cases hb'

/-- Positions in the program are addresses. -/
theorem toNat_position {n : Nat} (hn : n < base.toNat + program.size) : (UInt16.ofNat n).toNat = n := by
  have hfit := fits_of_ofProgram himg
  have hsize : Machine.memorySize < UInt16.size := by decide
  exact UInt16.toNat_ofNat_of_lt' (by omega)

theorem isSome_word?_position {n : Nat} (hn : base.toNat ≤ n)
    (hlt : n + 1 < base.toNat + program.size) : (img.word? (UInt16.ofNat n)).isSome = true := by
  have htoNat : (UInt16.ofNat n).toNat = n := toNat_position himg (by omega)
  exact Option.isSome_iff_exists.mpr ((exists_word?_iff himg).mpr (by omega))

/-- Within the program a range has a line for every other address. -/
theorem length_rangeLines (hs : base.toNat ≤ s) (ht : t ≤ base.toNat + program.size) :
    (img.rangeLines showBytes s t).length = (t - s + 1) / 2 := by
  have hlt : ∀ k, k < (img.rangeLines showBytes s t).length ↔ s + 2 * k < t := by
    intro k
    rw [lt_length_rangeLines_iff, and_iff_left_iff_imp]
    intro hk j hj
    exact isSome_word?_position himg (by omega) (by omega)
  have hlow := hlt ((t - s + 1) / 2)
  have hhigh := hlt (img.rangeLines showBytes s t).length
  omega

/-- The bytes that a range shows: all of it, and the one behind if its number of bytes is odd. -/
theorem flatMap_bytes_rangeLines (hs : base.toNat ≤ s) (ht : t ≤ base.toNat + program.size) :
    (img.rangeLines true s t).flatMap Line.bytes =
      (program.toList.drop (s - base.toNat)).take (2 * ((t - s + 1) / 2)) := by
  rw [rangeLines_eq_map, length_rangeLines himg hs ht, List.flatMap_map, ← flatMap_take_two _ _ hs]
  refine List.flatMap_congr fun n hn => ?_
  obtain ⟨k, hk, rfl⟩ := List.mem_range'.mp hn
  have htoNat : (UInt16.ofNat (s + 2 * k)).toNat = s + 2 * k := toNat_position himg (by omega)
  rw [bytes_lineAt himg (by omega) (by omega), htoNat]

/-- **A range of the program is listed without loss.** -/
theorem listed_rangeLines (hs : base.toNat ≤ s) (hst : s ≤ t) (ht : t ≤ base.toNat + program.size) :
    Listed (img.rangeLines true s t) program base s t := by
  have hlength : (img.rangeLines true s t).length = (t - s + 1) / 2 := length_rangeLines himg hs ht
  have hmapped : ∀ k < (t - s + 1) / 2, img.maps (UInt16.ofNat (s + 2 * k)) = true := by
    intro k hk
    have htoNat : (UInt16.ofNat (s + 2 * k)).toNat = s + 2 * k := toNat_position himg (by omega)
    exact (maps_iff himg).mpr (by omega)
  constructor
  case oneLine =>
    intro line hline
    obtain ⟨k, -, rfl⟩ := mem_rangeLines_iff.mp hline
    exact oneLine_lineAt img true _
  case addresses =>
    rw [rangeLines_eq_map, hlength, List.map_map]
    refine List.map_congr_left fun n _ => ?_
    simp
  case inside =>
    intro line hline
    obtain ⟨k, hk, rfl⟩ := mem_rangeLines_iff.mp hline
    obtain ⟨b, hb⟩ := maps_iff_exists_byte?.mp (hmapped k (hlength ▸ hk))
    rw [isOutside_lineAt, hb]
    rfl
  case words =>
    intro line hline
    obtain ⟨a, w, hw, rfl⟩ := exists_word?_of_mem_dropLast hline
    simp [hw]
  case lastByte =>
    intro line hline hbyte
    obtain ⟨k, hk, rfl⟩ := mem_rangeLines_iff.mp hline
    rw [isByte_lineAt, Bool.and_eq_true, Option.isNone_iff_eq_none] at hbyte
    have hlast := last_of_word?_eq_none himg (hmapped k (hlength ▸ hk)) hbyte.1
    rw [address?_lineAt, ← hlast, Nat.add_sub_cancel, UInt16.ofNat_toNat]
  case bytes =>
    have hsplit : 2 * ((t - s + 1) / 2) = (t - s) + (t - s) % 2 := by omega
    have hcount : t - base.toNat - (s - base.toNat) = t - s := by omega
    refine ⟨((program.toList.drop (s - base.toNat)).drop (t - s)).take ((t - s) % 2), ?_, ?_⟩
    · rw [List.length_take]
      omega
    · rw [flatMap_bytes_rangeLines himg hs ht, hsplit, List.take_add, Array.toList_extract,
        List.extract_eq_take_drop, hcount]

/-- **The whole program is listed byte by byte.** -/
theorem flatMap_bytes_rangeLines_all :
    (img.rangeLines true base.toNat (base.toNat + program.size)).flatMap Line.bytes =
      program.toList := by
  rw [flatMap_bytes_rangeLines himg (Nat.le_refl _) (Nat.le_refl _), Nat.sub_self, List.drop_zero]
  exact List.take_of_length_le (by rw [Array.length_toList]; omega)

/-- **A range goes beyond its end exactly if that parts a word of the program.** -/
theorem rangeLines_within_iff (ht : t ≤ UInt16.size) :
    Within (img.rangeLines showBytes s t) t ↔
      ¬ ((t - s) % 2 = 1 ∧ base.toNat ≤ s ∧ t < base.toNat + program.size) := by
  constructor
  · rintro hwithin ⟨hodd, hs, hend⟩
    have hword : ∀ j ≤ (t - s) / 2, (img.word? (UInt16.ofNat (s + 2 * j))).isSome = true := fun j hj =>
      isSome_word?_position himg (by omega) (by omega)
    -- the range has a line for the word that starts in front of its end
    have hlast : (t - s) / 2 < (img.rangeLines showBytes s t).length :=
      lt_length_rangeLines_iff.mpr ⟨by omega, fun j hj => hword j (Nat.le_of_lt hj)⟩
    obtain ⟨a, ha, hle⟩ := hwithin _ (mem_rangeLines_iff.mpr ⟨_, hlast, rfl⟩)
    rw [address?_lineAt] at ha
    rw [width_lineAt, if_pos (hword _ (Nat.le_refl _)), ← Option.some.inj ha,
      UInt16.toNat_ofNat_of_lt' (by omega)] at hle
    omega
  · intro hparts line hline
    obtain ⟨k, hk, rfl⟩ := mem_rangeLines_iff.mp hline
    obtain ⟨hlt, hwords⟩ := lt_length_rangeLines_iff.mp hk
    have htoNat : ∀ j ≤ k, (UInt16.ofNat (s + 2 * j)).toNat = s + 2 * j := fun j hj =>
      UInt16.toNat_ofNat_of_lt' (by omega)
    refine ⟨_, address?_lineAt img showBytes _, ?_⟩
    rw [width_lineAt, htoNat k (Nat.le_refl k)]
    split_ifs with hword hbyte
    · -- all words from the start of the range to this one are words of the program
      have hfirst : (img.word? (UInt16.ofNat (s + 2 * 0))).isSome = true := by
        cases k with
        | zero => exact hword
        | succ k => exact hwords 0 (Nat.succ_pos k)
      have hlow := (exists_word?_iff himg).mp (Option.isSome_iff_exists.mp hfirst)
      have hhigh := (exists_word?_iff himg).mp (Option.isSome_iff_exists.mp hword)
      rw [htoNat 0 (Nat.zero_le k)] at hlow
      rw [htoNat k (Nat.le_refl k)] at hhigh
      omega
    · omega
    · omega

end Program

end Image

/-! ## Printing a range -/

namespace ProgramFile

variable {d : Disk} {file : ProgramFile} {content program : Bytes} {img : Image}

/-- By default a range is the whole program. -/
theorem start_stop_default (himg : Image.ofProgram program file.base = .ok img) {request : RangeRequest}
    (hstart : request.start = none) (hstop : request.stop = none) :
    start img request = file.base.toNat ∧ stop img request = file.base.toNat + program.size := by
  obtain ⟨-, rfl⟩ := Image.ofProgram_eq_ok_iff.mp himg
  rw [start, stop, hstart, hstop]
  exact ⟨rfl, Nat.zero_max _⟩

/--
**Listing a range of a program with bytes loses nothing**, and without bounds it shows exactly the bytes of
the program.
-/
theorem range_lists_program (hread : d.read file.path = .ok content)
    (hcut : file.cut.payload content = .ok program)
    (himg : Image.ofProgram program file.base = .ok img) :
    (∀ s t : Address, file.base ≤ s → s ≤ t → t.toNat ≤ file.base.toNat + program.size →
      ∃ lines,
        (Invocation.run ⟨file, .range { start := some s, stop := some t, showBytes := true }⟩ :
          StateM Disk Result).run d = (⟨0, Report.lines lines, none⟩, d) ∧
        Listed lines program file.base s.toNat t.toNat) ∧
      ∃ lines,
        (Invocation.run ⟨file, .range { showBytes := true }⟩ : StateM Disk Result).run d =
          (⟨0, Report.lines lines, none⟩, d) ∧
        Listed lines program file.base file.base.toNat (file.base.toNat + program.size) ∧
        lines.flatMap Line.bytes = program.toList := by
  have himage := perform_image_of_ofProgram (payload_eq_ok_iff.mpr ⟨content, hread, hcut⟩) himg
  constructor
  · intro s t hs hst ht
    rw [UInt16.le_iff_toNat_le] at hs hst
    exact ⟨_, run_range himage hst rfl, Image.listed_rangeLines himg hs hst ht⟩
  · have hbounds : start img { showBytes := true } = file.base.toNat ∧
        stop img { showBytes := true } = file.base.toNat + program.size :=
      start_stop_default himg rfl rfl
    have hle : start img { showBytes := true } ≤ stop img { showBytes := true } := by omega
    have hrun := run_range himage hle rfl
    rw [hbounds.1, hbounds.2] at hrun
    exact ⟨_, hrun, Image.listed_rangeLines himg (Nat.le_refl _) (Nat.le_add_right _ _) (Nat.le_refl _),
      Image.flatMap_bytes_rangeLines_all himg⟩

/-- An odd number of bytes behind the first byte of a file, and a range of one byte. -/
theorem range_lists_program_odd :
    ∃ (d : Disk) (img : Image),
      d.read "rom" = .ok #[0xFF, 0x00, 0xE0, 0x12] ∧
      (⟨1, none⟩ : Cut).payload #[0xFF, 0x00, 0xE0, 0x12] = .ok #[0x00, 0xE0, 0x12] ∧
      Image.ofProgram #[0x00, 0xE0, 0x12] 0x200 = .ok img ∧
      (∃ lines,
        (Invocation.run ⟨⟨"rom", 0x200, ⟨1, none⟩⟩,
            .range { start := some 0x201, stop := some 0x202, showBytes := true }⟩ :
          StateM Disk Result).run d = (⟨0, Report.lines lines, none⟩, d) ∧
        Listed lines #[0x00, 0xE0, 0x12] 0x200 0x201 0x202) ∧
      ∃ lines,
        (Invocation.run ⟨⟨"rom", 0x200, ⟨1, none⟩⟩, .range { showBytes := true }⟩ :
          StateM Disk Result).run d = (⟨0, Report.lines lines, none⟩, d) ∧
        Listed lines #[0x00, 0xE0, 0x12] 0x200 0x200 0x203 ∧
        lines.flatMap Line.bytes = [0x00, 0xE0, 0x12] := by
  have hread : Disk.read "rom" { files := [(["rom"], #[0xFF, 0x00, 0xE0, 0x12])] } =
      .ok #[0xFF, 0x00, 0xE0, 0x12] := rfl
  have hcut : (⟨1, none⟩ : Cut).payload #[0xFF, 0x00, 0xE0, 0x12] = .ok #[0x00, 0xE0, 0x12] := rfl
  have himg : Image.ofProgram #[0x00, 0xE0, 0x12] 0x200 = .ok _ := rfl
  obtain ⟨hranges, hall⟩ := @range_lists_program _ ⟨"rom", 0x200, ⟨1, none⟩⟩ _ _ _ hread hcut himg
  exact ⟨_, _, hread, hcut, himg, hranges 0x201 0x202 (by decide) (by decide) (by decide), hall⟩

/--
**What a printed range shows of the bytes at its end and behind**: never more than one, and none exactly if
the end does not part a word that the range lists.
-/
theorem range_within_iff (hread : d.read file.path = .ok content)
    (hcut : file.cut.payload content = .ok program)
    (himg : Image.ofProgram program file.base = .ok img)
    (showBytes : Bool) {s t : Address} (hst : s ≤ t) :
    ∃ lines,
      (Invocation.run ⟨file, .range { start := some s, stop := some t, showBytes }⟩ :
        StateM Disk Result).run d = (⟨0, Report.lines lines, none⟩, d) ∧
      (∀ line ∈ lines, OneLine line) ∧ Within lines (t.toNat + 1) ∧
      (Within lines t.toNat ↔ ¬ ((t.toNat - s.toNat) % 2 = 1 ∧ file.base ≤ s ∧
        t.toNat < file.base.toNat + program.size)) := by
  have himage := perform_image_of_ofProgram (payload_eq_ok_iff.mpr ⟨content, hread, hcut⟩) himg
  have ht : t.toNat ≤ UInt16.size := Nat.le_of_lt t.toNat_lt
  simp only [UInt16.le_iff_toNat_le] at hst ⊢
  refine ⟨_, run_range himage hst rfl, ?_, Image.rangeLines_within_succ ht,
    Image.rangeLines_within_iff himg ht⟩
  intro line hline
  obtain ⟨k, -, rfl⟩ := Image.mem_rangeLines_iff.mp hline
  exact Image.oneLine_lineAt img showBytes _

/-- An odd number of bytes up to the end of the program: its last byte has a line of its own. -/
theorem range_within_iff_odd :
    ∃ (d : Disk) (img : Image),
      d.read "rom" = .ok #[0x00, 0xE0, 0x12] ∧
      (⟨0, none⟩ : Cut).payload #[0x00, 0xE0, 0x12] = .ok #[0x00, 0xE0, 0x12] ∧
      Image.ofProgram #[0x00, 0xE0, 0x12] 0x200 = .ok img ∧ (0x200 : Address) ≤ 0x203 ∧
      ∃ lines,
        (Invocation.run ⟨⟨"rom", 0x200, ⟨0, none⟩⟩,
            .range { start := some 0x200, stop := some 0x203, showBytes := false }⟩ :
          StateM Disk Result).run d = (⟨0, Report.lines lines, none⟩, d) ∧
        (∀ line ∈ lines, OneLine line) ∧ Within lines 0x203 := by
  have hread : Disk.read "rom" { files := [(["rom"], #[0x00, 0xE0, 0x12])] } =
      .ok #[0x00, 0xE0, 0x12] := rfl
  have hcut : (⟨0, none⟩ : Cut).payload #[0x00, 0xE0, 0x12] = .ok #[0x00, 0xE0, 0x12] := rfl
  have himg : Image.ofProgram #[0x00, 0xE0, 0x12] 0x200 = .ok _ := rfl
  have hle : (0x200 : Address) ≤ 0x203 := by decide
  obtain ⟨lines, hrun, hone, -, hwithin⟩ :=
    @range_within_iff _ ⟨"rom", 0x200, ⟨0, none⟩⟩ _ _ _ hread hcut himg false _ _ hle
  exact ⟨_, _, hread, hcut, himg, hle, lines, hrun, hone, hwithin.mpr (by decide)⟩

/-- A range of one byte may show an instruction of two. -/
theorem range_beyond_end :
    ∃ (d : Disk) (img : Image),
      d.read "rom" = .ok #[0x00, 0xE0, 0x00, 0xE0] ∧
      (⟨0, none⟩ : Cut).payload #[0x00, 0xE0, 0x00, 0xE0] = .ok #[0x00, 0xE0, 0x00, 0xE0] ∧
      Image.ofProgram #[0x00, 0xE0, 0x00, 0xE0] 0x200 = .ok img ∧
      (Invocation.run ⟨⟨"rom", 0x200, ⟨0, none⟩⟩,
          .range { start := some 0x200, stop := some 0x201 }⟩ :
        StateM Disk Result).run d = (⟨0, Report.lines ["0x0200: CLS"], none⟩, d) ∧
      ¬ Within ["0x0200: CLS"] 0x201 := by
  refine ⟨{ files := [(["rom"], #[0x00, 0xE0, 0x00, 0xE0])] }, _, rfl, rfl, rfl, ?_, ?_⟩
  · exact Prod.ext (by decide +kernel) rfl
  · intro hwithin
    obtain ⟨a, ha, hle⟩ := hwithin _ (List.mem_singleton_self _)
    have haddress : Line.address? "0x0200: CLS" = some 0x200 := by decide +kernel
    have hwidth : Line.width "0x0200: CLS" = 2 := by decide
    rw [haddress] at ha
    rw [hwidth, ← Option.some.inj ha] at hle
    exact absurd hle (by decide)

end ProgramFile

end Chip8
