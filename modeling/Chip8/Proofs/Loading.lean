import Chip8.Proofs.Command
import Chip8.Proofs.Image.Program

/-!
# Loading a file

What loading needs of a file is a list of demands, and the first that is not met is what is reported
(`Image.load_eq_error_iff`). An image that was loaded holds the bytes of the file from where the cut starts,
byte by byte from the base on, and nothing else (`Image.holds_of_load`).
-/

namespace Chip8

namespace Cut

variable {c : Cut} {file program : Bytes} {base : Address}

/-- How many bytes the program has: the length that is asked for, or all that are left. -/
def count (c : Cut) (size : Nat) : Nat := c.length.getD (size - c.skip)

/-- The part of a file is `count` bytes from `skip` on. -/
theorem payload_eq (c : Cut) (file : Bytes) :
    c.payload file =
      if file.size < c.skip then .error .skipTooLarge
      else if file.size - c.skip < c.count file.size then .error .lengthTooLarge
      else .ok (file.extract c.skip (c.skip + c.count file.size)) := by
  unfold payload count
  by_cases hskip : file.size < c.skip
  · rw [if_pos hskip, if_pos hskip]
  · rw [if_neg hskip, if_neg hskip]
    cases c.length with
    | none =>
      have hend : c.skip + (file.size - c.skip) = file.size := by omega
      simp [hend]
    | some n => simp

/-- A condition on a file, and what is wrong with a file that does not meet it. -/
structure Demand where
  met : Bool
  fault : LoadFault

/-- What is demanded of a file of this size, in the order in which it is checked. -/
def demands (c : Cut) (base : Address) (size : Nat) : List Demand :=
  [⟨c.skip ≤ size, .cut .skipTooLarge⟩,
    ⟨c.length.all (· ≤ size - c.skip), .cut .lengthTooLarge⟩,
    ⟨base.toNat + c.count size ≤ Machine.memorySize, .misfit ⟨c.count size, base⟩⟩]

theorem all_length_iff {size : Nat} :
    c.length.all (· ≤ size - c.skip) = true ↔ c.count size ≤ size - c.skip := by
  unfold count
  cases c.length <;> simp

end Cut

namespace Image

variable {c : Cut} {file : Bytes} {base : Address} {img : Image}

/-- Loading goes through the demands from the first to the last. -/
theorem load_eq (file : Bytes) (c : Cut) (base : Address) :
    load file c base =
      match (c.demands base file.size).find? fun d => !d.met with
      | some d => .error d.fault
      | none => .ok ⟨[⟨"ROM Data", base, file.extract c.skip (c.skip + c.count file.size), .all⟩],
          base⟩ := by
  have hall : c.length.all (· ≤ file.size - c.skip) = true ↔ c.count file.size ≤ file.size - c.skip :=
    Cut.all_length_iff
  unfold load Cut.demands
  rw [Cut.payload_eq]
  by_cases hskip : file.size < c.skip
  · simp [hskip, Nat.not_le.mpr hskip]
    rfl
  by_cases hlength : file.size - c.skip < c.count file.size
  · rw [Bool.eq_false_iff.mpr (mt hall.mp (Nat.not_le.mpr hlength))]
    simp [hskip, hlength, Nat.not_lt.mp hskip]
    rfl
  · have hsize : (file.extract c.skip (c.skip + c.count file.size)).size = c.count file.size := by
      rw [Array.size_extract]
      omega
    rw [hall.mpr (Nat.not_lt.mp hlength), if_neg hskip, if_neg hlength]
    show (ofProgram _ base).mapError _ = _
    unfold ofProgram
    rw [hsize]
    by_cases hfit : base.toNat + c.count file.size ≤ Machine.memorySize
    · simp [hfit, Nat.not_lt.mp hskip]
    · simp [hfit, Nat.not_lt.mp hskip]
      rfl

/-- **The first demand that is not met is reported.** -/
theorem load_eq_error_iff {e : LoadFault} :
    load file c base = .error e ↔
      ((c.demands base file.size).find? fun d => !d.met).map Cut.Demand.fault = some e := by
  rw [load_eq]
  cases (c.demands base file.size).find? fun d => !d.met <;> simp

/-- What is loaded is one segment, with the bytes of the part of the file. -/
theorem load_eq_ok_iff :
    load file c base = .ok img ↔
      (∀ d ∈ c.demands base file.size, d.met = true) ∧
        img = ⟨[⟨"ROM Data", base, file.extract c.skip (c.skip + c.count file.size), .all⟩], base⟩ := by
  have hnone : ((c.demands base file.size).find? fun d => !d.met) = none ↔
      ∀ d ∈ c.demands base file.size, d.met = true := by
    simp
  rw [load_eq, ← hnone]
  cases (c.demands base file.size).find? fun d => !d.met with
  | some d => exact ⟨nofun, fun h => nomatch h.1⟩
  | none =>
    constructor
    · intro h
      exact ⟨rfl, (Except.ok.inj h).symm⟩
    · rintro ⟨-, rfl⟩
      rfl

/-- A file is loaded if the part lies in the file and fits into the memory. -/
theorem exists_load_iff :
    (∃ img, load file c base = .ok img) ↔
      c.skip ≤ file.size ∧ (∀ n, c.length = some n → n ≤ file.size - c.skip) ∧
        base.toNat + c.count file.size ≤ Machine.memorySize := by
  simp [load_eq_ok_iff, Cut.demands, Option.all_eq_true]

/-- The part of a file that is loaded has as many bytes as are counted. -/
theorem size_of_load (h : load file c base = .ok img) :
    (file.extract c.skip (c.skip + c.count file.size)).size = c.count file.size := by
  obtain ⟨hskip, hlength, -⟩ := exists_load_iff.mp ⟨img, h⟩
  have hcount : c.count file.size ≤ file.size - c.skip :=
    Cut.all_length_iff.mp (by simpa [Option.all_eq_true] using hlength)
  rw [Array.size_extract]
  omega

/-- The image holds `n` bytes of a file, from offset `skip` on, at the addresses from `base` on. -/
structure Holds (img : Image) (file : Bytes) (skip n : Nat) (base : Address) : Prop where
  entry : img.entry = base
  inside : ∀ a : Address, base.toNat ≤ a.toNat → a.toNat < base.toNat + n →
    ∃ b, file[skip + (a.toNat - base.toNat)]? = some b ∧ img.byte? a = some b
  outside : ∀ a : Address, ¬ (base.toNat ≤ a.toNat ∧ a.toNat < base.toNat + n) → img.byte? a = none
  maps_iff : ∀ a, img.maps a = true ↔ (img.byte? a).isSome = true

/-- **Every byte of an image comes from its place in the file.** -/
theorem holds_of_load (h : load file c base = .ok img) :
    img.Holds file c.skip (c.count file.size) base := by
  obtain ⟨-, -, hfit⟩ := exists_load_iff.mp ⟨img, h⟩
  have hsize := size_of_load h
  have himg : ofProgram (file.extract c.skip (c.skip + c.count file.size)) base = .ok img := by
    rw [ofProgram_eq_ok_iff, hsize]
    exact ⟨hfit, (load_eq_ok_iff.mp h).2⟩
  -- a byte is mapped exactly where the part of the file has one
  have hmaps : ∀ a, img.maps a = true ↔
      base.toNat ≤ a.toNat ∧ a.toNat < base.toNat + c.count file.size := by
    intro a
    rw [Image.maps_iff himg, hsize]
  constructor
  case entry => rw [(load_eq_ok_iff.mp h).2]
  case inside =>
    intro a hle hlt
    obtain ⟨b, hb⟩ := maps_iff_exists_byte?.mp ((hmaps a).mpr ⟨hle, hlt⟩)
    refine ⟨b, ?_, hb⟩
    rw [byte?_eq_getElem? himg hle, Array.getElem?_extract] at hb
    split at hb
    · exact hb
    · cases hb
  case outside =>
    intro a hout
    rw [← hmaps a] at hout
    exact Option.eq_none_iff_forall_ne_some.mpr fun b hb => hout (maps_of_byte? hb)
  case maps_iff =>
    intro a
    rw [Option.isSome_iff_exists]
    exact maps_iff_exists_byte?

end Image

namespace ProgramFile

variable {d : Disk} {file : ProgramFile} {content : Bytes}

/--
**Where every byte of a program comes from.**

A file is loaded exactly if its first bytes can be skipped, as many as asked for are left, and these fit
between the base and the end of the memory; of the demands that are not met the first is reported. In the
image the byte at an address of the program is the one of the file at the same distance behind what was
skipped, no other address is mapped, and the program starts at the base.
-/
theorem image_holds_content (hread : d.read file.path = .ok content) :
    ∃ r : Except LoadFault Image, d.perform file.image = (r.mapError .load, d) ∧
      ((∃ img, r = .ok img) ↔
        file.cut.skip ≤ content.size ∧
          (∀ n, file.cut.length = some n → n ≤ content.size - file.cut.skip) ∧
          file.base.toNat + file.cut.count content.size ≤ Machine.memorySize) ∧
      (∀ e, r = .error e ↔
        ((file.cut.demands file.base content.size).find? fun d => !d.met).map Cut.Demand.fault =
          some e) ∧
      ∀ img, r = .ok img →
        img.Holds content file.cut.skip (file.cut.count content.size) file.base := by
  refine ⟨Image.load content file.cut file.base, ?_, Image.exists_load_iff,
    fun _ => Image.load_eq_error_iff, fun _ => Image.holds_of_load⟩
  rw [image, Disk.perform_bind, Disk.perform_readFile, hread]
  rfl

/-- A program up to the last byte of the memory, cut out of a larger file. -/
theorem image_holds_content_end :
    ∃ d : Disk, d.read "rom" = .ok #[0xFF, 0x00, 0xE0, 0x12] ∧
      ∃ img, d.perform (image ⟨"rom", 0xFFE, ⟨1, some 2⟩⟩) = (.ok img, d) ∧
        img.Holds #[0xFF, 0x00, 0xE0, 0x12] 1 2 0xFFE := by
  have hread : Disk.read "rom" { files := [(["rom"], #[0xFF, 0x00, 0xE0, 0x12])] } =
      .ok #[0xFF, 0x00, 0xE0, 0x12] := rfl
  obtain ⟨r, hperform, hloads, -, hholds⟩ :=
    @image_holds_content _ ⟨"rom", 0xFFE, ⟨1, some 2⟩⟩ _ hread
  have hfits : ∀ n, (some 2 : Option Nat) = some n → n ≤ 4 - 1 := by
    rintro n ⟨⟩
    decide
  obtain ⟨img, rfl⟩ := hloads.mpr ⟨by decide, hfits, by decide⟩
  exact ⟨_, hread, img, hperform, hholds img rfl⟩

end ProgramFile

end Chip8
