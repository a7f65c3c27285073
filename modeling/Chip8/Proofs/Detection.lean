import Chip8.Proofs.Analysis
import Chip8.Proofs.Command
import Chip8.Proofs.Disassembly
import Chip8.Proofs.Listing
import Chip8.Proofs.Probe

/-!
# Detection and loading

What looks like a program can be loaded at the load address. A walk starts at its first word, and a listing
shows its first words as instructions (`ProgramFile.detect_agrees_with_image`).
-/

namespace Chip8

/-- The line at an address shows the instruction there, which is no text for bytes to emit. -/
def Image.ShowsInstruction (img : Image) (a : Address) : Prop :=
  ∃ w i, img.word? a = some w ∧ w.decode? = some i ∧
    (∀ showBytes, img.line? showBytes a = some (Numeral.address a ++ ": " ++ w.shown showBytes)) ∧
    w.text = i.text ∧ ∀ hi lo, i.text ≠ Token.render (Disassembly.rawTokens hi lo)

theorem Image.showsInstruction_of_decodes {img : Image} {a : Address} {w : Word}
    (hw : img.word? a = some w) (hd : w.decode?.isSome = true) : img.ShowsInstruction a := by
  obtain ⟨i, hi⟩ := Option.isSome_iff_exists.mp hd
  refine ⟨w, i, hw, hi, fun showBytes => ?_, Word.text_of_decode? hi, i.text_ne_raw⟩
  rw [line?_eq, hw]
  rfl

/-- A program that passes fits above the load address. -/
theorem Probe.exists_ofProgram_of_check {program : Bytes} (hcheck : check {} program = .ok ()) :
    ∃ img, Image.ofProgram program Machine.loadAddress = .ok img := by
  have hroom := Machine.loadAddress_add_maxProgramSize
  have hsize : program.size ≤ Machine.maxProgramSize := (check_eq_ok_iff.mp hcheck).1
  exact ⟨_, Image.ofProgram_eq_ok_iff.mpr ⟨by omega, rfl⟩⟩

/-- The first words of the image of a program that passes are instructions. -/
theorem Probe.word?_of_check {program : Bytes} {img : Image} (hcheck : check {} program = .ok ())
    (himg : Image.ofProgram program Machine.loadAddress = .ok img) {k : Nat} (hk : k < 20) :
    ∃ w, img.word? (Machine.loadAddress + UInt16.ofNat (2 * k)) = some w ∧
      w.decode?.isSome = true := by
  have hwindow : Limits.windowSize {} = 40 := rfl
  have hsize : UInt16.size = 65536 := rfl
  have hoffset : (UInt16.ofNat (2 * k)).toNat = 2 * k := UInt16.toNat_ofNat_of_lt' (by omega)
  have hload : Machine.loadAddress.toNat = 512 := rfl
  have haddress : (Machine.loadAddress + UInt16.ofNat (2 * k)).toNat = 512 + 2 * k := by
    rw [UInt16.toNat_add, hoffset, hload]
    omega
  obtain ⟨w, hw, hd⟩ := (check_eq_ok_iff.mp hcheck).2 k (by omega)
  refine ⟨w, ?_, hd⟩
  rw [Image.word?_eq_at? himg (by omega), haddress, hload, Nat.add_sub_cancel_left]
  exact hw

namespace ProgramFile

/--
**Detection and loading agree.**

A file that looks like a program is loaded at the load address, where a walk with any budget visits the
first word and the listing shows the first twenty words as instructions. A program is too large for detection
exactly if it cannot be loaded there. And detection fails, rather than refuses, exactly if there is no file or
no such part of it.
-/
theorem detect_agrees_with_image (d : Disk) (file : ProgramFile) :
    (∀ r, (d.perform (file.detect {})).1 = .ok r → r.exitCode = 0 →
      ∃ img, d.perform (image { file with base := Machine.loadAddress }) = (.ok img, d) ∧
        (∀ budget, 0 < budget → ∃ a, img.analyze [Machine.loadAddress] budget = .ok a ∧
          Machine.loadAddress ∈ a.visited) ∧
        ∀ k < 20, img.ShowsInstruction (Machine.loadAddress + UInt16.ofNat (2 * k))) ∧
      (∀ program, (∃ e, Image.ofProgram program Machine.loadAddress = .error e) ↔
        ∃ size max, Probe.check {} program = .error (.tooLarge size max)) ∧
      ∀ limits, (∃ e, (d.perform (file.detect limits)).1 = .error e) ↔
        ¬ ∃ content program, d.read file.path = .ok content ∧
          file.cut.payload content = .ok program := by
  refine ⟨?_, fun program => Probe.tooLarge_iff_misfit, ?_⟩
  · intro r hr hexit
    rw [perform_detect] at hr
    cases hpayload : file.payload d with
    | error e =>
      rw [hpayload] at hr
      cases hr
    | ok program =>
      rw [hpayload] at hr
      rw [← Except.ok.inj hr, verdict_exitCode_eq_zero_iff] at hexit
      obtain ⟨img, himg⟩ := Probe.exists_ofProgram_of_check hexit
      refine ⟨img, perform_image_of_ofProgram hpayload himg, ?_, ?_⟩
      · intro budget hbudget
        obtain ⟨a, ha⟩ := Image.exists_analyze himg [Machine.loadAddress] budget
        obtain ⟨w, hw, hd⟩ := Probe.word?_of_check hexit himg (k := 0) (by omega)
        exact ⟨a, ha, Image.entry_mem_visited hw hd hbudget ha⟩
      · intro k hk
        obtain ⟨w, hw, hd⟩ := Probe.word?_of_check hexit himg hk
        exact Image.showsInstruction_of_decodes hw hd
  · intro limits
    have hloaded : (∃ content program, d.read file.path = .ok content ∧
        file.cut.payload content = .ok program) ↔ ∃ program, file.payload d = .ok program := by
      simp only [payload_eq_ok_iff]
      exact exists_comm
    rw [perform_detect, hloaded]
    cases file.payload d with
    | error e => exact ⟨fun _ => nofun, fun _ => ⟨e, rfl⟩⟩
    | ok program => exact ⟨nofun, fun h => absurd ⟨program, rfl⟩ h⟩

/-- The two bytes in front of this program are no instruction. -/
theorem detect_agrees_with_image_skip :
    ∃ (d : Disk) (r : Result), d.read "rom" = .ok (#[0xFF, 0xFF] ++ Array.replicate 40 0x00) ∧
      (d.perform (detect ⟨"rom", 0x300, ⟨2, none⟩⟩ {})).1 = .ok r ∧ r.exitCode = 0 ∧
      ∃ img, d.perform (image ⟨"rom", Machine.loadAddress, ⟨2, none⟩⟩) = (.ok img, d) ∧
        ∀ k < 20, img.ShowsInstruction (Machine.loadAddress + UInt16.ofNat (2 * k)) := by
  obtain ⟨d, hread⟩ : ∃ d : Disk, d.read "rom" = .ok (#[0xFF, 0xFF] ++ Array.replicate 40 0x00) :=
    ⟨{ files := [(["rom"], _)] }, rfl⟩
  have hpayload : payload ⟨"rom", 0x300, ⟨2, none⟩⟩ d = .ok (Array.replicate 40 0x00) :=
    payload_eq_ok_iff.mpr ⟨_, hread, rfl⟩
  have hwords : ∀ k < 20, Word.at? (Array.replicate 40 0x00) (2 * k) = some 0x0000 := by decide
  have hcheck : Probe.check {} (Array.replicate 40 0x00) = .ok () := by
    refine Probe.check_eq_ok_iff.mpr ⟨by decide, fun k hk => ⟨_, hwords k ?_, rfl⟩⟩
    change 2 * k < 40 at hk
    omega
  have hdetect : (d.perform (detect ⟨"rom", 0x300, ⟨2, none⟩⟩ {})).1 =
      .ok (verdict ⟨"rom", 0x300, ⟨2, none⟩⟩ {} (Array.replicate 40 0x00)) := by
    rw [perform_detect, hpayload]
    rfl
  have hexit : (verdict ⟨"rom", 0x300, ⟨2, none⟩⟩ {} (Array.replicate 40 0x00)).exitCode = 0 :=
    verdict_exitCode_eq_zero_iff.mpr hcheck
  obtain ⟨img, himage, -, hlines⟩ := (detect_agrees_with_image d _).1 _ hdetect hexit
  exact ⟨d, _, hread, hdetect, hexit, img, himage, hlines⟩

end ProgramFile

end Chip8
