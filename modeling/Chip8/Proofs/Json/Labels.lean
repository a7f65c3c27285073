import Chip8.Command.Report
import Chip8.Proofs.Json.Members

/-!
# Reading what was written: labels and reports

A file of labels is read back as the labels that were written (`Label.read?_write`). A report is never read
as labels: as JSON it is one object (`Report.parse?_toJson`), and as text it is no JSON at all
(`Report.parse?_text`).
-/

namespace Chip8

open Json

@[simp]
theorem Json.writable_address (a : Address) : Writable (nat a.toNat) := writable_nat a.toNat_lt

/-! ## Labels -/

namespace Label

theorem writable_toJson (l : Label) : Writable l.toJson :=
  writable_record ⟨writable_address _, .text _⟩

/-- A label is read back from its object. -/
@[simp]
theorem ofJson?_toJson (l : Label) : ofJson? l.toJson = some l := by
  have haddr : (nat l.address.toNat).uint16? = some l.address := uint16?_eq_some_iff.mpr rfl
  simp [ofJson?, toJson, record, fields?, members?, required?, valuesOf, haddr, Json.text, text?]

/-- **Labels are read back as they were written.** -/
@[simp]
theorem read?_write (labels : List Label) : read? (write labels) = some labels := by
  have hwritable : Writable (listOf toJson labels) := writable_listOf fun l _ => writable_toJson l
  rw [read?, write, (parse?_pretty hwritable).1]
  exact mapM_map_of_left_inverse ofJson?_toJson labels

end Label

/-! ## Reports -/

namespace Report

theorem writable_addressesJson (as : List Address) : Writable (addressesJson as) :=
  writable_listOf fun a _ => writable_address a

theorem writable_toJson (r : Report) (showBytes : Bool) : Writable (r.toJson showBytes) := by
  have hblock : ∀ b, Writable (blockJson r.image showBytes b) := fun b =>
    writable_record ⟨writable_address _, writable_address _, writable_listOf fun line _ => .text line⟩
  have hedge : ∀ e, Writable (edgeJson e) := fun e =>
    writable_record ⟨writable_address _, writable_address _, .text _⟩
  have hfunction : ∀ f, Writable (functionJson f) := fun f =>
    writable_record ⟨writable_address _, writable_addressesJson _⟩
  exact writable_record ⟨writable_addressesJson _, writable_listOf fun b _ => hblock b,
    writable_listOf fun e _ => hedge e, writable_listOf fun f _ => hfunction f,
    writable_addressesJson _, writable_addressesJson _, writable_listOf fun l _ => l.writable_toJson⟩

/-- **A report as JSON is read back as it was written.** -/
theorem parse?_toJson (r : Report) (showBytes : Bool) :
    parse? ((r.toJson showBytes).pretty ++ "\n") = some (r.toJson showBytes) :=
  (parse?_pretty (r.writable_toJson showBytes)).2

/-- A report as text is no JSON. -/
theorem parse?_text (r : Report) (listing showBytes : Bool) :
    parse? (r.text listing showBytes) = none := by
  obtain ⟨cs, hcs⟩ : ∃ cs, (r.text listing showBytes).toList = 'A' :: cs := by
    simp only [text, lines, summaryLines, String.toList_join, List.cons_append, List.map_cons,
      List.flatMap_cons, String.toList_append]
    exact ⟨_, rfl⟩
  rw [parse?, hcs, lexemes?_eq_none rfl rfl (by decide) rfl]
  rfl

end Report

end Chip8
