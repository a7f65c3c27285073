import Chip8.Proofs.Disassembly.Operands
import Mathlib.Data.List.SplitBy

/-!
# Templates and texts

The opcode table has a template for the text of each instruction, `DRW Vx, Vy, nibble` for instance. When the
placeholders of a template are replaced by the operands of an instruction, the text of the instruction comes
out (`Instruction.text_eq_fill`). Placeholders are whole words, so a line is filled by filling its parts
(`Template.fill_line`).
-/

namespace Chip8

open Disassembly

namespace Template

/-- The words of a template, its longest runs of letters and digits, and the characters between them. -/
def pieces (template : String) : List String :=
  (template.toList.splitBy fun c d => c.isAlphanum && d.isAlphanum).map String.ofList

/-- The words that stand for something else. -/
def placeholders : List String := ["Vx", "Vy", "byte", "nibble", "addr", "1"]

/-- What a word stands for in the text of an instruction with these fields. -/
def meaning (f : Fields) : String → String
  | "Vx" => f.x.register.text
  | "Vy" => f.y.register.text
  | "byte" => Numeral.hex f.byte.toNat
  | "nibble" => Numeral.hex f.nibble.toNat
  | "addr" => Numeral.hex f.address.toNat
  | "1" => "0x1"
  | word => word

/-- A template with every placeholder replaced by what it stands for. -/
def fill (f : Fields) (template : String) : String :=
  String.join ((pieces template).map (meaning f))

variable {f : Fields} {s t : String}

/-- The pieces of a template are all of it. -/
theorem join_pieces (s : String) : String.join (pieces s) = s := by
  have hpieces : (pieces s).map String.toList =
      s.toList.splitBy fun c d => c.isAlphanum && d.isAlphanum := by
    rw [pieces, List.map_map]
    exact (List.map_congr_left fun cs _ => String.toList_ofList).trans (List.map_id _)
  rw [← String.toList_inj, String.toList_join, List.flatMap_def, hpieces, List.flatten_splitBy]

/-! ## Words -/

theorem fill_of_pieces (hs : pieces s = [s]) : fill f s = meaning f s := by
  rw [fill, hs, List.map_singleton]
  exact String.empty_append

/-- A text without placeholders stays. -/
theorem fill_eq_self (hs : ∀ p ∈ pieces s, p ∉ placeholders) : fill f s = s := by
  have hsame : ∀ p ∈ pieces s, meaning f p = p := by
    intro p hp
    have hne := hs p hp
    unfold meaning
    split <;> first | rfl | exact absurd (by decide) hne
  rw [fill, List.map_congr_left hsame, List.map_id', join_pieces]

/-! ## Lines -/

/-- Where no word runs on from one text into the next, they are filled apart. -/
theorem fill_append
    (h : ∀ c ∈ s.toList.getLast?, ∀ d ∈ t.toList.head?, (c.isAlphanum && d.isAlphanum) = false) :
    fill f (s ++ t) = fill f s ++ fill f t := by
  rw [fill, fill, fill, pieces, String.toList_append, List.splitBy_append h, List.map_append,
    List.map_append, String.join_append]
  rfl

/-- No word runs on over what stands between the parts of a line. -/
theorem fill_between {between : String} (h : between = " " ∨ between = ", ") (s t : String) :
    fill f (s ++ between ++ t) = fill f s ++ between ++ fill f t := by
  have hsame : fill f between = between := by
    refine fill_eq_self ?_
    rcases h with rfl | rfl <;> decide
  have hfirst : ∀ d ∈ between.toList.head?, d.isAlphanum = false := by
    rcases h with rfl | rfl <;> simp
  have hlast : ∀ c ∈ (s ++ between).toList.getLast?, c.isAlphanum = false := by
    rcases h with rfl | rfl <;> simp
  have hfront : fill f (s ++ between) = fill f s ++ between := by
    rw [fill_append, hsame]
    intro c _ d hd
    rw [hfirst d hd, Bool.and_false]
  rw [fill_append, hfront]
  intro c hc d _
  rw [hlast c hc, Bool.false_and]

theorem fill_intercalate (s : String) (ss : List String) :
    fill f (String.intercalate ", " (s :: ss)) = String.intercalate ", " ((s :: ss).map (fill f)) := by
  induction ss generalizing s with
  | nil => simp
  | cons t ss ih =>
    rw [String.intercalate_cons_cons, fill_between (Or.inr rfl), ih t]
    simp only [List.map_cons, String.intercalate_cons_cons]

/-- **A line is filled by filling its parts.** -/
theorem fill_line (mnemonic : String) (ss : List String) :
    fill f (line mnemonic ss) = line (fill f mnemonic) (ss.map (fill f)) := by
  cases ss with
  | nil => rfl
  | cons s ss =>
    rw [line, fill_between (Or.inl rfl), fill_intercalate]
    rfl

end Template

/-! ## The templates of the table -/

open Template

theorem Opcode.template_eq (o : Opcode) :
    o.row.template = line o.row.mnemonic (o.slots.map Slot.placeholder) := by
  cases o <;> rfl

theorem Opcode.fill_mnemonic (o : Opcode) (f : Fields) : fill f o.row.mnemonic = o.row.mnemonic := by
  have hall : ∀ o ∈ Opcode.all, ∀ p ∈ pieces o.row.mnemonic, p ∉ placeholders := by decide
  exact fill_eq_self (hall o o.mem_all)

theorem Register.fill_text (r : Register) (f : Fields) : fill f r.text = r.text := by
  have hall : ∀ r ∈ Register.all, ∀ p ∈ pieces r.text, p ∉ placeholders := by decide
  exact fill_eq_self (hall r r.mem_all)

/-- The placeholder of a slot is filled with what the slot holds. -/
theorem Slot.fill_placeholder (s : Slot) (f : Fields) : fill f s.placeholder = (s.operand f).text := by
  cases s with
  | fixed r => exact r.fill_text f
  | memory => rfl
  | _ => exact fill_of_pieces rfl

/--
**The text of an instruction is the template of its opcode, filled in.**

The names of the registers stand for `Vx` and `Vy`, the shortest numerals of the other operands for `byte`,
`nibble` and `addr`, and `0x1` stands for the `1` of the shifts. All else is as in the template.
-/
theorem Instruction.text_eq_fill (i : Instruction) : i.text = fill i.fields i.opcode.row.template := by
  have hslots : i.shownOperands.map Operand.text =
      (i.opcode.slots.map Slot.placeholder).map (fill i.fields) := by
    rw [shownOperands, List.map_map, List.map_map]
    exact List.map_congr_left fun s _ => (s.fill_placeholder i.fields).symm
  rw [text_eq, hslots, Opcode.template_eq, fill_line, Opcode.fill_mnemonic]
  rfl

example : fill { x := ⟨1⟩, y := ⟨0x1A⟩, nibble := 15 } "DRW Vx, Vy, nibble" = "DRW V1, Va, 0xf" := by
  decide

end Chip8
