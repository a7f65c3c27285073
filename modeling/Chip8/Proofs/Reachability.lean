import Chip8.Proofs.Analysis

/-!
# Reachable code

`Image.Reachable` says from the words alone which addresses control can come to: the mapped entries, and
the mapped successors of every reachable word that decodes. The walk is exact for it: with a budget that
does not run out, the sites are the reachable words that decode and the data are those that do not.
-/

namespace Chip8

/-- The addresses to which successors lead from the entries. -/
inductive Image.Reachable (img : Image) (entries : List Address) : Address → Prop where
  | entry {x : Address} (h : x ∈ entries) (hm : img.maps x = true) : Reachable img entries x
  | successor {x t : Address} {w : Word} (h : Reachable img entries x)
      (hw : img.word? x = some w) (hd : w.decode?.isSome = true) (ht : t ∈ w.successors x)
      (hm : img.maps t = true) : Reachable img entries t

namespace Analysis

variable {a : Analysis} {img : Image} {entries : List Address} {x : Address}

/-! ## What was found is reachable -/

theorem Traces.reachable_of_discovered (h : a.Traces img entries)
    (hx : Discovered entries a.edges x) (hm : img.maps x = true) : img.Reachable entries x := by
  induction hx with
  | entry he => exact .entry he hm
  | @edge e he _ ih =>
    obtain ⟨hv, w, hw, hedge⟩ := (h.edges_iff e).mp he
    have hsource := ih (Image.maps_of_word? hw)
    have ht := Site.target_mem_successors (s := ⟨e.source, w⟩) hedge
    exact .successor hsource hw (h.decodes hv hw) ht hm

/-! ## What is reachable was found -/

/-- What was followed up and decodes is a site. -/
theorem Traces.mem_visited_of_decodes (h : a.Traces img entries) {w : Word}
    (hx : x ∈ a.visited ∨ x ∈ a.data ∨ img.word? x = none) (hw : img.word? x = some w)
    (hd : w.decode?.isSome = true) : x ∈ a.visited := by
  rcases hx with hv | hdata | hnone
  · exact hv
  · rw [h.not_decodes hdata hw] at hd
    cases hd
  · rw [hw] at hnone
    cases hnone

/-- What was followed up and does not decode is data. -/
theorem Traces.mem_data_of_not_decodes (h : a.Traces img entries) {w : Word}
    (hx : x ∈ a.visited ∨ x ∈ a.data ∨ img.word? x = none) (hw : img.word? x = some w)
    (hd : w.decode? = none) : x ∈ a.data := by
  rcases hx with hv | hdata | hnone
  · have hd' := h.decodes hv hw
    rw [hd] at hd'
    cases hd'
  · exact hdata
  · rw [hw] at hnone
    cases hnone

/-- Every reachable address was followed up. -/
theorem Traces.found_of_reachable (h : a.Traces img entries) (hall : a.Exhausts img entries)
    (hx : img.Reachable entries x) : x ∈ a.visited ∨ x ∈ a.data ∨ img.word? x = none := by
  induction hx with
  | entry he _ => exact hall _ (Or.inl he)
  | @successor x t w _ hw hd ht hm ih =>
    have hv : x ∈ a.visited := h.mem_visited_of_decodes ih hw hd
    obtain ⟨e, he, rfl⟩ := Site.exists_edge_of_mem_successors (s := ⟨x, w⟩) ht hm
    have hsource : e.source = x := Site.source_of_mem_edges he
    refine hall _ (Or.inr ⟨e, (h.edges_iff e).mpr ?_, rfl⟩)
    rw [hsource]
    exact ⟨hv, w, hw, he⟩

/-! ## The two together -/

theorem Traces.mem_visited_iff (h : a.Traces img entries) (hall : a.Exhausts img entries) :
    x ∈ a.visited ↔
      img.Reachable entries x ∧ ∃ w, img.word? x = some w ∧ w.decode?.isSome = true := by
  constructor
  · intro hv
    obtain ⟨w, hw, hd⟩ := h.word x hv
    exact ⟨h.reachable_of_discovered (h.discovered x (Or.inl hv)) (Image.maps_of_word? hw),
      w, hw, hd⟩
  · rintro ⟨hx, w, hw, hd⟩
    exact h.mem_visited_of_decodes (h.found_of_reachable hall hx) hw hd

theorem Traces.mem_data_iff (h : a.Traces img entries) (hall : a.Exhausts img entries) :
    x ∈ a.data ↔ img.Reachable entries x ∧ ∃ w, img.word? x = some w ∧ w.decode? = none := by
  constructor
  · intro hdata
    obtain ⟨w, hw, hd⟩ := h.data x hdata
    exact ⟨h.reachable_of_discovered (h.discovered x (Or.inr hdata)) (Image.maps_of_word? hw),
      w, hw, hd⟩
  · rintro ⟨hx, w, hw, hd⟩
    exact h.mem_data_of_not_decodes (h.found_of_reachable hall hx) hw hd

end Analysis

namespace Image

theorem Reachable.maps {img : Image} {entries : List Address} {x : Address}
    (h : img.Reachable entries x) : img.maps x = true := by
  cases h with
  | entry _ hm => exact hm
  | successor _ _ _ _ hm => exact hm

/--
**The walk over a program is exact.**

With a budget as large as the program, the sites are the reachable words that decode, the data are the
reachable words that do not, and of the other addresses only that of the last byte can be reachable. No
program is larger than the memory, so a budget of that size is always large enough.
-/
theorem analyze_exact {program : Bytes} {base : Address} {img : Image}
    (himg : ofProgram program base = .ok img) (entries : List Address) {budget : Nat}
    (hb : program.size ≤ budget) :
    program.size ≤ Machine.memorySize ∧ ∃ a, img.analyze entries budget = .ok a ∧
      (∀ x, x ∈ a.visited ↔
        img.Reachable entries x ∧ ∃ w, img.word? x = some w ∧ w.decode?.isSome = true) ∧
      (∀ x, x ∈ a.data ↔
        img.Reachable entries x ∧ ∃ w, img.word? x = some w ∧ w.decode? = none) ∧
      (∀ x, img.Reachable entries x →
        x ∈ a.visited ∨ x ∈ a.data ∨ x.toNat + 1 = base.toNat + program.size) := by
  obtain ⟨a, ha⟩ := exists_analyze himg entries budget
  have htraces := traces_of_analyze ha
  have hall := exhausts_of_analyze himg hb ha
  refine ⟨size_le_of_ofProgram himg, a, ha, ?_, ?_, ?_⟩
  · intro x
    exact htraces.mem_visited_iff hall
  · intro x
    exact htraces.mem_data_iff hall
  · intro x hx
    rcases htraces.found_of_reachable hall hx with hv | hdata | hnone
    · exact Or.inl hv
    · exact Or.inr (Or.inl hdata)
    · exact Or.inr (Or.inr (last_of_word?_eq_none himg hx.maps hnone))

/-- A call, a skip to the last byte of the program, and a word behind it that does not decode. -/
theorem analyze_exact_call_skip :
    ∃ img, ofProgram #[0x22, 0x04, 0xFF, 0xFF, 0x30, 0x00, 0x12, 0x00, 0x00] 0x200 = .ok img ∧
      9 ≤ Machine.memorySize ∧ ∃ a, img.analyze [0x200] Machine.memorySize = .ok a ∧
        (∀ x, x ∈ a.visited ↔
          img.Reachable [0x200] x ∧ ∃ w, img.word? x = some w ∧ w.decode?.isSome = true) ∧
        (∀ x, x ∈ a.data ↔
          img.Reachable [0x200] x ∧ ∃ w, img.word? x = some w ∧ w.decode? = none) ∧
        (∀ x, img.Reachable [0x200] x → x ∈ a.visited ∨ x ∈ a.data ∨ x.toNat + 1 = 0x209) := by
  have himg : ofProgram #[0x22, 0x04, 0xFF, 0xFF, 0x30, 0x00, 0x12, 0x00, 0x00] 0x200 = .ok _ := rfl
  have hb : 9 ≤ Machine.memorySize := by decide
  exact ⟨_, himg, analyze_exact himg [0x200] hb⟩

end Image

end Chip8
