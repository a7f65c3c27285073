import Chip8.Proofs.Reachability

/-!
# Execution and reachable code

A machine that executes a program knows more than the walk: it returns through its stack of calls to the
address from which it came, to any depth. As far as control goes its states are a place and a stack of
return addresses (`Control`). The walk has no stack, yet it finds every instruction that can be executed:
the return address of every call was reachable when the call was made (`Control.Within`).
-/

namespace Chip8

/-- The flow of the instruction at an address, if there is an instruction. -/
def Image.flow? (img : Image) (x : Address) : Option Flow := do
  let w ← img.word? x
  if w.decode?.isSome then some (w.flow x) else none

theorem Image.flow?_eq_some_iff {img : Image} {x : Address} {f : Flow} :
    img.flow? x = some f ↔
      ∃ w, img.word? x = some w ∧ w.decode?.isSome = true ∧ w.flow x = f := by
  unfold flow?
  cases img.word? x with
  | none => simp
  | some w => simp

/-- Where control is, and where its calls return to, the latest first. -/
structure Control where
  pc : Address
  stack : List Address

namespace Control

/-! ## The machine -/

/--
One step of a machine, where `flow?` tells what the instruction at an address does. A return without a
call and a jump that depends on a register have no step.
-/
inductive Step (flow? : Address → Option Flow) : Control → Control → Prop where
  | next {pc : Address} {stack : List Address} (h : flow? pc = some .next) :
      Step flow? ⟨pc, stack⟩ ⟨Word.next pc, stack⟩
  | jump {pc t : Address} {stack : List Address} (h : flow? pc = some (.jump t)) :
      Step flow? ⟨pc, stack⟩ ⟨t, stack⟩
  | call {pc t : Address} {stack : List Address} (h : flow? pc = some (.call t)) :
      Step flow? ⟨pc, stack⟩ ⟨t, Word.next pc :: stack⟩
  | ret {pc r : Address} {stack : List Address} (h : flow? pc = some .ret) :
      Step flow? ⟨pc, r :: stack⟩ ⟨r, stack⟩
  | taken {pc taken passed : Address} {stack : List Address}
      (h : flow? pc = some (.skip taken passed)) : Step flow? ⟨pc, stack⟩ ⟨taken, stack⟩
  | passed {pc taken passed : Address} {stack : List Address}
      (h : flow? pc = some (.skip taken passed)) : Step flow? ⟨pc, stack⟩ ⟨passed, stack⟩

abbrev Run (flow? : Address → Option Flow) : Control → Control → Prop :=
  Relation.ReflTransGen (Step flow?)

theorem Step.exists_flow {flow? : Address → Option Flow} {c d : Control} (h : Step flow? c d) :
    ∃ f, flow? c.pc = some f := by
  cases h with
  | next h | jump h | call h | ret h | taken h | passed h => exact ⟨_, h⟩

/-! ## Execution stays within reachable code -/

variable {img : Image} {entries : List Address} {c d : Control}

/-- Control is at a reachable address and returns to reachable addresses, as far as they are mapped. -/
structure Within (img : Image) (entries : List Address) (c : Control) : Prop where
  pc : img.maps c.pc = true → img.Reachable entries c.pc
  stack : ∀ r ∈ c.stack, img.maps r = true → img.Reachable entries r

theorem within_entry {e : Address} (he : e ∈ entries) : Within img entries ⟨e, []⟩ where
  pc hm := .entry he hm
  stack _ hr := nomatch hr

/-- The mapped successors of an instruction that is executed are reachable. -/
theorem Within.reachable_of_flow (h : Within img entries c) {f : Flow} {t : Address}
    (hf : img.flow? c.pc = some f)
    (ht : f = .jump t ∨ f = .call t ∨ (∃ passed, f = .skip t passed) ∨
      (f.runsOn = true ∧ t = Word.next c.pc))
    (hm : img.maps t = true) : img.Reachable entries t := by
  obtain ⟨w, hw, hd, rfl⟩ := Image.flow?_eq_some_iff.mp hf
  have hpc : img.Reachable entries c.pc := h.pc (Image.maps_of_word? hw)
  exact .successor hpc hw hd (Word.mem_successors_iff.mpr ht) hm

/-- **A step stays within reachable code.** -/
theorem Within.step (h : Within img entries c) (hs : Step img.flow? c d) : Within img entries d := by
  cases hs with
  | next hf =>
    exact ⟨h.reachable_of_flow hf (Or.inr (Or.inr (Or.inr ⟨rfl, rfl⟩))), h.stack⟩
  | jump hf => exact ⟨h.reachable_of_flow hf (Or.inl rfl), h.stack⟩
  | call hf =>
    -- the callee is reachable, and so is the place behind the call
    refine ⟨h.reachable_of_flow hf (Or.inr (Or.inl rfl)), List.forall_mem_cons.mpr ⟨?_, h.stack⟩⟩
    exact h.reachable_of_flow hf (Or.inr (Or.inr (Or.inr ⟨rfl, rfl⟩)))
  | ret hf => exact ⟨h.stack _ List.mem_cons_self, fun r hr => h.stack r (List.mem_cons_of_mem _ hr)⟩
  | taken hf => exact ⟨h.reachable_of_flow hf (Or.inr (Or.inr (Or.inl ⟨_, rfl⟩))), h.stack⟩
  | passed hf =>
    obtain ⟨w, -, -, hflow⟩ := Image.flow?_eq_some_iff.mp hf
    obtain ⟨-, rfl⟩ := Word.flow_eq_skip hflow
    exact ⟨h.reachable_of_flow hf (Or.inr (Or.inr (Or.inr ⟨rfl, rfl⟩))), h.stack⟩

/-- **So does a run.** -/
theorem Within.run (h : Within img entries c) (hr : Run img.flow? c d) : Within img entries d := by
  induction hr with
  | refl => exact h
  | tail _ hs ih => exact ih.step hs

end Control

namespace Image

/--
**Every instruction that can be executed is found.**

A run starts at an entry with an empty stack. Wherever it comes to an instruction, that is a site of the
analysis: where it goes on from, and also where it is stuck at a return without a call or at a jump that
depends on a register.
-/
theorem executed_mem_visited {program : Bytes} {base : Address} {img : Image}
    (himg : ofProgram program base = .ok img) (entries : List Address) {budget : Nat}
    (hb : program.size ≤ budget) :
    ∃ a, img.analyze entries budget = .ok a ∧
      ∀ e ∈ entries, ∀ c, Control.Run img.flow? ⟨e, []⟩ c →
        (∀ d, Control.Step img.flow? c d → c.pc ∈ a.visited) ∧
        ((img.flow? c.pc).isSome = true → c.pc ∈ a.visited) := by
  obtain ⟨a, ha⟩ := exists_analyze himg entries budget
  refine ⟨a, ha, ?_⟩
  intro e he c hrun
  have hwithin : Control.Within img entries c := (Control.within_entry he).run hrun
  have hvisited : ∀ f, img.flow? c.pc = some f → c.pc ∈ a.visited := by
    intro f hf
    obtain ⟨w, hw, hd, -⟩ := flow?_eq_some_iff.mp hf
    rw [(traces_of_analyze ha).mem_visited_iff (exhausts_of_analyze himg hb ha)]
    exact ⟨hwithin.pc (maps_of_word? hw), w, hw, hd⟩
  constructor
  · intro d hs
    obtain ⟨f, hf⟩ := hs.exists_flow
    exact hvisited f hf
  · intro hsome
    obtain ⟨f, hf⟩ := Option.isSome_iff_exists.mp hsome
    exact hvisited f hf

/-- A subroutine that calls itself. -/
theorem executed_mem_visited_recursive :
    ∃ img, ofProgram #[0x22, 0x04, 0x12, 0x02, 0x30, 0x00, 0x22, 0x04, 0x00, 0xEE] 0x200 = .ok img ∧
      10 ≤ Machine.memorySize ∧
      ∃ a, img.analyze [0x200] Machine.memorySize = .ok a ∧
        ∀ e ∈ [(0x200 : Address)], ∀ c, Control.Run img.flow? ⟨e, []⟩ c →
          (∀ d, Control.Step img.flow? c d → c.pc ∈ a.visited) ∧
          ((img.flow? c.pc).isSome = true → c.pc ∈ a.visited) := by
  have himg :
      ofProgram #[0x22, 0x04, 0x12, 0x02, 0x30, 0x00, 0x22, 0x04, 0x00, 0xEE] 0x200 = .ok _ := rfl
  have hb : 10 ≤ Machine.memorySize := by decide
  exact ⟨_, himg, hb, executed_mem_visited himg [0x200] hb⟩

end Image

end Chip8
