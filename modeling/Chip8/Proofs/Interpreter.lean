import Chip8.Proofs.Execution

/-!
# Interpreters that pass over machine code

A call of machine code counts as a jump for the walk. Interpreters have no machine code to call: they pass
over the instruction and go on behind it, and the walk does not look there. So the code that was found need
not cover what such an interpreter executes.

It fails to in one way only (`Image.interpreted_mem_visited_iff`). As long as control is where the machine
of `Control` could be it stays within reachable code (`Control.Within`), and the two machines part only
behind a call of machine code. There control enters code that was not found, or it goes on as before.
-/

namespace Chip8

/-! ## The machine -/

/-- What an instruction at `a` does to control if calls of machine code are passed over. -/
def Instruction.interpretedFlow (i : Instruction) (a : Address) : Flow :=
  match i with
  | .sys _ => .next
  | i => i.flow a

namespace Image

variable {img : Image} {x : Address} {i : Instruction} {f : Flow}

/-- The instruction at an address, if its word decodes. -/
def instruction? (img : Image) (x : Address) : Option Instruction := img.word? x >>= Word.decode?

/-- What the instruction at an address does in an interpreter, if there is an instruction. -/
def interpretedFlow? (img : Image) (x : Address) : Option Flow :=
  (img.instruction? x).map (·.interpretedFlow x)

theorem instruction?_eq_some_iff :
    img.instruction? x = some i ↔ ∃ w, img.word? x = some w ∧ w.decode? = some i :=
  Option.bind_eq_some_iff

theorem flow?_of_instruction? (h : img.instruction? x = some i) : img.flow? x = some (i.flow x) := by
  obtain ⟨w, hw, hd⟩ := instruction?_eq_some_iff.mp h
  rw [flow?_eq_some_iff]
  exact ⟨w, hw, Option.isSome_of_eq_some hd, Word.flow_of_decode? hd⟩

theorem interpretedFlow?_eq_some_iff :
    img.interpretedFlow? x = some f ↔ ∃ i, img.instruction? x = some i ∧ i.interpretedFlow x = f :=
  Option.map_eq_some_iff

/-- The machines differ only at calls of machine code. -/
theorem flow?_eq_interpretedFlow? (h : img.instruction? x = some i)
    (hsys : ∀ t, i ≠ .sys t) : img.flow? x = img.interpretedFlow? x := by
  rw [flow?_of_instruction? h, interpretedFlow?, h, Option.map_some]
  cases i with
  | sys t => exact absurd rfl (hsys t)
  | _ => rfl

end Image

namespace Control

variable {img : Image} {entries : List Address} {b c d e : Control}

/-- A step asks for the flow at one address only. -/
theorem Step.congr {flow? flow?' : Address → Option Flow} (h : Step flow? c d)
    (hsame : flow? c.pc = flow?' c.pc) : Step flow?' c d := by
  cases h with
  | next h => exact .next (hsame ▸ h)
  | jump h => exact .jump (hsame ▸ h)
  | call h => exact .call (hsame ▸ h)
  | ret h => exact .ret (hsame ▸ h)
  | taken h => exact .taken (hsame ▸ h)
  | passed h => exact .passed (hsame ▸ h)

/-- Control passes over a call of machine code at `c`. -/
def PassesOver (img : Image) (c : Control) : Prop := ∃ t, img.instruction? c.pc = some (.sys t)

/-- Control behind the instruction at `c`. -/
def next (c : Control) : Control := ⟨Word.next c.pc, c.stack⟩

theorem PassesOver.eq_next (h : c.PassesOver img) (hs : Step img.interpretedFlow? c d) :
    d = c.next := by
  obtain ⟨t, ht⟩ := h
  have hflow : img.interpretedFlow? c.pc = some .next :=
    Image.interpretedFlow?_eq_some_iff.mpr ⟨_, ht, rfl⟩
  cases hs with
  | next => rfl
  | jump h | call h | ret h | taken h | passed h =>
    rw [hflow] at h
    cases h

/-- **A step stays within reachable code, unless it passes over a call of machine code.** -/
theorem Within.interpreted_step (h : Within img entries c) (hs : Step img.interpretedFlow? c d) :
    Within img entries d ∨ (c.PassesOver img ∧ d = c.next) := by
  by_cases hover : c.PassesOver img
  · exact Or.inr ⟨hover, hover.eq_next hs⟩
  · obtain ⟨f, hf⟩ := hs.exists_flow
    obtain ⟨i, hi, -⟩ := Image.interpretedFlow?_eq_some_iff.mp hf
    have hsame := Image.flow?_eq_interpretedFlow? hi fun t ht => hover ⟨t, by rw [hi, ht]⟩
    exact Or.inl (h.step (hs.congr hsame.symm))

/--
**A run stays within reachable code, or it has passed out of it.**

It passes out at the first call of machine code behind which nothing is reachable.
-/
theorem Within.interpreted_run (h : Within img entries c) (hr : Run img.interpretedFlow? c d) :
    Within img entries d ∨ ∃ b, Run img.interpretedFlow? c b ∧ Within img entries b ∧
      b.PassesOver img ∧ ¬ Within img entries b.next ∧ Run img.interpretedFlow? b.next d := by
  induction hr with
  | refl => exact Or.inl h
  | @tail d e hrun hs ih =>
    rcases ih with hd | ⟨b, hb, hwithin, hover, hout, hrest⟩
    · rcases hd.interpreted_step hs with he | ⟨hover, rfl⟩
      · exact Or.inl he
      · by_cases hnext : Within img entries d.next
        · exact Or.inl hnext
        · exact Or.inr ⟨d, hrun, hd, hover, hnext, .refl⟩
    · exact Or.inr ⟨b, hb, hwithin, hover, hout, hrest.tail hs⟩

/-- If control is not within reachable code but its calls return there, it is at no reachable address. -/
theorem Within.not_reachable_next (h : Within img entries b) (hout : ¬ Within img entries b.next) :
    ¬ img.Reachable entries b.next.pc :=
  fun hreach => hout ⟨fun _ => hreach, h.stack⟩

/-- Where a run goes on or ends at an instruction, there it began at an instruction. -/
theorem Run.isSome_of_isSome {flow? : Address → Option Flow} (hr : Run flow? c d)
    (hd : (flow? d.pc).isSome = true) : (flow? c.pc).isSome = true := by
  rcases hr.cases_head with rfl | ⟨e, hs, -⟩
  · exact hd
  · obtain ⟨f, hf⟩ := hs.exists_flow
    exact Option.isSome_of_eq_some hf

end Control

/-! ## Covered code -/

/-- Control passes over a visited call of machine code into an instruction that was not visited. -/
structure Control.PassesOut (img : Image) (a : Analysis) (c : Control) : Prop where
  passesOver : c.PassesOver img
  visited : c.pc ∈ a.visited
  instruction : (img.instruction? c.next.pc).isSome = true
  missed : c.next.pc ∉ a.visited

namespace Analysis

variable {a : Analysis} {img : Image} {entries : List Address} {x : Address} {e c : Control}

theorem Traces.mem_visited_iff_reachable (h : a.Traces img entries) (hall : a.Exhausts img entries)
    (hx : (img.instruction? x).isSome = true) : x ∈ a.visited ↔ img.Reachable entries x := by
  obtain ⟨i, hi⟩ := Option.isSome_iff_exists.mp hx
  obtain ⟨w, hw, hd⟩ := Image.instruction?_eq_some_iff.mp hi
  rw [h.mem_visited_iff hall]
  exact and_iff_left ⟨w, hw, Option.isSome_of_eq_some hd⟩

theorem Traces.mem_visited_of_within (h : a.Traces img entries) (hall : a.Exhausts img entries)
    (hc : c.Within img entries) (hx : (img.instruction? c.pc).isSome = true) : c.pc ∈ a.visited := by
  obtain ⟨i, hi⟩ := Option.isSome_iff_exists.mp hx
  obtain ⟨w, hw, -⟩ := Image.instruction?_eq_some_iff.mp hi
  exact (h.mem_visited_iff_reachable hall hx).mpr (hc.pc (Image.maps_of_word? hw))

/-- **An instruction that was missed is executed only after control has passed out.** -/
theorem Traces.exists_passesOut (h : a.Traces img entries) (hall : a.Exhausts img entries)
    (he : e.Within img entries) (hrun : Control.Run img.interpretedFlow? e c)
    (hx : (img.instruction? c.pc).isSome = true) (hmissed : c.pc ∉ a.visited) :
    ∃ b, Control.Run img.interpretedFlow? e b ∧ b.PassesOut img a ∧
      Control.Run img.interpretedFlow? b.next c := by
  rcases he.interpreted_run hrun with hc | ⟨b, hb, hwithin, hover, hout, hrest⟩
  · exact absurd (h.mem_visited_of_within hall hc hx) hmissed
  · have hnext : (img.instruction? b.next.pc).isSome = true := by
      have hsome := hrest.isSome_of_isSome (by rw [Image.interpretedFlow?, Option.isSome_map, hx])
      rwa [Image.interpretedFlow?, Option.isSome_map] at hsome
    have hsys : (img.instruction? b.pc).isSome = true := by
      obtain ⟨t, ht⟩ := hover
      exact Option.isSome_of_eq_some ht
    refine ⟨b, hb, ⟨hover, h.mem_visited_of_within hall hwithin hsys, hnext, ?_⟩, hrest⟩
    rw [h.mem_visited_iff_reachable hall hnext]
    exact hwithin.not_reachable_next hout

end Analysis

namespace Image

open Analysis

/--
**When the code that was found covers what an interpreter executes.**

It does exactly if no run passes over a call of machine code into an instruction that was not visited; and
whatever else a run executes without it being visited, it executes after it has passed out in this way.
-/
theorem interpreted_mem_visited_iff {program : Bytes} {base : Address} {img : Image}
    (himg : ofProgram program base = .ok img) (entries : List Address) {budget : Nat}
    (hb : program.size ≤ budget) :
    ∃ a, img.analyze entries budget = .ok a ∧
      ((∀ e ∈ entries, ∀ c, Control.Run img.interpretedFlow? ⟨e, []⟩ c →
          (img.instruction? c.pc).isSome = true → c.pc ∈ a.visited) ↔
        ∀ e ∈ entries, ∀ c, Control.Run img.interpretedFlow? ⟨e, []⟩ c → ¬ c.PassesOut img a) ∧
      ∀ e ∈ entries, ∀ c, Control.Run img.interpretedFlow? ⟨e, []⟩ c →
        (img.instruction? c.pc).isSome = true → c.pc ∉ a.visited →
        ∃ b, Control.Run img.interpretedFlow? ⟨e, []⟩ b ∧ b.PassesOut img a ∧
          Control.Run img.interpretedFlow? b.next c := by
  obtain ⟨a, ha⟩ := exists_analyze himg entries budget
  have h := traces_of_analyze ha
  have hall := exhausts_of_analyze himg hb ha
  have hout : ∀ e ∈ entries, ∀ c, Control.Run img.interpretedFlow? ⟨e, []⟩ c →
      (img.instruction? c.pc).isSome = true → c.pc ∉ a.visited →
      ∃ b, Control.Run img.interpretedFlow? ⟨e, []⟩ b ∧ b.PassesOut img a ∧
        Control.Run img.interpretedFlow? b.next c :=
    fun e he c hrun => h.exists_passesOut hall (Control.within_entry he) hrun
  refine ⟨a, ha, ⟨?_, ?_⟩, hout⟩
  · intro hcovers e he c hrun hpasses
    have hnext : Control.Step img.interpretedFlow? c c.next := by
      obtain ⟨t, ht⟩ := hpasses.passesOver
      exact .next (interpretedFlow?_eq_some_iff.mpr ⟨_, ht, rfl⟩)
    exact hpasses.missed (hcovers e he c.next (hrun.tail hnext) hpasses.instruction)
  · intro hstays e he c hrun hx
    by_cases hv : c.pc ∈ a.visited
    · exact hv
    · obtain ⟨b, hb, hpasses, -⟩ := hout e he c hrun hx hv
      exact absurd hpasses (hstays e he b hb)

/-- A subroutine that passes over a call of machine code, and is called again behind it. -/
theorem interpreted_mem_visited_iff_subroutine :
    ∃ img, ofProgram #[0x22, 0x04, 0x12, 0x00, 0x03, 0x00, 0x22, 0x08, 0x00, 0xEE] 0x200 = .ok img ∧
      10 ≤ Machine.memorySize ∧
      ∃ a, img.analyze [0x200] Machine.memorySize = .ok a ∧
        ((∀ e ∈ [(0x200 : Address)], ∀ c, Control.Run img.interpretedFlow? ⟨e, []⟩ c →
            (img.instruction? c.pc).isSome = true → c.pc ∈ a.visited) ↔
          ∀ e ∈ [(0x200 : Address)], ∀ c,
            Control.Run img.interpretedFlow? ⟨e, []⟩ c → ¬ c.PassesOut img a) ∧
        ∀ e ∈ [(0x200 : Address)], ∀ c, Control.Run img.interpretedFlow? ⟨e, []⟩ c →
          (img.instruction? c.pc).isSome = true → c.pc ∉ a.visited →
          ∃ b, Control.Run img.interpretedFlow? ⟨e, []⟩ b ∧ b.PassesOut img a ∧
            Control.Run img.interpretedFlow? b.next c := by
  have himg :
      ofProgram #[0x22, 0x04, 0x12, 0x00, 0x03, 0x00, 0x22, 0x08, 0x00, 0xEE] 0x200 = .ok _ := rfl
  have hb : 10 ≤ Machine.memorySize := by decide
  exact ⟨_, himg, hb, interpreted_mem_visited_iff himg [0x200] hb⟩

/--
The code that was found need not cover what an interpreter executes: behind a call of machine code stands
an instruction that was missed.
-/
theorem interpreted_not_mem_visited :
    ∃ img, ofProgram #[0x03, 0x00, 0x00, 0xE0] 0x200 = .ok img ∧ 4 ≤ Machine.memorySize ∧
      ∃ a, img.analyze [0x200] Machine.memorySize = .ok a ∧
        ∃ c d, Control.Run img.interpretedFlow? ⟨0x200, []⟩ c ∧
          Control.Step img.interpretedFlow? c d ∧ c.pc ∉ a.visited := by
  have himg : ofProgram #[0x03, 0x00, 0x00, 0xE0] 0x200 =
      .ok ⟨[⟨"ROM Data", 0x200, #[0x03, 0x00, 0x00, 0xE0], .all⟩], 0x200⟩ := rfl
  have hb : 4 ≤ Machine.memorySize := by decide
  refine ⟨_, himg, hb, ?_⟩
  generalize hp :
    (⟨[⟨"ROM Data", 0x200, #[0x03, 0x00, 0x00, 0xE0], .all⟩], 0x200⟩ : Image) = img
  have hfirst : Control.Step img.interpretedFlow? ⟨0x200, []⟩ ⟨0x202, []⟩ := .next (hp ▸ rfl)
  have hsecond : Control.Step img.interpretedFlow? ⟨0x202, []⟩ ⟨0x204, []⟩ := .next (hp ▸ rfl)
  have hwalk : (img.walk [0x200] Machine.memorySize).map (fun w => (w.sites, w.data)) =
      .ok ([⟨0x200, 0x0300⟩], []) := by
    have hword : img.word? 0x200 = some 0x0300 := hp ▸ rfl
    have hnone : img.word? 0x300 = none := hp ▸ rfl
    have hdecode : (0x0300 : Word).decode?.isNone = false := rfl
    have hedges : Site.edges img ⟨0x200, 0x0300⟩ = [⟨0x200, 0x300, .branch⟩] := rfl
    have hin : ¬ Machine.memorySize ≤ 512 := by decide
    rw [walk, show Machine.memorySize = 4095 + 1 from rfl, Walk.run]
    simp [Walk.run, Walk.start, Walk.addSite, hword, hnone, hdecode, hedges, hin, Except.map,
      Std.ExtTreeSet.mem_insert]
  obtain ⟨a, ha, hvisited, -, -⟩ := exists_analyze_of_walk hwalk
  refine ⟨a, ha, ⟨0x202, []⟩, ⟨0x204, []⟩, .single hfirst, hsecond, ?_⟩
  rw [hvisited]
  simp

end Image

end Chip8
