import Chip8.Walk
import Mathlib.Logic.Relation

/-!
# The walk, step by step

`Walk.run` goes in rounds. Seen as a whole it works through one queue: each step takes the address at the
front, and the targets found there join at the end. `State.Step` says all that one step can do, and a run
is a chain of steps (`steps_of_run_eq_ok`, `steps_of_run_eq_error`). A property of every walk is proved
for one step and carried along the chain.
-/

namespace Chip8.Walk

/-- A walk under way: the addresses still to look at, what has been found, and the budget that is left. -/
structure State where
  queue : List Address
  walk : Walk
  budget : Nat

namespace State

/-- One step looks at the address at the front of the queue. -/
inductive Step (img : Image) : State → State → Prop where
  /-- It was handled before. -/
  | again {a : Address} {q : List Address} {w : Walk} {n : Nat} (h : a ∈ w.handled) :
      Step img ⟨a :: q, w, n + 1⟩ ⟨q, w, n + 1⟩
  /-- No word starts there. -/
  | pass {a : Address} {q : List Address} {w : Walk} {n : Nat} (h : a ∉ w.handled)
      (hw : img.word? a = none) : Step img ⟨a :: q, w, n + 1⟩ ⟨q, w, n + 1⟩
  /-- Its word does not decode. -/
  | data {a : Address} {q : List Address} {w : Walk} {n : Nat} {word : Word} (h : a ∉ w.handled)
      (hw : img.word? a = some word) (hd : word.decode? = none) :
      Step img ⟨a :: q, w, n + 1⟩ ⟨q, w.addData a, n + 1⟩
  /-- Its word decodes. -/
  | site {a : Address} {q : List Address} {w : Walk} {n : Nat} {word : Word} (h : a ∉ w.handled)
      (hw : img.word? a = some word) (hd : word.decode?.isSome = true)
      (hlt : a.toNat < Machine.memorySize) :
      Step img ⟨a :: q, w, n + 1⟩
        ⟨q ++ (Site.edges img ⟨a, word⟩).map Edge.target, w.addSite ⟨a, word⟩, n⟩

abbrev Steps (img : Image) : State → State → Prop := Relation.ReflTransGen (Step img)

/-- Nothing is left to do, or the budget is used up. -/
def Final (s : State) : Prop := s.queue = [] ∨ s.budget = 0

/-- The next instruction lies outside the memory. -/
def FaultsAt (img : Image) (s : State) (a : Address) : Prop :=
  ∃ q n word, s.queue = a :: q ∧ s.budget = n + 1 ∧ a ∉ s.walk.handled ∧
    img.word? a = some word ∧ word.decode?.isSome = true ∧ Machine.memorySize ≤ a.toNat

end State

open State

variable {img : Image} {budget : Nat} {round found : List Address} {w : Walk}

/-- **A run is a chain of steps**, to a final state or to the instruction outside the memory. -/
theorem steps_of_run (img : Image) (budget : Nat) (round found : List Address) (w : Walk) :
    ∃ s, Steps img ⟨round ++ found.reverse, w, budget⟩ s ∧
      ((run img budget round found w = .ok s.walk ∧ s.Final) ∨
        ∃ a, run img budget round found w = .error (.outsideMemory a) ∧ s.FaultsAt img a) := by
  fun_induction run img budget round found w with
  | case1 budget w => exact ⟨_, .refl, Or.inl ⟨rfl, Or.inl rfl⟩⟩
  | case2 budget w t ts ih =>
    -- the next round begins; the queue stays as it is
    rw [List.reverse_nil, List.append_nil] at ih
    exact ih
  | case3 found w a round => exact ⟨_, .refl, Or.inl ⟨rfl, Or.inr rfl⟩⟩
  | case4 found w a round budget hmem ih =>
    obtain ⟨s, hs, hrun⟩ := ih
    exact ⟨s, .head (.again hmem) hs, hrun⟩
  | case5 found w a round budget hmem hw ih =>
    obtain ⟨s, hs, hrun⟩ := ih
    exact ⟨s, .head (.pass hmem hw) hs, hrun⟩
  | case6 found w a round budget hmem word hw hd ih =>
    obtain ⟨s, hs, hrun⟩ := ih
    exact ⟨s, .head (.data hmem hw (Option.isNone_iff_eq_none.mp hd)) hs, hrun⟩
  | case7 found w a round budget hmem word hw hd hlt =>
    have hsome : word.decode?.isSome = true :=
      Option.isNone_eq_false_iff.mp (Bool.eq_false_iff.mpr hd)
    exact ⟨_, .refl, Or.inr ⟨a, rfl, _, _, word, rfl, rfl, hmem, hw, hsome, hlt⟩⟩
  | case8 found w a round budget hmem word hw hd hlt site targets ih =>
    have hsome : word.decode?.isSome = true :=
      Option.isNone_eq_false_iff.mp (Bool.eq_false_iff.mpr hd)
    have hqueue : round ++ (targets.reverse ++ found).reverse = round ++ found.reverse ++ targets := by
      rw [List.reverse_append, List.reverse_reverse, List.append_assoc]
    obtain ⟨s, hs, hrun⟩ := ih
    rw [hqueue] at hs
    exact ⟨s, .head (.site hmem hw hsome (by omega)) hs, hrun⟩

/-- A walk that ends comes to a final state by steps. -/
theorem steps_of_run_eq_ok {w' : Walk} (h : run img budget round found w = .ok w') :
    ∃ s, Steps img ⟨round ++ found.reverse, w, budget⟩ s ∧ s.walk = w' ∧ s.Final := by
  obtain ⟨s, hs, ⟨hok, hfinal⟩ | ⟨a, herr, -⟩⟩ :=
    steps_of_run img budget round found w
  · rw [h] at hok
    exact ⟨s, hs, (Except.ok.inj hok).symm, hfinal⟩
  · rw [h] at herr
    cases herr

/-- A walk that faults comes by steps to an instruction outside the memory. -/
theorem steps_of_run_eq_error {a : Address}
    (h : run img budget round found w = .error (.outsideMemory a)) :
    ∃ s, Steps img ⟨round ++ found.reverse, w, budget⟩ s ∧ s.FaultsAt img a := by
  obtain ⟨s, hs, ⟨hok, -⟩ | ⟨b, herr, hfault⟩⟩ :=
    steps_of_run img budget round found w
  · rw [h] at hok
    cases hok
  · rw [h] at herr
    cases herr
    exact ⟨s, hs, hfault⟩

end Chip8.Walk
