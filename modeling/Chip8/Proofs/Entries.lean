import Chip8.Proofs.Graph.Agreement
import Chip8.Proofs.Reachability
import Chip8.Proofs.Successors

/-!
# Analyses from different entries

Other entries, or the same in another order, make the walk take another course, and no step of the one
walk need have its like in the other. But with a budget that does not run out the visited addresses are
known without the walk (`Analysis.Traces.mem_visited_iff`), and all else that an analysis tells follows
from them: the other sets are cut out of them by the words, and the edges are those of the visited words
in some order (`Image.edges_perm_of_analyze`).
-/

namespace Chip8

/-! ## Reachable code -/

namespace Image.Reachable

variable {img : Image} {entries entries' : List Address} {x : Address}

theorem mono (h : img.Reachable entries x) (hsub : ∀ e ∈ entries, e ∈ entries') :
    img.Reachable entries' x := by
  induction h with
  | entry he hm => exact .entry (hsub _ he) hm
  | successor _ hw hd ht hm ih => exact .successor ih hw hd ht hm

/-- **What can be reached was reached from one of the entries**, so entries can be taken apart. -/
theorem append_iff :
    img.Reachable (entries ++ entries') x ↔
      img.Reachable entries x ∨ img.Reachable entries' x := by
  constructor
  · intro h
    induction h with
    | entry he hm =>
      rcases List.mem_append.mp he with he | he
      · exact Or.inl (.entry he hm)
      · exact Or.inr (.entry he hm)
    | successor _ hw hd ht hm ih =>
      rcases ih with h | h
      · exact Or.inl (.successor h hw hd ht hm)
      · exact Or.inr (.successor h hw hd ht hm)
  · rintro (h | h)
    · exact h.mono fun _ => List.mem_append_left _
    · exact h.mono fun _ => List.mem_append_right _

theorem congr (hsame : ∀ e, e ∈ entries ↔ e ∈ entries') :
    img.Reachable entries x ↔ img.Reachable entries' x :=
  ⟨fun h => h.mono fun e => (hsame e).mp, fun h => h.mono fun e => (hsame e).mpr⟩

end Image.Reachable

/-- The edges of an analysis are those of its visited addresses, in some order. -/
theorem Image.edges_perm_of_analyze {img : Image} {entries : List Address} {budget : Nat}
    {a : Analysis} (h : img.analyze entries budget = .ok a) :
    a.edges.Perm (a.visited.toList.flatMap img.edgesAt) := by
  obtain ⟨order, horder, hedges⟩ := exists_order_of_analyze h
  rw [hedges]
  exact horder.flatMap_right _

/-! ## Analyses that follow up everything -/

namespace Analysis

/-- The sets of one analysis are the unions of those of two others. -/
structure Unites (a b c : Analysis) : Prop where
  visited : a.visited = b.visited ∪ c.visited
  data : a.data = b.data ∪ c.data
  terminators : a.terminators = b.terminators ∪ c.terminators
  returns : a.returns = b.returns ∪ c.returns
  indirect : a.indirect = b.indirect ∪ c.indirect
  callTargets : a.callTargets = b.callTargets ∪ c.callTargets

variable {a b c : Analysis} {img : Image} {entries entries' : List Address}

/-- **Two lists of entries lead to what each of them leads to.** -/
theorem Traces.unites (ha : a.Traces img (entries ++ entries'))
    (ha' : a.Exhausts img (entries ++ entries')) (hb : b.Traces img entries)
    (hb' : b.Exhausts img entries) (hc : c.Traces img entries') (hc' : c.Exhausts img entries') :
    a.Unites b c := by
  have hreach : ∀ x, img.Reachable (entries ++ entries') x ↔
      img.Reachable entries x ∨ img.Reachable entries' x :=
    fun _ => Image.Reachable.append_iff
  have hunion : a.visited = b.visited ∪ c.visited :=
    AddressSet.eq_union_of_iff hreach (fun _ => ha.mem_visited_iff ha')
      (fun _ => hb.mem_visited_iff hb') (fun _ => hc.mem_visited_iff hc')
  have hvisited : ∀ x, x ∈ a.visited ↔ x ∈ b.visited ∨ x ∈ c.visited := by
    intro x
    rw [hunion, Std.ExtTreeSet.mem_union_iff]
  have hedges : ∀ e, e ∈ a.edges ↔ e ∈ b.edges ∨ e ∈ c.edges := by
    intro e
    rw [ha.edges_iff, hb.edges_iff, hc.edges_iff, hvisited, or_and_right]
  constructor
  case visited => exact hunion
  case data =>
    exact AddressSet.eq_union_of_iff hreach (fun _ => ha.mem_data_iff ha')
      (fun _ => hb.mem_data_iff hb') (fun _ => hc.mem_data_iff hc')
  case terminators =>
    exact AddressSet.eq_union_of_iff hvisited ha.terminators_iff hb.terminators_iff
      hc.terminators_iff
  case returns =>
    exact AddressSet.eq_union_of_iff hvisited ha.returns_iff hb.returns_iff hc.returns_iff
  case indirect =>
    exact AddressSet.eq_union_of_iff hvisited ha.indirect_iff hb.indirect_iff hc.indirect_iff
  case callTargets =>
    -- a target has no word of its own to be cut out by, it has an edge
    refine Std.ExtTreeSet.ext_mem fun x => ?_
    rw [Std.ExtTreeSet.mem_union_iff, ha.callTargets_iff, hb.callTargets_iff, hc.callTargets_iff]
    simp only [hedges, or_and_right, exists_or]

section SameEntries

variable (ha : a.Traces img entries) (ha' : a.Exhausts img entries) (hb : b.Traces img entries')
  (hb' : b.Exhausts img entries') (hsame : ∀ x, x ∈ entries ↔ x ∈ entries')
include ha ha' hb hb' hsame

theorem Traces.visited_eq : a.visited = b.visited :=
  AddressSet.eq_of_iff (fun _ => Image.Reachable.congr hsame) (fun _ => ha.mem_visited_iff ha')
    (fun _ => hb.mem_visited_iff hb')

/-- **The same entries in another order lead to the same.** -/
theorem Traces.agrees (hedges : a.edges.Perm b.edges) : a.Agrees b := by
  have hvisited : ∀ x, x ∈ a.visited ↔ x ∈ b.visited := by
    intro x
    rw [ha.visited_eq ha' hb hb' hsame]
  constructor
  case visited => exact ha.visited_eq ha' hb hb' hsame
  case data =>
    exact AddressSet.eq_of_iff (fun _ => Image.Reachable.congr hsame)
      (fun _ => ha.mem_data_iff ha') (fun _ => hb.mem_data_iff hb')
  case terminators => exact AddressSet.eq_of_iff hvisited ha.terminators_iff hb.terminators_iff
  case returns => exact AddressSet.eq_of_iff hvisited ha.returns_iff hb.returns_iff
  case indirect => exact AddressSet.eq_of_iff hvisited ha.indirect_iff hb.indirect_iff
  case callTargets =>
    refine Std.ExtTreeSet.ext_mem fun x => ?_
    rw [ha.callTargets_iff, hb.callTargets_iff]
    simp only [hedges.mem_iff]
  case edges => exact hedges

end SameEntries

end Analysis

namespace Image

open Analysis

variable {program : Bytes} {base : Address} {img : Image} (himg : ofProgram program base = .ok img)
  {budget : Nat} (hb : program.size ≤ budget) {entries entries' : List Address} {a b : Analysis}
include himg hb

theorem agrees_of_analyze (ha : img.analyze entries budget = .ok a)
    (ha' : img.analyze entries' budget = .ok b) (hsame : ∀ x, x ∈ entries ↔ x ∈ entries') :
    a.Agrees b := by
  have hall := exhausts_of_analyze himg hb ha
  have hall' := exhausts_of_analyze himg hb ha'
  have hvisited := (traces_of_analyze ha).visited_eq hall (traces_of_analyze ha') hall' hsame
  -- both lists have the edges of the same addresses
  have hperm := edges_perm_of_analyze ha
  rw [hvisited] at hperm
  exact (traces_of_analyze ha).agrees hall (traces_of_analyze ha') hall' hsame
    (hperm.trans (edges_perm_of_analyze ha').symm)

/--
**The entries matter as a set only**, with a budget as large as the program.

What is found from two lists of entries together is what is found from each of them. Lists with the same
members, in any order and however often they are given, lead to analyses and graphs that are the same but
for the order of their edges.
-/
theorem analyze_entries_as_set (entries₁ entries₂ : List Address)
    (hsame : ∀ x, x ∈ entries ↔ x ∈ entries') :
    (∃ a a₁ a₂, img.analyze (entries₁ ++ entries₂) budget = .ok a ∧
      img.analyze entries₁ budget = .ok a₁ ∧ img.analyze entries₂ budget = .ok a₂ ∧
      a.Unites a₁ a₂) ∧
    ∃ a a', img.analyze entries budget = .ok a ∧ img.analyze entries' budget = .ok a' ∧
      a.Agrees a' ∧ (Graph.ofAnalysis a entries).Agrees (Graph.ofAnalysis a' entries') := by
  constructor
  · obtain ⟨a, ha⟩ := exists_analyze himg (entries₁ ++ entries₂) budget
    obtain ⟨a₁, ha₁⟩ := exists_analyze himg entries₁ budget
    obtain ⟨a₂, ha₂⟩ := exists_analyze himg entries₂ budget
    exact ⟨a, a₁, a₂, ha, ha₁, ha₂, (traces_of_analyze ha).unites (exhausts_of_analyze himg hb ha)
      (traces_of_analyze ha₁) (exhausts_of_analyze himg hb ha₁) (traces_of_analyze ha₂)
      (exhausts_of_analyze himg hb ha₂)⟩
  · obtain ⟨a, ha⟩ := exists_analyze himg entries budget
    obtain ⟨a', ha'⟩ := exists_analyze himg entries' budget
    have hagree := agrees_of_analyze himg hb ha ha' hsame
    exact ⟨a, a', ha, ha', hagree, hagree.graph hsame⟩

end Image

/-- Code that two entries share, a call, data, and an entry that is given twice. -/
theorem Image.analyze_entries_as_set_shared :
    ∃ img, ofProgram #[0x22, 0x04, 0xFF, 0xFF, 0x30, 0x00, 0x12, 0x00, 0x00, 0xEE] 0x200 = .ok img ∧
      10 ≤ Machine.memorySize ∧
      (∀ x, x ∈ [(0x204 : Address), 0x200] ↔ x ∈ [(0x200 : Address), 0x204, 0x200]) ∧
      (∃ a a₁ a₂, img.analyze ([0x206] ++ [0x201, 0x208]) Machine.memorySize = .ok a ∧
        img.analyze [0x206] Machine.memorySize = .ok a₁ ∧
        img.analyze [0x201, 0x208] Machine.memorySize = .ok a₂ ∧ a.Unites a₁ a₂) ∧
      ∃ a a', img.analyze [0x204, 0x200] Machine.memorySize = .ok a ∧
        img.analyze [0x200, 0x204, 0x200] Machine.memorySize = .ok a' ∧ a.Agrees a' ∧
        (Graph.ofAnalysis a [0x204, 0x200]).Agrees (Graph.ofAnalysis a' [0x200, 0x204, 0x200]) := by
  have himg :
      ofProgram #[0x22, 0x04, 0xFF, 0xFF, 0x30, 0x00, 0x12, 0x00, 0x00, 0xEE] 0x200 = .ok _ := rfl
  have hb : 10 ≤ Machine.memorySize := by decide
  have hsame : ∀ x, x ∈ [(0x204 : Address), 0x200] ↔ x ∈ [(0x200 : Address), 0x204, 0x200] := by
    intro x
    simp only [List.mem_cons, List.not_mem_nil, or_false]
    rw [or_left_comm, or_self]
  exact ⟨_, himg, hb, hsame, analyze_entries_as_set himg hb [0x206] [0x201, 0x208] hsame⟩

end Chip8
