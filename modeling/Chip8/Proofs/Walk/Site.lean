import Chip8.Proofs.Flow
import Chip8.Walk

/-!
# Edges of a site

The edges that leave a site are read off its flow (`Site.mem_edges_iff`). Their targets are successors of
its word, and of the successors at most the one right behind the word is missing, if it is not mapped.
-/

namespace Chip8.Site

variable {img : Image} {s : Site} {e : Edge} {t : Address}

@[simp]
theorem mem_runOn_iff :
    e ∈ s.runOn img t ↔
      e.source = s.address ∧ e.kind = .fallthrough ∧ e.target = t ∧ img.maps e.target = true := by
  unfold runOn
  split
  · next hm =>
    rw [List.mem_singleton]
    constructor
    · rintro rfl
      exact ⟨rfl, rfl, rfl, hm⟩
    · rintro ⟨hs, hk, ht, -⟩
      obtain ⟨source, target, kind⟩ := e
      rw [Edge.mk.injEq]
      exact ⟨hs, ht, hk⟩
  · next hm =>
    constructor
    · intro h
      cases h
    · rintro ⟨-, -, rfl, hm'⟩
      exact absurd hm' hm

/--
**The edges of a site, kind by kind.**

Only the edge that runs on asks whether its target is mapped.
-/
@[grind =]
theorem mem_edges_iff :
    e ∈ s.edges img ↔ e.source = s.address ∧
      ((e.kind = .branch ∧ s.flow = .jump e.target) ∨
        (e.kind = .call ∧ s.flow = .call e.target) ∨
        (e.kind = .condBranch ∧ ∃ passed, s.flow = .skip e.target passed) ∨
        (e.kind = .fallthrough ∧ s.flow.runsOn = true ∧ e.target = Word.next s.address ∧
          img.maps e.target = true)) := by
  obtain ⟨source, target, kind⟩ := e
  unfold edges
  cases hf : s.flow with
  | next => simp [mem_runOn_iff, Flow.runsOn]
  | jump a => cases kind <;> simp [Flow.runsOn, @eq_comm _ a]
  | call a =>
    rw [List.mem_cons, mem_runOn_iff]
    cases kind <;> simp [Flow.runsOn, @eq_comm _ a]
  | ret => simp [Flow.runsOn]
  | indirect => simp [Flow.runsOn]
  | skip taken passed =>
    obtain ⟨-, rfl⟩ := Word.flow_eq_skip hf
    rw [List.mem_cons, mem_runOn_iff]
    cases kind <;> simp [Flow.runsOn, @eq_comm _ taken]

theorem source_of_mem_edges (he : e ∈ s.edges img) : e.source = s.address :=
  (mem_edges_iff.mp he).1

theorem of_fallthrough (he : e ∈ s.edges img) (hk : e.kind = .fallthrough) :
    s.flow.runsOn = true ∧ e.target = Word.next s.address ∧ img.maps e.target = true := by
  have hcases := (mem_edges_iff.mp he).2
  simpa [hk] using hcases

/-- The only call among the edges is that of a call. -/
theorem exists_call_iff (img : Image) :
    (∃ e ∈ s.edges img, e.kind = .call ∧ e.target = t) ↔ s.flow = .call t := by
  constructor
  · rintro ⟨e, he, hk, rfl⟩
    have hcases := (mem_edges_iff.mp he).2
    simpa [hk] using hcases
  · intro hf
    exact ⟨⟨s.address, t, .call⟩, by grind, rfl, rfl⟩

/-- A site that runs on has the edge to the next word, if that is mapped. -/
theorem fallthrough_mem_edges (hf : s.flow.runsOn = true)
    (hm : img.maps (Word.next s.address) = true) :
    ⟨s.address, Word.next s.address, .fallthrough⟩ ∈ s.edges img :=
  mem_edges_iff.mpr ⟨rfl, Or.inr (Or.inr (Or.inr ⟨rfl, hf, rfl, hm⟩))⟩

/-- Every edge goes to a successor. -/
theorem target_mem_successors (he : e ∈ s.edges img) :
    e.target ∈ s.word.successors s.address := by
  have hcases := (mem_edges_iff.mp he).2
  grind [flow]

/-- An edge goes to every mapped successor. -/
theorem exists_edge_of_mem_successors (ht : t ∈ s.word.successors s.address)
    (hm : img.maps t = true) : ∃ e ∈ s.edges img, e.target = t := by
  rcases Word.mem_successors_iff.mp ht with hf | hf | ⟨passed, hf⟩ | ⟨hf, rfl⟩
  · exact ⟨⟨s.address, t, .branch⟩, by grind [flow], rfl⟩
  · exact ⟨⟨s.address, t, .call⟩, by grind [flow], rfl⟩
  · exact ⟨⟨s.address, t, .condBranch⟩, by grind [flow], rfl⟩
  · exact ⟨_, fallthrough_mem_edges hf hm, rfl⟩

end Chip8.Site
