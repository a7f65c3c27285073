import Chip8.Proofs.Image.Program
import Chip8.Proofs.Walk.Growth

/-!
# What an analysis tells

The sets and edges of an analysis, each in terms of the image alone: `Analysis.Traces` collects what holds
of the analysis of any image, whatever the budget. It holds of what a walk has found at any time, for it is
kept when an instruction or data is added (`Traces.addSite`, `Traces.addData`). If the budget does not run
out, the analysis also follows up every entry and every target (`Analysis.Exhausts`). A program that was
loaded never makes the walk fault, and a budget as large as the program never runs out.
-/

namespace Chip8

/-! ## Terminators -/

namespace Flow

variable {f : Flow}

theorem runsOn_of_not_isTerminator (h : f.isTerminator ≠ true) : f.runsOn = true := by
  cases f with
  | next | call => rfl
  | _ => exact absurd rfl h

/-- Only a skip both ends a straight run and may run on. -/
theorem eq_skip_of_isTerminator (ht : f.isTerminator = true) (hr : f.runsOn = true) :
    ∃ taken passed, f = .skip taken passed := by
  cases f with
  | skip taken passed => exact ⟨taken, passed, rfl⟩
  | next | call => cases ht
  | _ => cases hr

end Flow

namespace Analysis

variable {img : Image} {w : Walk} {x : Address} {a : Analysis} {entries : List Address}

/-! ## The analysis and the image -/

/-- The analysis says of the image what holds, and found it from the entries. -/
structure Traces (a : Analysis) (img : Image) (entries : List Address) : Prop where
  word : ∀ x ∈ a.visited, ∃ w, img.word? x = some w ∧ w.decode?.isSome = true
  inside : ∀ x ∈ a.visited, x.toNat < Machine.memorySize
  edges_iff : ∀ e, e ∈ a.edges ↔
    e.source ∈ a.visited ∧ ∃ w, img.word? e.source = some w ∧ e ∈ Site.edges img ⟨e.source, w⟩
  terminators_iff : ∀ x, x ∈ a.terminators ↔
    x ∈ a.visited ∧ ∃ w, img.word? x = some w ∧ (w.flow x).isTerminator = true
  returns_iff : ∀ x, x ∈ a.returns ↔ x ∈ a.visited ∧ ∃ w, img.word? x = some w ∧ w.flow x = .ret
  indirect_iff : ∀ x, x ∈ a.indirect ↔
    x ∈ a.visited ∧ ∃ w, img.word? x = some w ∧ w.flow x = .indirect
  callTargets_iff : ∀ x, x ∈ a.callTargets ↔ ∃ e ∈ a.edges, e.kind = .call ∧ e.target = x
  data : ∀ x ∈ a.data, ∃ w, img.word? x = some w ∧ w.decode? = none
  discovered : ∀ x, x ∈ a.visited ∨ x ∈ a.data → Discovered entries a.edges x

/-- Every entry and every target was followed up, unless no word starts there. -/
def Exhausts (a : Analysis) (img : Image) (entries : List Address) : Prop :=
  ∀ x, (x ∈ entries ∨ ∃ e ∈ a.edges, e.target = x) →
    x ∈ a.visited ∨ x ∈ a.data ∨ img.word? x = none

/-! ### The analysis grows -/

section Growth

variable {s : Site} {word : Word}

theorem traces_empty : empty.Traces img entries := by
  constructor <;> simp [empty]

/-- What the words cut out of the visited addresses grows with them. -/
theorem cut_insert_iff {P : Address → Word → Prop} (hw : img.word? s.address = some s.word) :
    (x ∈ a.visited.insert s.address ∧ ∃ w, img.word? x = some w ∧ P x w) ↔
      s.address = x ∧ P s.address s.word ∨
        x ∈ a.visited ∧ ∃ w, img.word? x = some w ∧ P x w := by
  rw [AddressSet.mem_insert_iff, or_and_right]
  refine or_congr_left ⟨?_, ?_⟩
  · rintro ⟨rfl, w, hword, hP⟩
    -- an address has one word
    rw [hw] at hword
    rw [Option.some.inj hword]
    exact ⟨rfl, hP⟩
  · rintro ⟨rfl, hP⟩
    exact ⟨rfl, s.word, hw, hP⟩

/-- **An instruction that was discovered may be added.** -/
theorem Traces.addSite (h : a.Traces img entries) (hw : img.word? s.address = some s.word)
    (hd : s.word.decode?.isSome = true) (hlt : s.address.toNat < Machine.memorySize)
    (hfound : Discovered entries a.edges s.address) : (a.addSite img s).Traces img entries where
  word x hx := by
    rcases mem_visited_addSite.mp hx with rfl | hx
    · exact ⟨s.word, hw, hd⟩
    · exact h.word x hx
  inside x hx := by
    rcases mem_visited_addSite.mp hx with rfl | hx
    · exact hlt
    · exact h.inside x hx
  edges_iff e := by
    have hsource : e ∈ s.edges img ↔ s.address = e.source ∧ e ∈ s.edges img :=
      ⟨fun he => ⟨(Site.source_of_mem_edges he).symm, he⟩, And.right⟩
    rw [edges_addSite, List.mem_append, h.edges_iff, hsource, visited_addSite, or_comm]
    exact (cut_insert_iff (P := fun x w => e ∈ Site.edges img ⟨x, w⟩) hw).symm
  terminators_iff x := by
    rw [mem_terminators_addSite, h.terminators_iff, visited_addSite]
    exact (cut_insert_iff (P := fun x w => (w.flow x).isTerminator = true) hw).symm
  returns_iff x := by
    rw [mem_returns_addSite, h.returns_iff, visited_addSite]
    exact (cut_insert_iff (P := fun x w => w.flow x = .ret) hw).symm
  indirect_iff x := by
    rw [mem_indirect_addSite, h.indirect_iff, visited_addSite]
    exact (cut_insert_iff (P := fun x w => w.flow x = .indirect) hw).symm
  callTargets_iff x := by
    rw [mem_callTargets_addSite, h.callTargets_iff, ← Site.exists_call_iff img, or_comm]
    simp only [edges_addSite, List.mem_append, or_and_right, exists_or]
  data x hx := by
    rw [data_addSite] at hx
    exact h.data x hx
  discovered x hx := by
    rw [mem_visited_addSite, data_addSite] at hx
    rw [edges_addSite]
    rcases hx with (rfl | hx) | hx
    · exact hfound.append _
    · exact (h.discovered x (Or.inl hx)).append _
    · exact (h.discovered x (Or.inr hx)).append _

/-- **So may a word that does not decode.** -/
theorem Traces.addData (h : a.Traces img entries) (hw : img.word? x = some word)
    (hd : word.decode? = none) (hfound : Discovered entries a.edges x) :
    (a.addData x).Traces img entries where
  word := h.word
  inside := h.inside
  edges_iff := h.edges_iff
  terminators_iff := h.terminators_iff
  returns_iff := h.returns_iff
  indirect_iff := h.indirect_iff
  callTargets_iff := h.callTargets_iff
  data y hy := by
    rcases mem_data_addData.mp hy with rfl | hy
    · exact ⟨word, hw, hd⟩
    · exact h.data y hy
  discovered y hy := by
    rw [mem_data_addData] at hy
    rcases hy with hy | rfl | hy
    · exact h.discovered y (Or.inl hy)
    · exact hfound
    · exact h.discovered y (Or.inr hy)

/-- What the analysis of a walk says is still so after a step. -/
theorem Traces.step {s t : Walk.State} (h : (ofWalk img s.walk).Traces img entries)
    (hqueue : ∀ x ∈ s.queue, Discovered entries (s.walk.edges img) x) (hs : Walk.State.Step img s t) :
    (ofWalk img t.walk).Traces img entries := by
  cases hs with
  | again | pass => exact h
  | data _ hw hd =>
    rw [ofWalk_addData]
    exact h.addData hw hd (hqueue _ List.mem_cons_self)
  | site _ hw hd hlt =>
    rw [ofWalk_addSite]
    exact h.addSite hw hd hlt (hqueue _ List.mem_cons_self)

/-- **Whatever steps a walk takes, its analysis says of the image what holds.** -/
theorem traces_ofWalk {s : Walk.State} {budget : Nat}
    (h : Walk.State.Steps img ⟨entries, .start, budget⟩ s) : (ofWalk img s.walk).Traces img entries := by
  induction h with
  | refl =>
    show (ofWalk img .start).Traces img entries
    rw [ofWalk_start]
    exact traces_empty
  | tail hsteps hstep ih =>
    exact ih.step ((Walk.State.inv_start img entries budget).steps hsteps).discovered hstep

end Growth

/-! ### The end of a walk -/

/-- The visited addresses are those of the sites, each once. -/
theorem perm_visited_ofWalk (hw : w.Sound img) :
    (w.sites.reverse.map Site.address).Perm (ofWalk img w).visited.toList := by
  have hnodup : (w.sites.reverse.map Site.address).Nodup := by
    rw [List.map_reverse]
    exact (List.reverse_perm _).nodup_iff.mpr hw.nodup
  refine (List.perm_ext_iff_of_nodup hnodup (AddressSet.nodup_toList _)).mpr fun x => ?_
  simp

/-- A walk that has nothing left to do has followed up every entry and every target. -/
theorem exhausts_ofWalk {s : Walk.State} {budget : Nat} (hs : s.Inv img entries budget)
    (hempty : s.queue = []) : (ofWalk img s.walk).Exhausts img entries := by
  intro x hx
  rw [mem_visited_ofWalk, mem_data_ofWalk]
  rcases hs.accounted x hx with hq | hh | hn
  · rw [hempty] at hq
    cases hq
  · rcases (hs.sound.handled_iff x).mp hh with hsite | hdata
    · exact Or.inl (List.mem_map.mp hsite)
    · exact Or.inr (Or.inl hdata)
  · exact Or.inr (Or.inr hn)

section Traces

variable (h : a.Traces img entries) {word : Word}
include h

theorem Traces.decodes (hx : x ∈ a.visited) (hw : img.word? x = some word) :
    word.decode?.isSome = true := by
  obtain ⟨word', hw', hd⟩ := h.word x hx
  rw [hw] at hw'
  rw [Option.some.inj hw']
  exact hd

theorem Traces.not_decodes (hx : x ∈ a.data) (hw : img.word? x = some word) :
    word.decode? = none := by
  obtain ⟨word', hw', hd⟩ := h.data x hx
  rw [hw] at hw'
  rw [Option.some.inj hw']
  exact hd

/-- What a walk from one entry finds was discovered from there, so the entry was found. -/
theorem Traces.entry_found {entry : Address} (hentry : entries = [entry])
    (hx : x ∈ a.visited ∨ x ∈ a.data) : entry ∈ a.visited ∨ entry ∈ a.data := by
  have hd := h.discovered x hx
  induction hd with
  | entry hmem =>
    rw [hentry, List.mem_singleton] at hmem
    rwa [← hmem]
  | edge he _ ih => exact ih (Or.inl ((h.edges_iff _).mp he).1)

end Traces

end Analysis

/-! ## Analyzing an image -/

namespace Image

open Analysis

variable {img : Image} {w : Walk} {entries : List Address} {budget : Nat} {a : Analysis}

theorem analyze_eq_ok_iff :
    img.analyze entries budget = .ok a ↔
      ∃ w, img.walk entries budget = .ok w ∧ a = ofWalk img w := by
  unfold analyze
  cases img.walk entries budget with
  | error f =>
    constructor
    · intro h
      cases h
    · rintro ⟨w, hw, -⟩
      cases hw
  | ok w =>
    constructor
    · intro h
      exact ⟨w, rfl, (Except.ok.inj h).symm⟩
    · rintro ⟨w', hw, rfl⟩
      rw [← Except.ok.inj hw]
      rfl

/-- An analysis tells what the walk has found. -/
theorem exists_analyze_of_walk {sites : List Site} {data : List Address}
    (h : (img.walk entries budget).map (fun w => (w.sites, w.data)) = .ok (sites, data)) :
    ∃ a, img.analyze entries budget = .ok a ∧ (∀ x, x ∈ a.visited ↔ ∃ s ∈ sites, s.address = x) ∧
      (∀ x, x ∈ a.data ↔ x ∈ data) ∧ a.edges = sites.reverse.flatMap (Site.edges img) := by
  cases hw : img.walk entries budget with
  | error f =>
    rw [hw] at h
    cases h
  | ok w =>
    rw [hw] at h
    obtain ⟨rfl, rfl⟩ := Prod.mk.inj (Except.ok.inj h)
    exact ⟨_, analyze_eq_ok_iff.mpr ⟨w, hw, rfl⟩, fun _ => mem_visited_ofWalk,
      fun _ => mem_data_ofWalk, rfl⟩

/-- An analysis comes from the final state to which the steps of a walk lead. -/
theorem exists_steps_of_analyze (h : img.analyze entries budget = .ok a) :
    ∃ s : Walk.State, Walk.State.Steps img ⟨entries, .start, budget⟩ s ∧ s.Final ∧
      a = ofWalk img s.walk := by
  obtain ⟨w, hw, rfl⟩ := analyze_eq_ok_iff.mp h
  obtain ⟨s, hs, rfl, hfinal⟩ := Walk.steps_of_run_eq_ok hw
  rw [List.reverse_nil, List.append_nil] at hs
  exact ⟨s, hs, hfinal, rfl⟩

/-- That state kept the invariant. -/
theorem exists_final_of_analyze (h : img.analyze entries budget = .ok a) :
    ∃ s : Walk.State, s.Inv img entries budget ∧ s.Final ∧ a = ofWalk img s.walk := by
  obtain ⟨s, hs, hfinal, rfl⟩ := exists_steps_of_analyze h
  exact ⟨s, (Walk.State.inv_start img entries budget).steps hs, hfinal, rfl⟩

/-- **An analysis tells of the image what holds.** -/
theorem traces_of_analyze (h : img.analyze entries budget = .ok a) : a.Traces img entries := by
  obtain ⟨s, hs, -, rfl⟩ := exists_steps_of_analyze h
  exact traces_ofWalk hs

/-- **A walk from an instruction visits it**, however small the budget. -/
theorem entry_mem_visited {entry : Address} {word : Word} (hw : img.word? entry = some word)
    (hd : word.decode?.isSome = true) (hb : 0 < budget) (h : img.analyze [entry] budget = .ok a) :
    entry ∈ a.visited := by
  have htraces := traces_of_analyze h
  have hnot : entry ∉ a.data := by
    intro hmem
    rw [htraces.not_decodes hmem hw] at hd
    cases hd
  suffices hfound : ∃ x, x ∈ a.visited ∨ x ∈ a.data by
    obtain ⟨x, hx⟩ := hfound
    exact (htraces.entry_found rfl hx).resolve_right hnot
  obtain ⟨s, hinv, hfinal, rfl⟩ := exists_final_of_analyze h
  rcases hfinal with hempty | hzero
  · -- the entry was waiting at first, and nothing waits now
    rcases exhausts_ofWalk hinv hempty entry (Or.inl List.mem_cons_self) with hv | hdata | hn
    · exact ⟨entry, Or.inl hv⟩
    · exact ⟨entry, Or.inr hdata⟩
    · rw [hn] at hw
      cases hw
  · -- what was spent was spent on sites
    have hspent := hinv.spent
    obtain ⟨t, ht⟩ := List.exists_mem_of_length_pos (l := s.walk.sites) (by omega)
    exact ⟨t.address, Or.inl (mem_visited_ofWalk.mpr ⟨t, ht, rfl⟩)⟩

section Program

variable {program : Bytes} {base : Address} (himg : ofProgram program base = .ok img)
include himg

/-- **The walk over a loaded program never faults.** -/
theorem exists_analyze (entries : List Address) (budget : Nat) :
    ∃ a, img.analyze entries budget = .ok a := by
  cases hw : img.walk entries budget with
  | ok w => exact ⟨_, analyze_eq_ok_iff.mpr ⟨w, hw, rfl⟩⟩
  | error f =>
    obtain ⟨x⟩ := f
    obtain ⟨s, -, q, n, word, -, -, -, hword, -, hout⟩ := Walk.steps_of_run_eq_error hw
    have hin := toNat_lt_of_maps himg (maps_of_word? hword)
    omega

theorem length_sites_le (hw : w.Sound img) : w.sites.length ≤ program.size - 1 := by
  have hlen := length_le_of_words himg hw.nodup fun x hx => by
    obtain ⟨s, hs, rfl⟩ := List.mem_map.mp hx
    exact ⟨s.word, hw.word s hs⟩
  rw [List.length_map] at hlen
  exact hlen

/-- **A budget as large as the program does not run out.** -/
theorem exhausts_of_analyze (hb : program.size ≤ budget)
    (h : img.analyze entries budget = .ok a) : a.Exhausts img entries := by
  obtain ⟨s, hinv, hfinal, rfl⟩ := exists_final_of_analyze h
  rcases hfinal with hempty | hzero
  · exact exhausts_ofWalk hinv hempty
  · -- there are as many sites as bytes, so there are no bytes
    have hspent := hinv.spent
    have hlen := length_sites_le himg hinv.sound
    intro x _
    have hnone : ¬ ∃ word, img.word? x = some word := by
      rw [exists_word?_iff himg]
      omega
    exact Or.inr (Or.inr (Option.eq_none_iff_forall_ne_some.mpr (not_exists.mp hnone)))

end Program

end Image

end Chip8
