import Chip8.Proofs.Reachability

/-!
# Code outside the memory

There are more addresses than the memory has, and a walk that comes to an instruction beyond the memory has a
fault. A loaded program lies in the memory, so its walk has none. An image that was put together by hand may
reach beyond it, and then the walk has a fault exactly if code does so (`Image.analyze_confined`). The budget
does not hide a fault, if it is larger than the memory: all instructions that count against it lie inside.
-/

namespace Chip8

/-- An instruction outside the memory to which control can come from the entries. -/
structure Image.LeavesAt (img : Image) (entries : List Address) (x : Address) : Prop where
  reachable : img.Reachable entries x
  decodes : ∃ w, img.word? x = some w ∧ w.decode?.isSome = true
  outside : Machine.memorySize ≤ x.toNat

namespace Walk

open Analysis

variable {img : Image} {entries : List Address} {budget : Nat} {w : Walk} {s : State} {x : Address}

/-- There are no more sites than the memory has addresses. -/
theorem Sound.length_sites_le (hw : w.Sound img) : w.sites.length ≤ Machine.memorySize := by
  have hnodup : ((w.sites.map Site.address).map UInt16.toNat).Nodup :=
    List.Pairwise.map UInt16.toNat (fun _ _ hne h => hne (UInt16.toNat_inj.mp h)) hw.nodup
  have hsub : (w.sites.map Site.address).map UInt16.toNat ⊆ List.range Machine.memorySize := by
    intro n hn
    obtain ⟨a, ha, rfl⟩ := List.mem_map.mp hn
    obtain ⟨site, hsite, rfl⟩ := List.mem_map.mp ha
    exact List.mem_range.mpr (hw.inside site hsite)
  have hlen := hnodup.length_le_of_subset hsub
  rwa [List.length_map, List.length_map, List.length_range] at hlen

/-- **A walk that has a fault came there from the entries.** -/
theorem State.Steps.leavesAt (hs : State.Steps img ⟨entries, .start, budget⟩ s)
    (hfault : s.FaultsAt img x) : img.LeavesAt entries x := by
  obtain ⟨q, n, word, hqueue, -, -, hword, hdecodes, hout⟩ := hfault
  have hdiscovered : Discovered entries (s.walk.edges img) x := by
    refine ((State.inv_start img entries budget).steps hs).discovered x ?_
    rw [hqueue]
    exact List.mem_cons_self
  exact ⟨(traces_ofWalk hs).reachable_of_discovered hdiscovered (Image.maps_of_word? hword),
    ⟨word, hword, hdecodes⟩, hout⟩

end Walk

namespace Image

open Analysis

variable {img : Image} {entries : List Address} {budget : Nat} {a : Analysis} {x : Address}

/-- The address of a fault is one at which control leaves the memory. -/
theorem leavesAt_of_analyze_eq_error (h : img.analyze entries budget = .error (.outsideMemory x)) :
    img.LeavesAt entries x := by
  have hwalk : img.walk entries budget = .error (.outsideMemory x) := by
    unfold analyze at h
    cases hw : img.walk entries budget with
    | ok w =>
      rw [hw] at h
      cases h
    | error e =>
      rw [hw] at h
      exact congrArg Except.error (Except.error.inj h)
  obtain ⟨s, hs, hfault⟩ := Walk.steps_of_run_eq_error hwalk
  rw [List.reverse_nil, List.append_nil] at hs
  exact Walk.State.Steps.leavesAt hs hfault

/-- A walk with more budget than the memory has addresses follows up all that it finds. -/
theorem exhausts_of_memorySize_lt (hb : Machine.memorySize < budget)
    (h : img.analyze entries budget = .ok a) : a.Exhausts img entries := by
  obtain ⟨s, hinv, hfinal, rfl⟩ := exists_final_of_analyze h
  refine exhausts_ofWalk hinv (hfinal.resolve_right fun hzero => ?_)
  have hspent := hinv.spent
  have hlen := hinv.sound.length_sites_le
  omega

/-- Where control can leave the memory, a walk without a fault would have visited an address outside. -/
theorem not_leavesAt_of_analyze_eq_ok (hb : Machine.memorySize < budget)
    (h : img.analyze entries budget = .ok a) : ¬ img.LeavesAt entries x := by
  rintro ⟨hreachable, hdecodes, hout⟩
  have htraces := traces_of_analyze h
  have hall := exhausts_of_memorySize_lt hb h
  have hinside := htraces.inside x ((htraces.mem_visited_iff hall).mpr ⟨hreachable, hdecodes⟩)
  omega

/--
**A walk stays in the memory as long as the code does.**

The walk over a loaded program ends without a fault, whatever the entries and the budget, and marks addresses of
the memory only. A walk over any image can have a fault only at an instruction outside the memory to which
control can come. If the budget is larger than the memory, it has one exactly if there is such an instruction.
-/
theorem analyze_confined :
    (∀ (program : Bytes) (base : Address) (img : Image), ofProgram program base = .ok img →
      ∀ (entries : List Address) (budget : Nat), ∃ a, img.analyze entries budget = .ok a ∧
        ∀ x ∈ a.visited, x.toNat < Machine.memorySize) ∧
    ∀ (img : Image) (entries : List Address) (budget : Nat),
      (∀ x, img.analyze entries budget = .error (.outsideMemory x) → img.LeavesAt entries x) ∧
        (Machine.memorySize < budget →
          ((∃ e, img.analyze entries budget = .error e) ↔ ∃ x, img.LeavesAt entries x)) := by
  constructor
  · intro program base img himg entries budget
    obtain ⟨a, ha⟩ := exists_analyze himg entries budget
    exact ⟨a, ha, (traces_of_analyze ha).inside⟩
  · intro img entries budget
    refine ⟨fun x h => leavesAt_of_analyze_eq_error h, fun hb => ⟨?_, ?_⟩⟩
    · rintro ⟨⟨x⟩, h⟩
      exact ⟨x, leavesAt_of_analyze_eq_error h⟩
    · rintro ⟨x, hx⟩
      cases ha : img.analyze entries budget with
      | error e => exact ⟨e, rfl⟩
      | ok a => exact absurd hx (not_leavesAt_of_analyze_eq_ok hb ha)

/-- A skip at the end of the memory, alone and with an instruction behind the memory to which it skips. -/
theorem analyze_confined_skip :
    (∃ img, ofProgram #[0x30, 0x00] 0xFFE = .ok img ∧ ∃ a, img.analyze [0xFFE] 4097 = .ok a ∧
      ∀ x ∈ a.visited, x.toNat < Machine.memorySize) ∧
    Machine.memorySize < 4097 ∧
      ∃ e, analyze ⟨[⟨"", 0xFFE, #[0x30, 0x00], .all⟩, ⟨"", 0x1001, #[0xFF, 0x00, 0xE0], .all⟩], 0xFFE⟩
        [0xFFE] 4097 = .error e := by
  have hb : Machine.memorySize < 4097 := by decide
  let img : Image :=
    ⟨[⟨"", 0xFFE, #[0x30, 0x00], .all⟩, ⟨"", 0x1001, #[0xFF, 0x00, 0xE0], .all⟩], 0xFFE⟩
  have hskip : img.word? 0xFFE = some 0x3000 := by decide
  have hclear : img.word? 0x1002 = some 0x00E0 := by decide
  have hentry : img.Reachable [0xFFE] 0xFFE := .entry List.mem_cons_self (by decide)
  have hleaves : img.LeavesAt [0xFFE] 0x1002 :=
    ⟨.successor hentry hskip (by decide) (by decide) (by decide), ⟨_, hclear, by decide⟩, by decide⟩
  exact ⟨⟨_, rfl, analyze_confined.1 #[0x30, 0x00] 0xFFE _ rfl [0xFFE] 4097⟩, hb,
    ((analyze_confined.2 img [0xFFE] 4097).2 hb).mpr ⟨0x1002, hleaves⟩⟩

end Image

end Chip8
