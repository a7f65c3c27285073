import Chip8.Proofs.Analysis

/-!
# What a budget buys

A step of a walk looks at the budget only to see that some is left. So with more budget the same steps are
taken, and then some more (`Walk.State.Steps.grant`, `Walk.State.Steps.to_final`), and as steps only add to what
was found, a smaller budget finds the beginning of what a larger one finds (`Analysis.Begins`). What it spends
it spends on instructions, each once, so it finds as many of them as it allows, or all there are.
-/

namespace Chip8

namespace Walk

variable {img : Image} {entries : List Address} {s t u : State} {k total : Nat}

/-! ## Steps -/

namespace State

/-- The same state with `k` more budget left. -/
def grant (s : State) (k : Nat) : State := { s with budget := s.budget + k }

/-- A step does not depend on how much budget is left. -/
theorem Step.grant (h : Step img s t) (k : Nat) : Step img (s.grant k) (t.grant k) := by
  have hbudget : ∀ (q : List Address) (w : Walk) (n : Nat),
      State.grant ⟨q, w, n + 1⟩ k = ⟨q, w, n + k + 1⟩ := by
    intro q w n
    simp only [State.grant, Nat.add_right_comm]
  cases h with
  | again h =>
    rw [hbudget, hbudget]
    exact .again h
  | pass h hw =>
    rw [hbudget, hbudget]
    exact .pass h hw
  | data h hw hd =>
    rw [hbudget, hbudget]
    exact .data h hw hd
  | site h hw hd hlt =>
    rw [hbudget]
    exact .site h hw hd hlt

/-- **With more budget the same steps are taken.** -/
theorem Steps.grant (h : Steps img s t) (k : Nat) : Steps img (s.grant k) (t.grant k) := by
  induction h with
  | refl => exact .refl
  | tail _ hstep ih => exact ih.tail (hstep.grant k)

/-- There is one step at most. -/
theorem Step.deterministic (h : Step img s t) (h' : Step img s u) : t = u := by
  cases h with
  | again h =>
    cases h' with
    | again => rfl
    | pass h' | data h' | site h' => exact absurd h h'
  | pass h hw =>
    cases h' with
    | again h' => exact absurd h' h
    | pass => rfl
    | data _ hw' | site _ hw' =>
      rw [hw] at hw'
      cases hw'
  | data h hw hd =>
    cases h' with
    | again h' => exact absurd h' h
    | pass _ hw' =>
      rw [hw] at hw'
      cases hw'
    | data => rfl
    | site _ hw' hd' =>
      rw [hw] at hw'
      rw [← Option.some.inj hw', hd] at hd'
      cases hd'
  | site h hw hd =>
    cases h' with
    | again h' => exact absurd h' h
    | pass _ hw' =>
      rw [hw] at hw'
      cases hw'
    | data _ hw' hd' =>
      rw [hw] at hw'
      rw [Option.some.inj hw', hd'] at hd
      cases hd
    | site _ hw' =>
      rw [hw] at hw'
      rw [Option.some.inj hw']

theorem Final.not_step (h : s.Final) : ¬ Step img s t := by
  rintro (_ | _ | _ | _) <;> rcases h with h | h <;> cases h

theorem Final.eq_of_steps (h : s.Final) (hs : Steps img s t) : s = t := by
  rcases hs.cases_head with rfl | ⟨v, hstep, -⟩
  · rfl
  · exact absurd hstep h.not_step

/-- All steps from a state lead to its final state. -/
theorem Steps.to_final (h : Steps img s t) (h' : Steps img s u) (hu : u.Final) : Steps img t u := by
  have hunique : Relator.RightUnique (Step img) := fun _ _ _ => Step.deterministic
  rcases Relation.ReflTransGen.total_of_right_unique hunique h h' with htu | hut
  · exact htu
  · rw [hu.eq_of_steps hut]

end State

/-! ## What was found -/

/-- What a walk has found begins with what `w` has found. -/
structure Continues (w w' : Walk) : Prop where
  sites : w.sites <:+ w'.sites
  data : w.data <:+ w'.data

open State

theorem Continues.of_step (h : Step img s t) : s.walk.Continues t.walk := by
  cases h with
  | again | pass => exact ⟨List.suffix_rfl, List.suffix_rfl⟩
  | data => exact ⟨List.suffix_rfl, List.suffix_cons _ _⟩
  | site => exact ⟨List.suffix_cons _ _, List.suffix_rfl⟩

/-- **Nothing is lost on the way.** -/
theorem Continues.of_steps (h : Steps img s t) : s.walk.Continues t.walk := by
  induction h with
  | refl => exact ⟨List.suffix_rfl, List.suffix_rfl⟩
  | tail _ hstep ih =>
    have hnext := Continues.of_step hstep
    exact ⟨ih.sites.trans hnext.sites, ih.data.trans hnext.data⟩

/-- The latest site stands first, so the edges of the earlier ones are the first of all. -/
theorem Continues.edges {w w' : Walk} (h : w.Continues w') : w.edges img <+: w'.edges img := by
  obtain ⟨sites, hsites⟩ := h.sites
  refine ⟨sites.reverse.flatMap (Site.edges img), ?_⟩
  rw [Walk.edges, Walk.edges, ← List.flatMap_append, ← List.reverse_append, hsites]

/-- **The budget is spent on sites, as long as there are any.** -/
theorem length_sites_eq_min (hs : s.Inv img entries total) (hfinal : s.Final)
    (h : Steps img (s.grant k) t) :
    s.walk.sites.length = min total t.walk.sites.length := by
  have hspent := hs.spent
  rcases hfinal with hempty | hzero
  · -- nothing is left to do, so more budget makes no difference
    have hend : (s.grant k).Final := Or.inl hempty
    have hsame : t.walk = s.walk := by
      rw [← hend.eq_of_steps h]
      rfl
    rw [hsame]
    omega
  · have hle : s.walk.sites.length ≤ t.walk.sites.length := (Continues.of_steps h).sites.length_le
    omega

end Walk

/-! ## Analyses -/

namespace Analysis

variable {img : Image} {w w' : Walk} {entries : List Address} {a b : Analysis}

/-- Whatever `a` tells, `b` tells as well, and its edges first. -/
structure Begins (a b : Analysis) : Prop where
  edges : a.edges <+: b.edges
  visited : ∀ x ∈ a.visited, x ∈ b.visited
  data : ∀ x ∈ a.data, x ∈ b.data
  terminators : ∀ x ∈ a.terminators, x ∈ b.terminators
  returns : ∀ x ∈ a.returns, x ∈ b.returns
  indirect : ∀ x ∈ a.indirect, x ∈ b.indirect
  callTargets : ∀ x ∈ a.callTargets, x ∈ b.callTargets

/-- What visited addresses have in common with their words grows with the visited addresses. -/
theorem Traces.begins (ha : a.Traces img entries) (hb : b.Traces img entries)
    (hedges : a.edges <+: b.edges) (hvisited : ∀ x ∈ a.visited, x ∈ b.visited)
    (hdata : ∀ x ∈ a.data, x ∈ b.data) : a.Begins b where
  edges := hedges
  visited := hvisited
  data := hdata
  terminators x hx := (hb.terminators_iff x).mpr (((ha.terminators_iff x).mp hx).imp_left (hvisited x))
  returns x hx := (hb.returns_iff x).mpr (((ha.returns_iff x).mp hx).imp_left (hvisited x))
  indirect x hx := (hb.indirect_iff x).mpr (((ha.indirect_iff x).mp hx).imp_left (hvisited x))
  callTargets x hx := by
    obtain ⟨e, he, hcall⟩ := (ha.callTargets_iff x).mp hx
    exact (hb.callTargets_iff x).mpr ⟨e, hedges.subset he, hcall⟩

theorem size_visited_ofWalk (hw : w.Sound img) : (ofWalk img w).visited.size = w.sites.length := by
  rw [← Std.ExtTreeSet.length_toList, ← (perm_visited_ofWalk hw).length_eq, List.length_map,
    List.length_reverse]

end Analysis

namespace Image

open Analysis

variable {img : Image} {entries : List Address} {budget larger : Nat} {a b : Analysis}

/-- **A smaller budget finds the beginning**, and as many instructions as it allows, or all. -/
theorem begins_of_analyze (hle : budget ≤ larger) (ha : img.analyze entries budget = .ok a)
    (hb : img.analyze entries larger = .ok b) :
    a.Begins b ∧ a.visited.size = min budget b.visited.size := by
  obtain ⟨k, rfl⟩ := Nat.exists_eq_add_of_le hle
  have htracesA := traces_of_analyze ha
  have htracesB := traces_of_analyze hb
  obtain ⟨s, hs, hsfinal, rfl⟩ := exists_steps_of_analyze ha
  obtain ⟨t, ht, htfinal, rfl⟩ := exists_steps_of_analyze hb
  have hsinv := (Walk.State.inv_start img entries budget).steps hs
  have htinv := (Walk.State.inv_start img entries (budget + k)).steps ht
  have hmore : Walk.State.Steps img (s.grant k) t := (hs.grant k).to_final ht htfinal
  have hcontinues : s.walk.Continues t.walk := Walk.Continues.of_steps (s := s.grant k) hmore
  constructor
  · refine htracesA.begins htracesB hcontinues.edges ?_ ?_
    · intro x hx
      obtain ⟨site, hsite, rfl⟩ := mem_visited_ofWalk.mp hx
      exact mem_visited_ofWalk.mpr ⟨site, hcontinues.sites.subset hsite, rfl⟩
    · intro x hx
      exact mem_data_ofWalk.mpr (hcontinues.data.subset (mem_data_ofWalk.mp hx))
  · rw [size_visited_ofWalk hsinv.sound, size_visited_ofWalk htinv.sound]
    exact Walk.length_sites_eq_min hsinv hsfinal hmore

/--
**The budget cuts the walk, and nothing else.**

With a smaller budget the analysis tells the beginning of what it tells with a larger one: its edges are the
first of the others, and its sets are subsets. It visits as many instructions as the budget allows, or all that
a budget of the size of the program finds, if they are fewer. So the budget is never exceeded, and nothing of it
is spent on words that do not decode, on addresses that come up again or on a last byte.
-/
theorem analyze_budget {program : Bytes} {base : Address} {img : Image}
    (himg : ofProgram program base = .ok img) (entries : List Address) {budget larger : Nat}
    (hle : budget ≤ larger) :
    ∃ a b full, img.analyze entries budget = .ok a ∧ img.analyze entries larger = .ok b ∧
      img.analyze entries program.size = .ok full ∧ a.Begins b ∧
        a.visited.size = min budget full.visited.size := by
  obtain ⟨a, ha⟩ := exists_analyze himg entries budget
  obtain ⟨b, hb⟩ := exists_analyze himg entries larger
  obtain ⟨full, hfull⟩ := exists_analyze himg entries program.size
  refine ⟨a, b, full, ha, hb, hfull, (begins_of_analyze hle ha hb).1, ?_⟩
  rcases Nat.le_total budget program.size with hsmall | hlarge
  · exact (begins_of_analyze hsmall ha hfull).2
  · -- there are fewer instructions than bytes, so a budget of that size already finds them all
    have hsize := (begins_of_analyze hlarge hfull ha).2
    obtain ⟨s, hinv, -, rfl⟩ := exists_final_of_analyze ha
    have hlen := length_sites_le himg hinv.sound
    rw [size_visited_ofWalk hinv.sound] at hsize ⊢
    omega

/-- A call, then a word that does not decode, and a budget for the call only. -/
theorem analyze_budget_call :
    ∃ img, ofProgram #[0x22, 0x04, 0xFF, 0xFF, 0x00, 0xEE, 0x12] 0x200 = .ok img ∧ 1 ≤ 4096 ∧
      ∃ a b full, img.analyze [0x200, 0x206, 0x200] 1 = .ok a ∧
        img.analyze [0x200, 0x206, 0x200] 4096 = .ok b ∧
        img.analyze [0x200, 0x206, 0x200] 7 = .ok full ∧ a.Begins b ∧
          a.visited.size = min 1 full.visited.size := by
  have himg : ofProgram #[0x22, 0x04, 0xFF, 0xFF, 0x00, 0xEE, 0x12] 0x200 = .ok _ := rfl
  have hle : 1 ≤ 4096 := by decide
  exact ⟨_, himg, hle, analyze_budget himg [0x200, 0x206, 0x200] hle⟩

end Image

end Chip8
