import Chip8.Proofs.Basic
import Chip8.Proofs.Image.Segments
import Chip8.Proofs.Walk.Invariant

/-!
# The loop of a walk

Not every target has to wait in the queue: one that is not mapped, or at which an instruction was found
before, would only be passed over. `Walk.Turn` is one turn of the loop that leaves such targets out. It knows
no budget, and ends all the same: each turn leaves less room for new addresses, or as much room and a shorter
queue (`Turn.load_lt`).

A budget cuts the loop short. Until then its queue is that of the walk, thinned out (`Thins`), and so it finds
what the walk finds (`exists_turnsWithin_of_steps`).
-/

namespace Chip8

namespace Walk

variable {img : Image} {w w' : Walk} {a : Address} {q q' r r' entries : List Address} {total : Nat}

/-! ## Turns -/

/-- The targets of a site that are worth a look: they are mapped, and no instruction was found there. -/
def fresh (img : Image) (w : Walk) (s : Site) : List Address :=
  ((s.edges img).map Edge.target).filter fun t =>
    img.maps t && decide (t ∉ w.sites.map Site.address)

/-- One turn of the loop takes the address at the front of the queue. -/
inductive Turn (img : Image) : List Address × Walk → List Address × Walk → Prop where
  /-- It was handled before. -/
  | again {a : Address} {q : List Address} {w : Walk} (h : a ∈ w.handled) :
      Turn img (a :: q, w) (q, w)
  /-- No word starts there. -/
  | pass {a : Address} {q : List Address} {w : Walk} (h : a ∉ w.handled)
      (hw : img.word? a = none) : Turn img (a :: q, w) (q, w)
  /-- Its word does not decode. -/
  | data {a : Address} {q : List Address} {w : Walk} {word : Word} (h : a ∉ w.handled)
      (hw : img.word? a = some word) (hd : word.decode? = none) :
      Turn img (a :: q, w) (q, w.addData a)
  /-- Its word decodes. -/
  | site {a : Address} {q : List Address} {w : Walk} {word : Word} (h : a ∉ w.handled)
      (hw : img.word? a = some word) (hd : word.decode?.isSome = true)
      (hlt : a.toNat < Machine.memorySize) :
      Turn img (a :: q, w)
        (q ++ (w.addSite ⟨a, word⟩).fresh img ⟨a, word⟩, w.addSite ⟨a, word⟩)

/-- Turns before each of which fewer instructions were found than the budget allows. -/
abbrev TurnsWithin (img : Image) (budget : Nat) :
    List Address × Walk → List Address × Walk → Prop :=
  Relation.ReflTransGen fun s t => s.2.sites.length < budget ∧ Turn img s t

/-- What is left to do: the addresses that may still be handled, and then those in the queue. -/
def load (s : List Address × Walk) : Nat × Nat := (s.2.handled.room, s.1.length)

/-- **Each turn leaves less to do**, whatever the budget. -/
theorem Turn.load_lt {s t : List Address × Walk} (h : Turn img s t) :
    Prod.Lex (· < ·) (· < ·) (load t) (load s) := by
  cases h with
  | again | pass => exact .right _ (Nat.lt_succ_self _)
  | data h | site h => exact .left _ _ (AddressSet.room_insert_lt h)

/-- There is one turn at most. -/
theorem Turn.deterministic {s t u : List Address × Walk} (h : Turn img s t) (h' : Turn img s u) :
    t = u := by
  cases h <;> cases h' <;> simp_all

/-- **The loop of a walk ends**, on any image. -/
theorem wellFounded_turn (img : Image) : WellFounded (flip (Turn img)) :=
  wellFounded_of_lex load fun _ _ => Turn.load_lt

/-! ## Queues that are thinned out -/

/-- When the address comes up, there is nothing to do. -/
def Idle (img : Image) (w : Walk) (a : Address) : Prop := a ∈ w.handled ∨ img.word? a = none

/-- The first queue is the second one without some addresses at which there is nothing to do. -/
inductive Thins (img : Image) (w : Walk) : List Address → List Address → Prop where
  | nil : Thins img w [] []
  | keep {a : Address} {q' q : List Address} (h : Thins img w q' q) :
      Thins img w (a :: q') (a :: q)
  | drop {a : Address} {q' q : List Address} (ha : Idle img w a) (h : Thins img w q' q) :
      Thins img w q' (a :: q)

namespace Thins

/-- What was handled stays handled. -/
theorem mono (h : Thins img w q' q) (hsub : ∀ a ∈ w.handled, a ∈ w'.handled) :
    Thins img w' q' q := by
  induction h with
  | nil => exact .nil
  | keep _ ih => exact .keep ih
  | drop ha _ ih => exact .drop (ha.imp_left (hsub _)) ih

theorem append (h : Thins img w q' q) (hr : Thins img w r' r) :
    Thins img w (q' ++ r') (q ++ r) := by
  induction h with
  | nil => exact hr
  | keep _ ih => exact .keep ih
  | drop ha _ ih => exact .drop ha ih

theorem filter {p : Address → Bool} (h : ∀ a, p a = false → Idle img w a) (q : List Address) :
    Thins img w (q.filter p) q := by
  induction q with
  | nil => exact .nil
  | cons a q ih =>
    cases hp : p a with
    | true =>
      rw [List.filter_cons_of_pos hp]
      exact .keep ih
    | false =>
      rw [List.filter_cons_of_neg (by simp [hp])]
      exact .drop (h a hp) ih

end Thins

theorem not_idle {word : Word} (h : a ∉ w.handled) (hw : img.word? a = some word) :
    ¬ Idle img w a := by
  rintro (ha | hn)
  · exact h ha
  · rw [hw] at hn
    cases hn

theorem idle_of_not_maps (h : img.maps a = false) : Idle img w a := by
  refine Or.inr (Option.eq_none_iff_forall_ne_some.mpr fun word hw => ?_)
  rw [Image.maps_of_word? hw] at h
  cases h

/-- Targets that are left out are mapped nowhere or handled already. -/
theorem thins_fresh (hw : w.Sound img) (s : Site) :
    Thins img w (w.fresh img s) ((s.edges img).map Edge.target) := by
  refine Thins.filter (fun t ht => ?_) _
  rcases Bool.and_eq_false_iff.mp ht with hm | hs
  · exact idle_of_not_maps hm
  · rw [decide_eq_false_iff_not, Decidable.not_not] at hs
    exact Or.inl ((hw.handled_iff t).mpr (Or.inl hs))

/-! ## The loop and the walk -/

open State

theorem State.Step.budget_pos {s t : State} (h : Step img s t) : 0 < s.budget := by
  cases h <;> exact Nat.succ_pos _

/-- Where the walk takes a step, the loop takes the same turn, or none if it never queued the address. -/
theorem exists_turnsWithin_of_step {s t : State} (hs : s.Inv img entries total)
    (h : Step img s t) (hq : Thins img s.walk q s.queue) :
    ∃ q', TurnsWithin img total (q, s.walk) (q', t.walk) ∧ Thins img t.walk q' t.queue := by
  have ht : t.Inv img entries total := hs.step h
  have hleft : s.walk.sites.length < total := by
    have hspent := hs.spent
    have hpos := h.budget_pos
    omega
  cases h with
  | again hmem =>
    cases hq with
    | keep hq => exact ⟨_, .single ⟨hleft, .again hmem⟩, hq⟩
    | drop _ hq => exact ⟨_, .refl, hq⟩
  | pass hmem hw =>
    cases hq with
    | keep hq => exact ⟨_, .single ⟨hleft, .pass hmem hw⟩, hq⟩
    | drop _ hq => exact ⟨_, .refl, hq⟩
  | data hmem hw hd =>
    cases hq with
    | keep hq =>
      refine ⟨_, .single ⟨hleft, .data hmem hw hd⟩, hq.mono ?_⟩
      intro b hb
      exact AddressSet.mem_insert_iff.mpr (Or.inr hb)
    | drop ha _ => exact absurd ha (not_idle hmem hw)
  | site hmem hw hd hlt =>
    cases hq with
    | keep hq =>
      refine ⟨_, .single ⟨hleft, .site hmem hw hd hlt⟩, ?_⟩
      refine Thins.append (hq.mono ?_) (thins_fresh ht.sound _)
      intro b hb
      exact AddressSet.mem_insert_iff.mpr (Or.inr hb)
    | drop ha _ => exact absurd ha (not_idle hmem hw)

/-- **The loop finds what the walk finds**, and ends with an empty queue or without budget. -/
theorem exists_turnsWithin_of_steps {s : State}
    (h : Steps img ⟨entries, .start, total⟩ s) (hfinal : s.Final) :
    ∃ q, TurnsWithin img total (entries.filter img.maps, .start) (q, s.walk) ∧
      (q = [] ∨ s.walk.sites.length = total) := by
  have hrun : ∃ q, TurnsWithin img total (entries.filter img.maps, .start) (q, s.walk) ∧
      Thins img s.walk q s.queue := by
    clear hfinal
    induction h with
    | refl => exact ⟨_, .refl, Thins.filter (fun a ha => idle_of_not_maps ha) entries⟩
    | tail hsteps hstep ih =>
      obtain ⟨q, hturns, hthins⟩ := ih
      obtain ⟨q', hturn, hthins'⟩ :=
        exists_turnsWithin_of_step ((inv_start img entries total).steps hsteps) hstep hthins
      exact ⟨q', hturns.trans hturn, hthins'⟩
  obtain ⟨q, hturns, hthins⟩ := hrun
  refine ⟨q, hturns, ?_⟩
  rcases hfinal with hempty | hzero
  · rw [hempty] at hthins
    cases hthins
    exact Or.inl rfl
  · have hspent := ((inv_start img entries total).steps h).spent
    exact Or.inr (by omega)

end Walk

end Chip8
