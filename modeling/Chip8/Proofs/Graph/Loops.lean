import Chip8.Proofs.Graph.Blocks
import Chip8.Proofs.Graph.Search
import Chip8.Proofs.Walk.Turn

/-!
# The loops behind a graph

A sweep takes one instruction after the other and stops for a reason of its own: it does not ask whether
addresses wrap (`Analysis.Sweeps`), and need not, as it never leaves the visited addresses. It passes just the
addresses of its block, so the blocks can be found one after the other with a record of what is covered already
(`Analysis.sweepFrom`): no start is ever found to be covered.

A search for a function queues whatever an address leads to, seen or not (`Graph.Visits`), and ends because a
turn at an address that was seen shortens the queue.
-/

namespace Chip8

/-! ## Sweeps -/

namespace Analysis

variable {a : Analysis} {img : Image} {entries seeds : List Address} {starts : AddressSet}
  {b : Block} {x y : Address}

/-- The sweep goes on from `x` to `y`. -/
def Sweeps (a : Analysis) (starts : AddressSet) (x y : Address) : Prop :=
  y = Word.next x ∧ x ∉ a.terminators ∧ y ∈ a.visited ∧ y ∉ starts

/-- **A sweep ends**, for it comes to visited addresses and from there to higher ones. -/
theorem wellFounded_sweeps (hinside : ∀ x ∈ a.visited, x.toNat < Machine.memorySize)
    (starts : AddressSet) : WellFounded (flip (a.Sweeps starts)) := by
  refine wellFounded_of_lex
    (fun x => (if x ∈ a.visited then 0 else 1, Machine.memorySize - x.toNat)) ?_
  rintro x y ⟨rfl, -, hy, -⟩
  rw [if_pos hy]
  by_cases hx : x ∈ a.visited
  · have hlt := hinside x hx
    have hnext := Word.toNat_next hlt
    rw [if_pos hx]
    exact .right _ (by omega)
  · rw [if_neg hx]
    exact .left _ _ Nat.one_pos

/-- Where a block may end the sweep does not go on. -/
theorem not_sweeps
    (hwhy : x ∈ a.terminators ∨ Word.next x ∉ a.visited ∨ Word.next x ∈ starts) :
    ¬ a.Sweeps starts x y := by
  rintro ⟨rfl, hterm, hv, hnew⟩
  rcases hwhy with hterm' | hgap | hstart
  · exact hterm hterm'
  · exact hgap hv
  · exact hnew hstart

section Traces

variable (h : a.Traces img entries)
include h

/-- **The sweep passes the addresses of its block**, and no others. -/
theorem Traces.sweeps_iff (hb : b ∈ a.blocks (a.starts seeds)) :
    Relation.ReflTransGen (a.Sweeps (a.starts seeds)) b.start x ↔ b.contains x = true := by
  have hswept := h.swept hb
  constructor
  · intro hx
    induction hx with
    | refl => exact hswept.contains_start
    | @tail x y _ hstep ih =>
      have hx : x ∈ a.visited := hswept.visited x ih
      rw [hstep.1]
      refine hswept.contains_next ih (h.toNat_next hx) fun hstop => ?_
      have hwhy := h.why_stop hb hx hstop
      rw [← hstop] at hwhy
      exact not_sweeps hwhy hstep
  · intro hx
    refine Block.contains_induction hx .refl ?_
    intro y hy hnext hne hsweeps
    exact hsweeps.tail ⟨rfl, hswept.runsOn y hy (Block.ne_stop_of_contains hnext),
      hswept.visited _ hnext, hswept.inner _ hnext hne⟩

/-- It stops behind the last instruction of the block. -/
theorem Traces.exists_sweep_end (hb : b ∈ a.blocks (a.starts seeds)) :
    ∃ last ∈ b.addresses, Word.next last = b.stop ∧ ∀ y, ¬ a.Sweeps (a.starts seeds) last y := by
  obtain ⟨last, hlast, hstop, hwhy⟩ := (h.swept hb).ends
  rw [← hstop] at hwhy
  exact ⟨last, Block.mem_addresses_iff.mpr hlast, hstop, fun _ => not_sweeps hwhy⟩

end Traces

/-! ## One start after the other -/

/--
The blocks of the starts in a list, found with a record of the addresses that are covered already.

A start that is covered already would be passed over.
-/
def sweepFrom (a : Analysis) (starts : AddressSet) (covered : List Address) :
    List Address → List Block
  | [] => []
  | s :: rest =>
    if s ∈ covered then a.sweepFrom starts covered rest
    else
      let b : Block := ⟨s, a.runEnd starts s⟩
      b :: a.sweepFrom starts (b.addresses ++ covered) rest

/-- **No start is passed over**, if none is covered at first and none of them lies in the block of another. -/
theorem sweepFrom_eq_map {covered todo : List Address} (hnodup : todo.Nodup)
    (hcovered : ∀ s ∈ todo, s ∉ covered)
    (halone : ∀ s ∈ todo, ∀ x ∈ todo, x ∈ Block.addresses ⟨s, a.runEnd starts s⟩ → x = s) :
    a.sweepFrom starts covered todo = todo.map fun s => ⟨s, a.runEnd starts s⟩ := by
  induction todo generalizing covered with
  | nil => rfl
  | cons s todo ih =>
    obtain ⟨hs, hnodup⟩ := List.nodup_cons.mp hnodup
    rw [sweepFrom, if_neg (hcovered s List.mem_cons_self), List.map_cons]
    refine congrArg _ (ih hnodup ?_ ?_)
    · intro x hx hmem
      rcases List.mem_append.mp hmem with hblock | hmem
      · rw [halone s List.mem_cons_self x (List.mem_cons_of_mem s hx) hblock] at hx
        exact hs hx
      · exact hcovered x (List.mem_cons_of_mem s hx) hmem
    · intro t ht x hx
      exact halone t (List.mem_cons_of_mem s ht) x (List.mem_cons_of_mem s hx)

theorem Traces.sweepFrom_eq_blocks (h : a.Traces img entries) (seeds : List Address) :
    a.sweepFrom (a.starts seeds) [] (a.starts seeds).toList = a.blocks (a.starts seeds) := by
  refine sweepFrom_eq_map (AddressSet.nodup_toList _) (fun _ _ => List.not_mem_nil) ?_
  intro s hs x hx hmem
  rw [Std.ExtTreeSet.mem_toList] at hs hx
  exact (h.swept (mem_blocks_iff.mpr ⟨hs, rfl⟩)).eq_start_of_contains
    (Block.mem_addresses_iff.mp hmem) hx

end Analysis

/-! ## Searches -/

namespace Graph

variable {next : Address → List Address} {root : Address} {q q' : List Address}
  {seen : AddressSet} {s : List Address × AddressSet}

/-- Where the edges of a graph lead from an address, calls left out. -/
def leadsTo (g : Graph) (x : Address) : List Address := (targets g.edges).getD x []

/-- One turn of a search takes the address at the front of the queue. -/
inductive Visits (next : Address → List Address) :
    List Address × AddressSet → List Address × AddressSet → Prop where
  /-- It was seen before. -/
  | again {x : Address} {q : List Address} {seen : AddressSet} (h : x ∈ seen) :
      Visits next (x :: q, seen) (q, seen)
  /-- It is seen now, and all that it leads to is queued. -/
  | visit {x : Address} {q : List Address} {seen : AddressSet} (h : x ∉ seen) :
      Visits next (x :: q, seen) (q ++ next x, seen.insert x)

/-- **A search ends**, whatever addresses lead to. -/
theorem wellFounded_visits (next : Address → List Address) : WellFounded (flip (Visits next)) := by
  refine wellFounded_of_lex (fun s => (s.2.room, s.1.length)) fun s t h => ?_
  cases h with
  | again => exact .right _ (Nat.lt_succ_self _)
  | visit h => exact .left _ _ (AddressSet.room_insert_lt h)

/-- The order of the queue does not matter. -/
theorem Search.of_mem_iff (h : Search next root q seen) (hq : ∀ x, x ∈ q ↔ x ∈ q') :
    Search next root q' seen := by
  obtain ⟨hrooted, hfound, hclosed⟩ := h
  simp only [hq] at hrooted hfound hclosed
  exact ⟨hrooted, hfound, hclosed⟩

theorem search_of_visits (h : Relation.ReflTransGen (Visits next) ([root], ∅) s) :
    Search next root s.1 s.2 := by
  induction h with
  | refl => exact Search.start next root
  | tail _ hturn ih =>
    cases hturn with
    | again hmem => exact ih.drop hmem
    | visit => exact ih.push.of_mem_iff fun y => by rw [List.mem_append, List.mem_append, or_comm]

/-- The search goes on as long as an address waits. -/
theorem exists_visit (next : Address → List Address) (x : Address) (q : List Address)
    (seen : AddressSet) : ∃ t, Visits next (x :: q, seen) t := by
  by_cases hx : x ∈ seen
  · exact ⟨_, .again hx⟩
  · exact ⟨_, .visit hx⟩

/-- A search that has nothing left to do has seen all that there is. -/
theorem Search.eq_reach (h : Search next root [] seen) : seen = Graph.reach next [root] ∅ := by
  refine Std.ExtTreeSet.ext_mem fun x => ?_
  rw [h.mem_iff, (Search.start next root).reach.mem_iff]

/-- **A search with a queue sees what a search with a stack sees.** -/
theorem visits_iff :
    Relation.ReflTransGen (Visits next) ([root], ∅) ([], seen) ↔ seen = reach next [root] ∅ := by
  constructor
  · intro hvisits
    exact (search_of_visits hvisits).eq_reach
  · rintro rfl
    obtain ⟨⟨q, seen⟩, hvisits, hlast⟩ := exists_end (wellFounded_visits next) ([root], ∅)
    cases q with
    | nil =>
      rw [← (search_of_visits hvisits).eq_reach]
      exact hvisits
    | cons x q =>
      obtain ⟨t, ht⟩ := exists_visit next x q seen
      exact absurd ht (hlast t)

end Graph

end Chip8
