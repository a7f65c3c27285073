import Chip8.Proofs.Budget
import Chip8.Proofs.Graph.Functions
import Chip8.Proofs.Graph.Loops

/-!
# Every loop ends

The walk over a program and the loops that make a graph of it end by themselves, for any entries, any budget and
any seeds (`Graph.loops_end`). The walk handles only addresses at which a word starts, and these are fewer than
the bytes of the program; at most two edges leave each. Blocks are swept inside the memory.
-/

namespace Chip8

variable {img : Image} {entries : List Address}

/-! ## How much a walk can find -/

/-- At most two edges leave a site. -/
theorem Site.length_edges_le (img : Image) (s : Site) : (s.edges img).length ≤ 2 := by
  have hrunOn : ∀ t, (s.runOn img t).length ≤ 1 := by
    intro t
    unfold runOn
    split <;> simp
  unfold edges
  cases s.flow with
  | next => exact Nat.le_succ_of_le (hrunOn _)
  | call t | skip t passed => exact Nat.succ_le_succ (hrunOn _)
  | jump t | ret | indirect => simp

theorem length_flatMap_edges_le (img : Image) (sites : List Site) :
    (sites.flatMap (Site.edges img)).length ≤ 2 * sites.length := by
  induction sites with
  | nil => simp
  | cons s sites ih =>
    have hs := s.length_edges_le img
    rw [List.flatMap_cons, List.length_append, List.length_cons]
    omega

namespace Image

open Analysis

variable {budget : Nat} {a : Analysis}

/-- **There are at most twice as many edges as instructions.** -/
theorem length_edges_le_of_analyze (h : img.analyze entries budget = .ok a) :
    a.edges.length ≤ 2 * a.visited.size := by
  obtain ⟨s, hinv, -, rfl⟩ := exists_final_of_analyze h
  have hlen := length_flatMap_edges_le img s.walk.sites.reverse
  rw [List.length_reverse] at hlen
  rw [size_visited_ofWalk hinv.sound]
  exact hlen

/--
The loop of the walk ends by itself, and the budget only cuts it short.

Neither the turns of the loop nor what they leave to do depends on the budget. The loop stops on an empty queue,
or in front of an address as soon as it has found all the instructions that the budget allows.
-/
structure WalkEnds (img : Image) (entries : List Address) (budget : Nat) (a : Analysis) :
    Prop where
  deterministic : ∀ s t u, Walk.Turn img s t → Walk.Turn img s u → t = u
  lowers : ∀ s t, Walk.Turn img s t → Prod.Lex (· < ·) (· < ·) (Walk.load t) (Walk.load s)
  ends : WellFounded (flip (Walk.Turn img))
  empties : ∀ s, (∀ t, ¬ Walk.Turn img s t) → s.1 = []
  cut : ∃ q w, Walk.TurnsWithin img budget (entries.filter img.maps, .start) (q, w) ∧
    (q = [] ∨ w.sites.length = budget) ∧ a = .ofWalk img w

/-- The analysis tells what the loop finds within the budget. -/
theorem exists_turnsWithin_of_analyze (h : img.analyze entries budget = .ok a) :
    ∃ q w, Walk.TurnsWithin img budget (entries.filter img.maps, .start) (q, w) ∧
      (q = [] ∨ w.sites.length = budget) ∧ a = .ofWalk img w := by
  obtain ⟨s, hs, hfinal, rfl⟩ := exists_steps_of_analyze h
  obtain ⟨q, hturns, hend⟩ := Walk.exists_turnsWithin_of_steps hs hfinal
  exact ⟨q, s.walk, hturns, hend, rfl⟩

end Image

/-! ## Programs -/

section Program

variable {program : Bytes} {base : Address} (himg : Image.ofProgram program base = .ok img)
  {budget : Nat} {a : Analysis} {seeds : List Address} {b : Block}
include himg

/-- The loop goes on as long as an address waits: nothing of a program lies outside the memory. -/
theorem Walk.exists_turn (a : Address) (q : List Address) (w : Walk) :
    ∃ t, Walk.Turn img (a :: q, w) t := by
  by_cases hmem : a ∈ w.handled
  · exact ⟨_, .again hmem⟩
  · cases hw : img.word? a with
    | none => exact ⟨_, .pass hmem hw⟩
    | some word =>
      cases hd : word.decode? with
      | none => exact ⟨_, .data hmem hw hd⟩
      | some i =>
        have hlt := Image.toNat_lt_of_maps himg (Image.maps_of_word? hw)
        exact ⟨_, .site hmem hw (by rw [hd]; rfl) hlt⟩

theorem Image.walkEnds_of_analyze (h : img.analyze entries budget = .ok a) :
    img.WalkEnds entries budget a where
  deterministic _ _ _ := Walk.Turn.deterministic
  lowers _ _ := Walk.Turn.load_lt
  ends := Walk.wellFounded_turn img
  empties := by
    rintro ⟨q, w⟩ hlast
    cases q with
    | nil => rfl
    | cons x q =>
      obtain ⟨t, ht⟩ := Walk.exists_turn himg x q w
      exact absurd ht (hlast t)
  cut := exists_turnsWithin_of_analyze h

/-- **Instructions and data have different addresses, and a word starts at each.** -/
theorem Analysis.Traces.size_add_size_le (h : a.Traces img entries) :
    a.visited.size + a.data.size ≤ program.size - 1 := by
  have hnodup : (a.visited.toList ++ a.data.toList).Nodup := by
    refine List.nodup_append.mpr ⟨AddressSet.nodup_toList _, AddressSet.nodup_toList _, ?_⟩
    rintro x hx y hy rfl
    rw [Std.ExtTreeSet.mem_toList] at hx hy
    exact h.not_mem_visited_of_data hy hx
  have hlen := Image.length_le_of_words himg hnodup fun x hx => by
    rw [List.mem_append, Std.ExtTreeSet.mem_toList, Std.ExtTreeSet.mem_toList] at hx
    rcases hx with hx | hx
    · exact (h.word x hx).imp fun _ => And.left
    · exact (h.data x hx).imp fun _ => And.left
  rwa [List.length_append, Std.ExtTreeSet.length_toList, Std.ExtTreeSet.length_toList] at hlen

/-- A block ends in the memory, for its last instruction lies in it with both its bytes. -/
theorem Analysis.Traces.toNat_stop_le (h : a.Traces img entries)
    (hb : b ∈ a.blocks (a.starts seeds)) : b.stop.toNat ≤ Machine.memorySize := by
  obtain ⟨last, hlast, hstop, -⟩ := (h.swept hb).ends
  have hv := (h.swept hb).visited last hlast
  obtain ⟨w, hw, -⟩ := h.word last hv
  have hfit := Image.fits_of_ofProgram himg
  have hword := ((Image.exists_word?_iff himg).mp ⟨w, hw⟩).2
  rw [← hstop, h.toNat_next hv]
  omega

end Program

/-! ## The graph of a program -/

namespace Graph

open Analysis

/--
The loops that make the graph end, and come to what the graph says.

The blocks are swept one start after the other, and no start is passed over. A search sees addresses that start
no block, too, and these do not count.
-/
structure LoopsEnd (g : Graph) (a : Analysis) (seeds : List Address) : Prop where
  sweepsEnd : WellFounded (flip (a.Sweeps (a.starts seeds)))
  swept : ∀ b ∈ g.blocks, ∀ x, x ∈ b.addresses ↔
    Relation.ReflTransGen (a.Sweeps (a.starts seeds)) b.start x
  stopped : ∀ b ∈ g.blocks, ∃ last ∈ b.addresses, Word.next last = b.stop ∧
    ∀ y, ¬ a.Sweeps (a.starts seeds) last y
  unwrapped : ∀ b ∈ g.blocks, b.start < b.stop ∧ b.stop.toNat ≤ Machine.memorySize ∧
    ∀ x ∈ b.addresses, (Word.next x).toNat = x.toNat + 2
  once : g.blocks.map Block.start = (a.starts seeds).toList
  alone : ∀ b ∈ g.blocks, ∀ s ∈ a.starts seeds, s ∈ b.addresses → s = b.start
  uncovered : a.sweepFrom (a.starts seeds) [] (a.starts seeds).toList = g.blocks
  searchesEnd : WellFounded (flip (Visits g.leadsTo))
  seen : ∀ f ∈ g.functions, ∃ seen : AddressSet,
    (∀ s, Relation.ReflTransGen (Visits g.leadsTo) ([f.entry], ∅) ([], s) ↔ s = seen) ∧
      f.blocks = seen.toList.filter (· ∈ a.starts seeds)

variable {program : Bytes} {base : Address}

/--
**All loops end**, for any entries, any budget and any seeds.

The walk finds fewer instructions and data words than the program has bytes, and at most two edges for each
instruction.
-/
theorem loops_end (himg : Image.ofProgram program base = .ok img) (entries : List Address)
    (budget : Nat) :
    ∃ a, img.analyze entries budget = .ok a ∧ img.WalkEnds entries budget a ∧
      a.visited.size + a.data.size ≤ max program.size 1 - 1 ∧
      a.edges.length ≤ 2 * a.visited.size ∧
      ∀ seeds, (ofAnalysis a seeds).LoopsEnd a seeds := by
  obtain ⟨a, ha⟩ := Image.exists_analyze himg entries budget
  have h := Image.traces_of_analyze ha
  have hsize := h.size_add_size_le himg
  refine ⟨a, ha, Image.walkEnds_of_analyze himg ha, by omega,
    Image.length_edges_le_of_analyze ha, fun seeds => ?_⟩
  constructor
  case sweepsEnd => exact wellFounded_sweeps h.inside _
  case swept =>
    intro b hb x
    rw [Block.mem_addresses_iff, h.sweeps_iff hb]
  case stopped => exact fun b hb => h.exists_sweep_end hb
  case unwrapped =>
    intro b hb
    refine ⟨UInt16.lt_iff_toNat_lt.mpr (h.swept hb).nonempty, h.toNat_stop_le himg hb, ?_⟩
    intro x hx
    exact h.toNat_next ((h.swept hb).visited x (Block.mem_addresses_iff.mp hx))
  case once => exact map_start_blocks
  case alone =>
    intro b hb s hs hmem
    exact (h.swept hb).eq_start_of_contains (Block.mem_addresses_iff.mp hmem) hs
  case uncovered => exact h.sweepFrom_eq_blocks seeds
  case searchesEnd => exact wellFounded_visits _
  case seen =>
    intro f hf
    exact ⟨_, fun _ => visits_iff, blocks_of_mem_functions hf⟩

/--
A subroutine that calls itself, a loop and a word that does not decode. Entries are given twice, overlap or are
not mapped, and the budget is the largest number of 64 bits.
-/
theorem loops_end_recursive :
    ∃ img, Image.ofProgram
        #[0x22, 0x04, 0x12, 0x00, 0x30, 0x01, 0x22, 0x04, 0x00, 0xEE, 0xFF, 0xFF, 0x61] 0x200 =
          .ok img ∧
      ∃ a, img.analyze [0x200, 0x20A, 0x201, 0x200, 0xFFFF] 18446744073709551615 = .ok a ∧
        img.WalkEnds [0x200, 0x20A, 0x201, 0x200, 0xFFFF] 18446744073709551615 a ∧
        a.visited.size + a.data.size ≤ max 13 1 - 1 ∧
        a.edges.length ≤ 2 * a.visited.size ∧
        ∀ seeds, (ofAnalysis a seeds).LoopsEnd a seeds := by
  have himg : Image.ofProgram
      #[0x22, 0x04, 0x12, 0x00, 0x30, 0x01, 0x22, 0x04, 0x00, 0xEE, 0xFF, 0xFF, 0x61] 0x200 =
        .ok _ := rfl
  exact ⟨_, himg, loops_end himg [0x200, 0x20A, 0x201, 0x200, 0xFFFF] 18446744073709551615⟩

end Graph

end Chip8
