import Chip8.Proofs.Graph.Edges
import Chip8.Proofs.Graph.Search

/-!
# Functions

A function is found by a search over blocks, but what it is can be said of single instructions: its
blocks are those that edges other than calls lead to from its entry. A path of blocks is filled in by
running through each block to the place where it is left (`Traces.path_of_blocks`), and a path of
instructions goes through the blocks in the order of a path of blocks (`Traces.blocks_of_path`).

No block is left over. On the way on which an instruction was discovered, the last call leads to a place
where a function begins, and if there was no call then the way began at a seed (`Traces.exists_root`).
-/

namespace Chip8

namespace Analysis

variable {a : Analysis} {img : Image} {entries seeds : List Address} {b : Block} {f : Function}
  {r s x : Address}

/-! ## Roots -/

/-- A function begins at `x`. -/
def IsRoot (a : Analysis) (seeds : List Address) (x : Address) : Prop :=
  x ∈ a.visited ∧ (x ∈ seeds ∨ x ∈ a.callTargets)

theorem map_entry_functions :
    (Graph.ofAnalysis a seeds).functions.map Function.entry =
      (AddressSet.ofList ((seeds ++ a.callTargets.toList).filter (· ∈ a.starts seeds))).toList := by
  unfold Graph.ofAnalysis
  rw [List.map_map]
  exact List.map_id _

/-- A function lists the starts among what the search from its entry finds. -/
theorem blocks_of_mem_functions (hf : f ∈ (Graph.ofAnalysis a seeds).functions) :
    f.blocks = (Graph.reach (fun b => (Graph.targets (Graph.ofAnalysis a seeds).edges).getD b [])
      [f.entry] ∅).toList.filter (· ∈ a.starts seeds) := by
  obtain ⟨r, -, rfl⟩ := List.mem_map.mp hf
  rfl

theorem pairwise_blocks_of_mem_functions (hf : f ∈ (Graph.ofAnalysis a seeds).functions) :
    f.blocks.Pairwise (· < ·) := by
  rw [blocks_of_mem_functions hf]
  exact (AddressSet.pairwise_toList _).filter _

theorem mem_blocks_iff_block_path (hf : f ∈ (Graph.ofAnalysis a seeds).functions) :
    s ∈ f.blocks ↔ s ∈ a.starts seeds ∧ Graph.Path (Graph.ofAnalysis a seeds).edges f.entry s := by
  rw [blocks_of_mem_functions hf, List.mem_filter, Std.ExtTreeSet.mem_toList,
    Graph.mem_reach_iff, decide_eq_true_eq, and_comm]

section Traces

variable (h : a.Traces img entries)
include h

theorem Traces.start_of_root (hx : a.IsRoot seeds x) : x ∈ a.starts seeds := by
  obtain ⟨hv, hseed | hcall⟩ := hx
  · exact mem_starts_iff.mpr ⟨hv, Or.inl hseed⟩
  · obtain ⟨e, he, hk, ht⟩ := (h.callTargets_iff x).mp hcall
    have hne : e.kind ≠ .fallthrough := by
      rw [hk]
      decide
    exact mem_starts_iff.mpr ⟨hv, Or.inr ⟨e, he, leads_iff.mpr (Or.inl hne), ht⟩⟩

/-- **Functions begin at the roots.** -/
theorem Traces.mem_entries_iff :
    x ∈ (Graph.ofAnalysis a seeds).functions.map Function.entry ↔ a.IsRoot seeds x := by
  rw [map_entry_functions, Std.ExtTreeSet.mem_toList, AddressSet.mem_ofList, List.mem_filter,
    List.mem_append, Std.ExtTreeSet.mem_toList, decide_eq_true_eq]
  constructor
  · rintro ⟨hroot, hstart⟩
    exact ⟨(mem_starts_iff.mp hstart).1, hroot⟩
  · intro hx
    exact ⟨hx.2, h.start_of_root hx⟩

theorem Traces.entry_mem_starts (hf : f ∈ (Graph.ofAnalysis a seeds).functions) :
    f.entry ∈ a.starts seeds :=
  h.start_of_root (h.mem_entries_iff.mp (List.mem_map_of_mem hf))

/-! ## Paths of blocks and paths of instructions -/

/-- Control runs from the start of a block to all its instructions. -/
theorem Traces.path_inside (hb : b ∈ a.blocks (a.starts seeds)) (hx : b.contains x = true) :
    Graph.Path a.edges b.start x := by
  refine Block.contains_induction hx .refl ?_
  intro y hy hnext _ hpath
  have hedge := h.fallthrough_mem_edges hb hy (Block.ne_stop_of_contains hnext)
  exact hpath.tail (Graph.links_of_mem hedge (by simp))

/-- **A path of blocks is a path of instructions.** -/
theorem Traces.path_of_blocks (hseeds : ∀ x ∈ entries, x ∈ seeds)
    (hp : Graph.Path (Graph.ofAnalysis a seeds).edges r s) : Graph.Path a.edges r s := by
  induction hp with
  | refl => exact .refl
  | tail _ hlink ih =>
    obtain ⟨e, he, hk, rfl, rfl⟩ := hlink
    obtain ⟨b, hb, hs, d, hd, hx, ht, hkd⟩ := h.origin hseeds he
    -- the edge leaves its block somewhere, and control runs there first
    rw [← hs] at ih
    rw [← hkd] at hk
    rw [← ht]
    exact (ih.trans (h.path_inside hb hx)).tail (Graph.links_of_mem hd hk)

/--
**A path of instructions from the start of a block goes along a path of blocks.**

Inside a block the path of blocks waits. Whatever leads to a start is an edge between blocks.
-/
theorem Traces.blocks_of_path (hr : r ∈ a.starts seeds) (hp : Graph.Path a.edges r x)
    (hx : x ∈ a.visited) :
    ∃ b ∈ a.blocks (a.starts seeds), b.contains x = true ∧
      Graph.Path (Graph.ofAnalysis a seeds).edges r b.start := by
  induction hp with
  | refl =>
    obtain ⟨b, hb, hs, hcontains⟩ := h.exists_block_at hr
    rw [← hs] at hcontains ⊢
    exact ⟨b, hb, hcontains, .refl⟩
  | tail _ hlink ih =>
    obtain ⟨e, he, hk, rfl, rfl⟩ := hlink
    obtain ⟨b, hb, hcontains, hpath⟩ := ih ((h.edges_iff e).mp he).1
    by_cases hnew : e.target ∈ a.starts seeds
    · have hlinks := Graph.links_of_mem (h.mem_edges_of_start hb he hcontains hnew) hk
      obtain ⟨c, hc, hs, hin⟩ := h.exists_block_at hnew
      rw [← hs] at hlinks
      exact ⟨c, hc, hin, hpath.tail hlinks⟩
    · exact ⟨b, hb, (h.runs_on_inside hb he hcontains hx hnew).2.2, hpath⟩

/-- A path that comes to an instruction of a block came through the start of the block. -/
theorem Traces.path_to_start (hseeds : ∀ x ∈ entries, x ∈ seeds) (hr : r ∈ a.starts seeds)
    (hb : b ∈ a.blocks (a.starts seeds)) (hx : b.contains x = true) (hp : Graph.Path a.edges r x) :
    Graph.Path a.edges r b.start := by
  obtain ⟨c, hc, hcx, hpath⟩ := h.blocks_of_path hr hp ((h.swept hb).visited x hx)
  rw [h.block_unique hc hb hcx hx] at hpath
  exact h.path_of_blocks hseeds hpath

/-! ## The blocks of a function -/

/-- **A function consists of the blocks to which paths lead from its entry.** -/
theorem Traces.mem_blocks_iff_path (hseeds : ∀ x ∈ entries, x ∈ seeds)
    (hf : f ∈ (Graph.ofAnalysis a seeds).functions) :
    s ∈ f.blocks ↔ s ∈ a.starts seeds ∧ Graph.Path a.edges f.entry s := by
  rw [mem_blocks_iff_block_path hf]
  constructor
  · rintro ⟨hs, hp⟩
    exact ⟨hs, h.path_of_blocks hseeds hp⟩
  · rintro ⟨hs, hp⟩
    obtain ⟨b, hb, hx, hpath⟩ :=
      h.blocks_of_path (h.entry_mem_starts hf) hp (mem_starts_iff.mp hs).1
    rw [← (h.swept hb).eq_start_of_contains hx hs] at hpath
    exact ⟨hs, hpath⟩

theorem Traces.start_mem_blocks (hseeds : ∀ x ∈ entries, x ∈ seeds)
    (hf : f ∈ (Graph.ofAnalysis a seeds).functions) (hb : b ∈ a.blocks (a.starts seeds))
    (hx : b.contains x = true) (hp : Graph.Path a.edges f.entry x) : b.start ∈ f.blocks := by
  rw [h.mem_blocks_iff_path hseeds hf]
  exact ⟨(mem_blocks_iff.mp hb).1, h.path_to_start hseeds (h.entry_mem_starts hf) hb hx hp⟩

/-- **A path leads from some root to every visited address.** -/
theorem Traces.exists_root (hseeds : ∀ x ∈ entries, x ∈ seeds) (hx : x ∈ a.visited) :
    ∃ r, a.IsRoot seeds r ∧ Graph.Path a.edges r x := by
  have hdisc := h.discovered x (Or.inl hx)
  induction hdisc with
  | entry he => exact ⟨_, ⟨hx, Or.inl (hseeds _ he)⟩, .refl⟩
  | @edge e he _ ih =>
    by_cases hk : e.kind = .call
    · -- whatever led to the call does not count any more
      exact ⟨e.target, ⟨hx, Or.inr ((h.callTargets_iff _).mpr ⟨e, he, hk, rfl⟩)⟩, .refl⟩
    · obtain ⟨r, hr, hp⟩ := ih ((h.edges_iff e).mp he).1
      exact ⟨r, hr, hp.tail (Graph.links_of_mem he hk)⟩

end Traces

end Analysis

/-! ## The graph of a program -/

namespace Graph

open Analysis

/-- The function consists of what edges other than calls lead to from its entry. -/
structure Spans (g : Graph) (a : Analysis) (f : Function) : Prop where
  ascending : f.blocks.Pairwise (· < ·)
  mem_iff : ∀ s, s ∈ f.blocks ↔
    ∃ b ∈ g.blocks, b.start = s ∧ ∃ x ∈ b.addresses, Path a.edges f.entry x
  entered : ∀ b ∈ g.blocks,
    (∃ x ∈ b.addresses, Path a.edges f.entry x) ↔ Path a.edges f.entry b.start

variable {program : Bytes} {base : Address} {img : Image}

/--
**Functions are what control reaches without calls**, for any budget and any seeds among which the
entries are.

They begin at the visited addresses that are seeds or targets of calls.
-/
theorem functions_span (himg : Image.ofProgram program base = .ok img) (entries : List Address)
    (budget : Nat) {seeds : List Address} (hseeds : ∀ x ∈ entries, x ∈ seeds) :
    ∃ a, img.analyze entries budget = .ok a ∧
      ((ofAnalysis a seeds).functions.map Function.entry).Pairwise (· < ·) ∧
      (∀ x, x ∈ (ofAnalysis a seeds).functions.map Function.entry ↔
        x ∈ a.visited ∧ (x ∈ seeds ∨ x ∈ a.callTargets)) ∧
      ∀ f ∈ (ofAnalysis a seeds).functions, (ofAnalysis a seeds).Spans a f := by
  obtain ⟨a, ha⟩ := Image.exists_analyze himg entries budget
  have h := Image.traces_of_analyze ha
  refine ⟨a, ha, ?_, ?_, ?_⟩
  · rw [map_entry_functions]
    exact AddressSet.pairwise_toList _
  · intro x
    exact h.mem_entries_iff
  · intro f hf
    constructor
    case ascending => exact pairwise_blocks_of_mem_functions hf
    case mem_iff =>
      intro s
      constructor
      · intro hs
        obtain ⟨hstart, hp⟩ := (h.mem_blocks_iff_path hseeds hf).mp hs
        obtain ⟨b, hb, rfl, hx⟩ := h.exists_block_at hstart
        exact ⟨b, hb, rfl, b.start, Block.mem_addresses_iff.mpr hx, hp⟩
      · rintro ⟨b, hb, rfl, x, hx, hp⟩
        exact h.start_mem_blocks hseeds hf hb (Block.mem_addresses_iff.mp hx) hp
    case entered =>
      intro b hb
      constructor
      · rintro ⟨x, hx, hp⟩
        exact h.path_to_start hseeds (h.entry_mem_starts hf) hb (Block.mem_addresses_iff.mp hx) hp
      · intro hp
        exact ⟨b.start, Block.mem_addresses_iff.mpr (h.swept hb).contains_start, hp⟩

/-- A call of the very next word, which is a skip, and a budget that runs out behind it. -/
theorem functions_span_truncated :
    ∃ img, Image.ofProgram
        #[0x60, 0x01, 0x22, 0x04, 0x30, 0x01, 0x12, 0x00, 0x22, 0x00, 0x00, 0xEE] 0x200 = .ok img ∧
      (∀ x ∈ [(0x200 : Address)], x ∈ [(0x200 : Address), 0x300]) ∧
      ∃ a, img.analyze [0x200] 4 = .ok a ∧
        ((ofAnalysis a [0x200, 0x300]).functions.map Function.entry).Pairwise (· < ·) ∧
        (∀ x, x ∈ (ofAnalysis a [0x200, 0x300]).functions.map Function.entry ↔
          x ∈ a.visited ∧ (x ∈ [0x200, 0x300] ∨ x ∈ a.callTargets)) ∧
        ∀ f ∈ (ofAnalysis a [0x200, 0x300]).functions, (ofAnalysis a [0x200, 0x300]).Spans a f := by
  have himg : Image.ofProgram
      #[0x60, 0x01, 0x22, 0x04, 0x30, 0x01, 0x12, 0x00, 0x22, 0x00, 0x00, 0xEE] 0x200 = .ok _ := rfl
  have hseeds : ∀ x ∈ [(0x200 : Address)], x ∈ [(0x200 : Address), 0x300] := by
    intro x hx
    exact List.mem_append_left [0x300] hx
  exact ⟨_, himg, hseeds, functions_span himg [0x200] 4 hseeds⟩

/-- **No block is left over**, and a function has the block at its entry. -/
theorem blocks_in_functions (himg : Image.ofProgram program base = .ok img)
    (entries : List Address) (budget : Nat) {seeds : List Address}
    (hseeds : ∀ x ∈ entries, x ∈ seeds) :
    ∃ a, img.analyze entries budget = .ok a ∧
      (∀ b ∈ (ofAnalysis a seeds).blocks,
        ∃ f ∈ (ofAnalysis a seeds).functions, b.start ∈ f.blocks) ∧
      ∀ f ∈ (ofAnalysis a seeds).functions, f.entry ∈ f.blocks := by
  obtain ⟨a, ha⟩ := Image.exists_analyze himg entries budget
  have h := Image.traces_of_analyze ha
  refine ⟨a, ha, ?_, ?_⟩
  · intro b hb
    have hstart : b.start ∈ a.starts seeds := (mem_blocks_iff.mp hb).1
    obtain ⟨r, hr, hp⟩ := h.exists_root hseeds (mem_starts_iff.mp hstart).1
    obtain ⟨f, hf, rfl⟩ := List.mem_map.mp (h.mem_entries_iff.mpr hr)
    exact ⟨f, hf, (h.mem_blocks_iff_path hseeds hf).mpr ⟨hstart, hp⟩⟩
  · intro f hf
    exact (h.mem_blocks_iff_path hseeds hf).mpr ⟨h.entry_mem_starts hf, .refl⟩

/-- A subroutine that calls itself and a call of unmapped memory, with a budget that runs out. -/
theorem blocks_in_functions_recursive :
    ∃ img, Image.ofProgram
        #[0x22, 0x06, 0x2F, 0x00, 0x12, 0x00, 0x30, 0x01, 0x22, 0x06, 0x00, 0xEE] 0x200 = .ok img ∧
      (∀ x ∈ [(0x200 : Address)], x ∈ [(0x200 : Address)]) ∧
      ∃ a, img.analyze [0x200] 5 = .ok a ∧
        (∀ b ∈ (ofAnalysis a [0x200]).blocks,
          ∃ f ∈ (ofAnalysis a [0x200]).functions, b.start ∈ f.blocks) ∧
        ∀ f ∈ (ofAnalysis a [0x200]).functions, f.entry ∈ f.blocks := by
  have himg : Image.ofProgram
      #[0x22, 0x06, 0x2F, 0x00, 0x12, 0x00, 0x30, 0x01, 0x22, 0x06, 0x00, 0xEE] 0x200 = .ok _ := rfl
  have hseeds : ∀ x ∈ [(0x200 : Address)], x ∈ [(0x200 : Address)] := by
    intro x hx
    exact hx
  exact ⟨_, himg, hseeds, blocks_in_functions himg [0x200] 5 hseeds⟩

end Graph

end Chip8
