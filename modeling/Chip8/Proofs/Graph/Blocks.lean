import Chip8.Proofs.Analysis
import Chip8.Proofs.Graph.Sweep
import Mathlib.Algebra.GroupWithZero.Nat

/-!
# Basic blocks

The blocks of a graph against the edges and visited addresses of its analysis. With the entries among the
seeds they partition the code, for the walk comes to every instruction in one of two ways: as a start, or
by running on from the instruction before it.
-/

namespace Chip8

namespace Analysis

variable {a : Analysis} {img : Image} {entries seeds : List Address} {starts : AddressSet}
  {b c : Block} {e : Edge} {x : Address}

/-! ## Starts and blocks -/

@[simp]
theorem leads_iff : a.leads e = true ↔ e.kind ≠ .fallthrough ∨ e.source ∈ a.terminators := by
  simp [leads]

@[grind =]
theorem mem_starts_iff :
    x ∈ a.starts seeds ↔
      x ∈ a.visited ∧ (x ∈ seeds ∨ ∃ e ∈ a.edges, a.leads e = true ∧ e.target = x) := by
  unfold starts
  rw [AddressSet.mem_ofList, List.mem_filter, List.mem_append, List.mem_map, decide_eq_true_eq,
    and_comm]
  simp only [List.mem_filter, and_assoc]

@[simp, grind =]
theorem mem_blocks_iff :
    b ∈ a.blocks starts ↔ b.start ∈ starts ∧ b.stop = a.runEnd starts b.start := by
  unfold blocks
  rw [List.mem_map]
  constructor
  · rintro ⟨s, hs, rfl⟩
    exact ⟨Std.ExtTreeSet.mem_toList.mp hs, rfl⟩
  · rintro ⟨hs, hstop⟩
    refine ⟨b.start, Std.ExtTreeSet.mem_toList.mpr hs, ?_⟩
    rw [← hstop]

@[simp]
theorem map_start_blocks : (a.blocks starts).map Block.start = starts.toList := by
  unfold blocks
  rw [List.map_map]
  exact List.map_id _

/-- The blocks stand in ascending order of their starts. -/
theorem pairwise_start_blocks (a : Analysis) (starts : AddressSet) :
    (a.blocks starts).Pairwise (·.start < ·.start) := by
  rw [← List.pairwise_map, map_start_blocks]
  exact AddressSet.pairwise_toList starts

@[simp]
theorem nodup_blocks (a : Analysis) (starts : AddressSet) : (a.blocks starts).Nodup := by
  refine (pairwise_start_blocks a starts).imp ?_
  intro b c hlt he
  rw [he] at hlt
  exact absurd hlt (UInt16.lt_irrefl _)

theorem exists_block_of_start (hx : x ∈ starts) :
    ∃ b ∈ a.blocks starts, b.start = x :=
  ⟨⟨x, a.runEnd starts x⟩, mem_blocks_iff.mpr ⟨hx, rfl⟩, rfl⟩

theorem eq_of_start_eq (hb : b ∈ a.blocks starts) (hc : c ∈ a.blocks starts)
    (h : b.start = c.start) : b = c := by
  obtain ⟨bs, bt⟩ := b
  obtain ⟨cs, ct⟩ := c
  -- where a block ends is decided by where it starts
  grind

section Traces

variable (h : a.Traces img entries)
include h

theorem Traces.swept (hb : b ∈ a.blocks (a.starts seeds)) : a.Swept (a.starts seeds) b := by
  obtain ⟨hs, hstop⟩ := mem_blocks_iff.mp hb
  have hswept := swept_runEnd h.inside (a.starts seeds) (mem_starts_iff.mp hs).1
  rw [← hstop] at hswept
  exact hswept

theorem Traces.exists_block_at (hx : x ∈ a.starts seeds) :
    ∃ b ∈ a.blocks (a.starts seeds), b.start = x ∧ b.contains x = true := by
  obtain ⟨b, hb, rfl⟩ := exists_block_of_start (a := a) hx
  exact ⟨b, hb, rfl, (h.swept hb).contains_start⟩

theorem Traces.toNat_next (hx : x ∈ a.visited) : (Word.next x).toNat = x.toNat + 2 :=
  Word.toNat_next (h.inside x hx)

/-- Behind the last instruction of a block the sweep had a reason to stop. -/
theorem Traces.why_stop (hb : b ∈ a.blocks (a.starts seeds)) (hx : x ∈ a.visited)
    (hstop : Word.next x = b.stop) :
    x ∈ a.terminators ∨ b.stop ∉ a.visited ∨ b.stop ∈ a.starts seeds := by
  obtain ⟨last, hlast, hlaststop, hwhy⟩ := (h.swept hb).ends
  have hsame : last = x := by
    have hnext := h.toNat_next hx
    have hlastnext := h.toNat_next ((h.swept hb).visited last hlast)
    rw [hlaststop, ← hstop, hnext] at hlastnext
    rw [← UInt16.toNat_inj]
    omega
  rw [hsame] at hwhy
  exact hwhy

/-- An edge that does not lead runs on from an instruction that is no terminator. -/
theorem Traces.target_of_not_leads (he : e ∈ a.edges) (hl : a.leads e ≠ true) :
    e.source ∈ a.visited ∧ e.source ∉ a.terminators ∧ e.kind = .fallthrough ∧
      e.target = Word.next e.source := by
  have ⟨hk, hterm⟩ : e.kind = .fallthrough ∧ e.source ∉ a.terminators := by simpa using hl
  obtain ⟨hv, w, hw, hedge⟩ := (h.edges_iff e).mp he
  obtain ⟨-, ht, -⟩ := Site.of_fallthrough (s := ⟨e.source, w⟩) hedge hk
  exact ⟨hv, hterm, hk, ht⟩

/-- An edge to a visited address that starts no block runs on inside a block. -/
theorem Traces.runs_on_inside (hb : b ∈ a.blocks (a.starts seeds)) (he : e ∈ a.edges)
    (hx : b.contains e.source = true) (hv : e.target ∈ a.visited)
    (hnew : e.target ∉ a.starts seeds) :
    e.kind = .fallthrough ∧ e.target = Word.next e.source ∧ b.contains e.target = true := by
  -- an edge that leads would make its target a start
  have hl : a.leads e ≠ true := by grind
  obtain ⟨hsource, hterm, hk, htarget⟩ := h.target_of_not_leads he hl
  rw [htarget] at hv hnew ⊢
  refine ⟨hk, rfl, (h.swept hb).contains_next hx (h.toNat_next hsource) ?_⟩
  -- nothing could have stopped the sweep behind the source
  intro hstop
  have hwhy := h.why_stop hb hsource hstop
  rw [← hstop] at hwhy
  rcases hwhy with hterm' | hgap | hstart
  · exact hterm hterm'
  · exact hgap hv
  · exact hnew hstart

/-! ## Every visited address lies in a block -/

/--
**The blocks cover the code.**

By induction on the way in which an address was discovered. A target that starts no block was reached by
running on from an instruction of some block, and that block does not end there.
-/
theorem Traces.exists_block (hseeds : ∀ e ∈ entries, e ∈ seeds) (hx : x ∈ a.visited) :
    ∃ b ∈ a.blocks (a.starts seeds), b.contains x = true := by
  have hdisc := h.discovered x (Or.inl hx)
  induction hdisc with
  | entry he =>
    obtain ⟨b, hb, -, hcontains⟩ :=
      h.exists_block_at (mem_starts_iff.mpr ⟨hx, Or.inl (hseeds _ he)⟩)
    exact ⟨b, hb, hcontains⟩
  | @edge e he _ ih =>
    by_cases hnew : e.target ∈ a.starts seeds
    · obtain ⟨b, hb, -, hcontains⟩ := h.exists_block_at hnew
      exact ⟨b, hb, hcontains⟩
    · obtain ⟨b, hb, hcontains⟩ := ih ((h.edges_iff e).mp he).1
      exact ⟨b, hb, (h.runs_on_inside hb he hcontains hx hnew).2.2⟩

/-! ## No address lies in two blocks -/

theorem Traces.start_eq_of_overlap (hb : b ∈ a.blocks (a.starts seeds))
    (hc : c ∈ a.blocks (a.starts seeds)) (hparity : b.start.toNat % 2 = c.start.toNat % 2)
    (hle : b.start.toNat ≤ c.start.toNat) (hlt : c.start.toNat < b.stop.toNat) : b = c := by
  have hin : b.contains c.start = true := by
    rw [Block.contains_iff]
    omega
  have hstart := (h.swept hb).eq_start_of_contains hin (mem_blocks_iff.mp hc).1
  exact eq_of_start_eq hb hc hstart.symm

/-- **Blocks of one parity do not overlap.** -/
theorem Traces.disjoint_blocks (hb : b ∈ a.blocks (a.starts seeds))
    (hc : c ∈ a.blocks (a.starts seeds)) (hne : b ≠ c)
    (hparity : b.start.toNat % 2 = c.start.toNat % 2) :
    b.stop.toNat ≤ c.start.toNat ∨ c.stop.toNat ≤ b.start.toNat := by
  by_cases hle : b.start.toNat ≤ c.start.toNat
  · by_cases hlt : c.start.toNat < b.stop.toNat
    · exact absurd (h.start_eq_of_overlap hb hc hparity hle hlt) hne
    · omega
  · by_cases hlt : b.start.toNat < c.stop.toNat
    · exact absurd (h.start_eq_of_overlap hc hb hparity.symm (by omega) hlt).symm hne
    · omega

theorem Traces.block_unique (hb : b ∈ a.blocks (a.starts seeds))
    (hc : c ∈ a.blocks (a.starts seeds)) (hbx : b.contains x = true)
    (hcx : c.contains x = true) : b = c := by
  by_cases hne : b = c
  · exact hne
  · rw [Block.contains_iff] at hbx hcx
    have hdisj := h.disjoint_blocks hb hc hne (by omega)
    omega

/-! ## The instructions of all blocks -/

/-- **The blocks list every visited address once.** -/
theorem Traces.addresses_perm_visited (hseeds : ∀ e ∈ entries, e ∈ seeds) :
    ((a.blocks (a.starts seeds)).flatMap Block.addresses).Perm a.visited.toList := by
  -- both lists are free of repetitions, so their members decide
  have hnodup : ((a.blocks (a.starts seeds)).flatMap Block.addresses).Nodup := by
    refine List.pairwise_flatMap.mpr ⟨fun b _ => Block.nodup_addresses b, ?_⟩
    refine (nodup_blocks a (a.starts seeds)).imp_of_mem ?_
    intro b c hb hc hne x hx y hy hxy
    rw [← hxy] at hy
    exact hne (h.block_unique hb hc (Block.mem_addresses_iff.mp hx) (Block.mem_addresses_iff.mp hy))
  refine (List.perm_ext_iff_of_nodup hnodup (AddressSet.nodup_toList _)).mpr fun x => ?_
  rw [List.mem_flatMap, Std.ExtTreeSet.mem_toList]
  simp only [Block.mem_addresses_iff]
  constructor
  · rintro ⟨b, hb, hx⟩
    exact (h.swept hb).visited x hx
  · exact h.exists_block hseeds

theorem Traces.sum_lengths (hseeds : ∀ e ∈ entries, e ∈ seeds) :
    ((a.blocks (a.starts seeds)).map fun b => (b.stop.toNat - b.start.toNat) / 2).sum =
      a.visited.size := by
  have hlen : (a.blocks (a.starts seeds)).map (fun b => (b.stop.toNat - b.start.toNat) / 2) =
      (a.blocks (a.starts seeds)).map (List.length ∘ Block.addresses) :=
    List.map_congr_left fun b hb => (h.swept hb).length_addresses.symm
  rw [hlen, ← List.map_map, ← List.length_flatten, ← List.flatMap_def,
    (h.addresses_perm_visited hseeds).length_eq, Std.ExtTreeSet.length_toList]

/-! ## Edges and blocks -/

/-- An instruction runs on to the next one of its block. -/
theorem Traces.fallthrough_mem_edges (hb : b ∈ a.blocks (a.starts seeds))
    (hx : b.contains x = true) (hne : Word.next x ≠ b.stop) :
    ⟨x, Word.next x, .fallthrough⟩ ∈ a.edges := by
  have hswept := h.swept hb
  have hv : x ∈ a.visited := hswept.visited x hx
  obtain ⟨w, hw, -⟩ := h.word x hv
  obtain ⟨w', hw', -⟩ :=
    h.word _ (hswept.visited _ (hswept.contains_next hx (h.toNat_next hv) hne))
  have hterm : (w.flow x).isTerminator ≠ true := fun hterm =>
    hswept.runsOn x hx hne ((h.terminators_iff x).mpr ⟨hv, w, hw, hterm⟩)
  have hruns : (Site.flow ⟨x, w⟩).runsOn = true := Flow.runsOn_of_not_isTerminator hterm
  exact (h.edges_iff _).mpr
    ⟨hv, w, hw, Site.fallthrough_mem_edges hruns (Image.maps_of_word? hw')⟩

/-- **Control enters a block only at its start.** -/
theorem Traces.edge_into_block (hb : b ∈ a.blocks (a.starts seeds)) (he : e ∈ a.edges)
    (hx : b.contains e.target = true) (hne : e.target ≠ b.start) :
    e.kind = .fallthrough ∧ e.target = Word.next e.source ∧ b.contains e.source = true := by
  have hswept := h.swept hb
  have hnew : e.target ∉ a.starts seeds := hswept.inner _ hx hne
  have hv : e.target ∈ a.visited := hswept.visited _ hx
  have hl : a.leads e ≠ true := by grind
  obtain ⟨hsource, -, hk, htarget⟩ := h.target_of_not_leads he hl
  rw [htarget] at hx hne
  exact ⟨hk, htarget, Block.contains_of_next hx (h.toNat_next hsource) hne⟩

/-- An edge that runs on from a terminator comes from a skip. -/
theorem Traces.isSkip_of_terminator (he : e ∈ a.edges) (hk : e.kind = .fallthrough)
    (hterm : e.source ∈ a.terminators) :
    ∃ w i, img.word? e.source = some w ∧ w.decode? = some i ∧ i.isSkip = true := by
  obtain ⟨hv, w, hw, hedge⟩ := (h.edges_iff e).mp he
  obtain ⟨i, hi⟩ := Option.isSome_iff_exists.mp (h.decodes hv hw)
  have hflow : (w.flow e.source).isTerminator = true := by
    obtain ⟨-, w', hw', hflow⟩ := (h.terminators_iff _).mp hterm
    rw [hw] at hw'
    rw [Option.some.inj hw']
    exact hflow
  obtain ⟨hruns, -⟩ := Site.of_fallthrough (s := ⟨e.source, w⟩) hedge hk
  obtain ⟨taken, passed, hskip⟩ := Flow.eq_skip_of_isTerminator hflow hruns
  rw [Word.flow_of_decode? hi] at hskip
  exact ⟨w, i, hw, hi, Instruction.isSkip_of_flow hskip⟩

/-- **A block starts at a seed, at the target of a jump, call or taken skip, or behind a skip.** -/
theorem Traces.why_start (hx : x ∈ a.starts seeds) :
    x ∈ seeds ∨ ∃ e ∈ a.edges, e.target = x ∧
      (e.kind = .branch ∨ e.kind = .condBranch ∨ e.kind = .call ∨
        (e.kind = .fallthrough ∧
          ∃ w i, img.word? e.source = some w ∧ w.decode? = some i ∧ i.isSkip = true)) := by
  obtain ⟨-, hseed | ⟨e, he, hl, ht⟩⟩ := mem_starts_iff.mp hx
  · exact Or.inl hseed
  · refine Or.inr ⟨e, he, ht, ?_⟩
    cases hk : e.kind with
    | branch => exact Or.inl rfl
    | condBranch => exact Or.inr (Or.inl rfl)
    | call => exact Or.inr (Or.inr (Or.inl rfl))
    | fallthrough =>
      rcases leads_iff.mp hl with hne | hterm
      · exact absurd hk hne
      · exact Or.inr (Or.inr (Or.inr ⟨rfl, h.isSkip_of_terminator he hk hterm⟩))

/-- **A block ends at a terminator, in front of a gap, or in front of another block.** -/
theorem Traces.why_end (hb : b ∈ a.blocks (a.starts seeds)) :
    ∃ last, b.contains last = true ∧ Word.next last = b.stop ∧
      (last ∈ a.terminators ∨ b.stop ∉ a.visited ∨
        ∃ c ∈ a.blocks (a.starts seeds), c ≠ b ∧ c.start = b.stop) := by
  have hswept := h.swept hb
  obtain ⟨last, hlast, hstop, hwhy⟩ := hswept.ends
  refine ⟨last, hlast, hstop, ?_⟩
  rcases hwhy with hterm | hgap | hstart
  · exact Or.inl hterm
  · exact Or.inr (Or.inl hgap)
  · obtain ⟨c, hc, hcs⟩ := exists_block_of_start (a := a) hstart
    refine Or.inr (Or.inr ⟨c, hc, ?_, hcs⟩)
    intro he
    have hlt := hswept.nonempty
    rw [he] at hcs
    rw [hcs] at hlt
    exact Nat.lt_irrefl _ hlt

end Traces

end Analysis

/-! ## The graph of a program -/

namespace Graph

open Analysis

/--
The blocks of the graph divide the code among them.

Two blocks may share bytes, but only if one starts at an even and the other at an odd address.
-/
structure Partitions (g : Graph) (code : AddressSet) : Prop where
  ascending : (g.blocks.map Block.start).Pairwise (· < ·)
  nonempty : ∀ b ∈ g.blocks, b.start < b.stop
  even : ∀ b ∈ g.blocks, (b.stop.toNat - b.start.toNat) % 2 = 0
  inside : ∀ b ∈ g.blocks, ∀ x ∈ b.addresses, x ∈ code
  covers : ∀ x ∈ code,
    ∃ b ∈ g.blocks, x ∈ b.addresses ∧ ∀ c ∈ g.blocks, x ∈ c.addresses → c = b
  size : (g.blocks.map fun b => (b.stop.toNat - b.start.toNat) / 2).sum = code.size
  disjoint : ∀ b ∈ g.blocks, ∀ c ∈ g.blocks, b ≠ c → b.start.toNat % 2 = c.start.toNat % 2 →
    ∀ y, ¬ ((b.start ≤ y ∧ y < b.stop) ∧ c.start ≤ y ∧ y < c.stop)

/--
Control runs through the block from its start to its end and enters it nowhere else, and there is a
reason for the block to start where it starts and to end where it ends.
-/
structure Basic (g : Graph) (img : Image) (a : Analysis) (seeds : List Address) (b : Block) :
    Prop where
  straight : ∀ x ∈ b.addresses, Word.next x ≠ b.stop →
    x ∉ a.terminators ∧ Word.next x ∈ b.addresses ∧ ⟨x, Word.next x, .fallthrough⟩ ∈ a.edges
  entered : ∀ e ∈ a.edges, e.target ∈ b.addresses → e.target ≠ b.start →
    e.kind = .fallthrough ∧ e.target = Word.next e.source ∧ e.source ∈ b.addresses
  starts : b.start ∈ seeds ∨ ∃ e ∈ a.edges, e.target = b.start ∧
    (e.kind = .branch ∨ e.kind = .condBranch ∨ e.kind = .call ∨
      (e.kind = .fallthrough ∧
        ∃ w i, img.word? e.source = some w ∧ w.decode? = some i ∧ i.isSkip = true))
  ends : ∃ last ∈ b.addresses, Word.next last = b.stop ∧
    (last ∈ a.terminators ∨ b.stop ∉ a.visited ∨ ∃ c ∈ g.blocks, c ≠ b ∧ c.start = b.stop)

variable {program : Bytes} {base : Address} {img : Image}

/-- **The blocks partition the code**, for any budget and any seeds among which the entries are. -/
theorem blocks_partition (himg : Image.ofProgram program base = .ok img) (entries : List Address)
    (budget : Nat) {seeds : List Address} (hseeds : ∀ e ∈ entries, e ∈ seeds) :
    ∃ a, img.analyze entries budget = .ok a ∧ (ofAnalysis a seeds).Partitions a.visited := by
  obtain ⟨a, ha⟩ := Image.exists_analyze himg entries budget
  have h := Image.traces_of_analyze ha
  refine ⟨a, ha, ?_⟩
  constructor
  case ascending =>
    show ((a.blocks (a.starts seeds)).map Block.start).Pairwise (· < ·)
    rw [map_start_blocks]
    exact AddressSet.pairwise_toList _
  case nonempty =>
    intro b hb
    rw [UInt16.lt_iff_toNat_lt]
    exact (h.swept hb).nonempty
  case even =>
    intro b hb
    exact (h.swept hb).even
  case inside =>
    intro b hb x hx
    exact (h.swept hb).visited x (Block.mem_addresses_iff.mp hx)
  case covers =>
    intro x hx
    obtain ⟨b, hb, hbx⟩ := h.exists_block hseeds hx
    refine ⟨b, hb, Block.mem_addresses_iff.mpr hbx, ?_⟩
    intro c hc hcx
    exact h.block_unique hc hb (Block.mem_addresses_iff.mp hcx) hbx
  case size => exact h.sum_lengths hseeds
  case disjoint =>
    rintro b hb c hc hne hparity y ⟨⟨hb1, hb2⟩, hc1, hc2⟩
    rw [UInt16.le_iff_toNat_le] at hb1 hc1
    rw [UInt16.lt_iff_toNat_lt] at hb2 hc2
    have hdisj := h.disjoint_blocks hb hc hne hparity
    omega

/-- Two streams of instructions that overlap, one byte apart, with a budget that runs out. -/
theorem blocks_partition_overlapping :
    ∃ img, Image.ofProgram #[0x60, 0x61, 0x62, 0x63, 0x64, 0x65, 0x00, 0xEE] 0x200 = .ok img ∧
      (∀ e ∈ [(0x200 : Address), 0x201], e ∈ [(0x300 : Address), 0x201, 0x200]) ∧
      ∃ a, img.analyze [0x200, 0x201] 5 = .ok a ∧
        (ofAnalysis a [0x300, 0x201, 0x200]).Partitions a.visited := by
  have himg :
      Image.ofProgram #[0x60, 0x61, 0x62, 0x63, 0x64, 0x65, 0x00, 0xEE] 0x200 = .ok _ := rfl
  have hseeds : ∀ e ∈ [(0x200 : Address), 0x201], e ∈ [(0x300 : Address), 0x201, 0x200] := by
    intro e he
    exact List.mem_cons_of_mem _ (List.mem_reverse.mpr he)
  exact ⟨_, himg, hseeds, blocks_partition himg _ 5 hseeds⟩

/-- **The blocks are basic, and as long as they can be**, for any budget and any seeds. -/
theorem blocks_basic_maximal (himg : Image.ofProgram program base = .ok img)
    (entries seeds : List Address) (budget : Nat) :
    ∃ a, img.analyze entries budget = .ok a ∧
      ∀ b ∈ (ofAnalysis a seeds).blocks, (ofAnalysis a seeds).Basic img a seeds b := by
  obtain ⟨a, ha⟩ := Image.exists_analyze himg entries budget
  have h := Image.traces_of_analyze ha
  refine ⟨a, ha, ?_⟩
  intro b hb
  have hswept := h.swept hb
  constructor
  case straight =>
    intro x hx hne
    rw [Block.mem_addresses_iff] at hx ⊢
    have hnext := h.toNat_next (hswept.visited x hx)
    exact ⟨hswept.runsOn x hx hne, hswept.contains_next hx hnext hne,
      h.fallthrough_mem_edges hb hx hne⟩
  case entered =>
    intro e he hx hne
    rw [Block.mem_addresses_iff] at hx ⊢
    exact h.edge_into_block hb he hx hne
  case starts => exact h.why_start (mem_blocks_iff.mp hb).1
  case ends =>
    obtain ⟨last, hlast, hwhy⟩ := h.why_end hb
    exact ⟨last, Block.mem_addresses_iff.mpr hlast, hwhy⟩

/-- A call in the middle of a block, a skip, and a budget that runs out behind the skip. -/
theorem blocks_basic_maximal_call_skip :
    ∃ img, Image.ofProgram
        #[0x60, 0x01, 0x22, 0x08, 0x30, 0x01, 0x12, 0x00, 0x61, 0x02, 0x00, 0xEE] 0x200 = .ok img ∧
      ∃ a, img.analyze [0x200] 5 = .ok a ∧
        ∀ b ∈ (ofAnalysis a [0x200]).blocks, (ofAnalysis a [0x200]).Basic img a [0x200] b := by
  have himg : Image.ofProgram
      #[0x60, 0x01, 0x22, 0x08, 0x30, 0x01, 0x12, 0x00, 0x61, 0x02, 0x00, 0xEE] 0x200 = .ok _ := rfl
  exact ⟨_, himg, blocks_basic_maximal himg [0x200] [0x200] 5⟩

end Graph

end Chip8
