import Chip8.Proofs.Basic
import Chip8.Proofs.Graph.Blocks
import Mathlib.Data.List.Nodup

/-!
# Edges between blocks

The edges of a graph against those of its analysis. An edge keeps its target and its kind, and its source
becomes the block that it leaves; what runs on inside a block is left out, and equal edges become one.
Two facts about the blocks make this faithful. Each instruction has one block, so the source is never in
doubt; and an edge that leads to a visited address leads to the start of a block, so the target need not
be changed (`Traces.runs_on_inside` tells of the others).

Left out is exactly what runs on inside a block or to a place that was not visited
(`Traces.mem_edges_of_block_iff`).
-/

namespace Chip8

theorem Edge.Kind.tag_injective : Function.Injective Edge.Kind.tag := by
  intro k l h
  cases k <;> cases l <;> first | rfl | exact absurd h (by decide)

theorem Edge.tagged_injective :
    Function.Injective fun e : Edge => (e.source, e.target, e.kind.tag) := by
  rintro ⟨s, t, k⟩ ⟨s', t', k'⟩ he
  simp only [Prod.mk.injEq] at he
  obtain ⟨rfl, rfl, hk⟩ := he
  rw [Kind.tag_injective hk]

/-! ## The block of an instruction -/

theorem Block.owner_cases (blocks : List Block) (x : Address) :
    (∃ b ∈ blocks, b.contains x = true ∧ owner blocks x = b.start) ∨
      ((∀ b ∈ blocks, b.contains x ≠ true) ∧ owner blocks x = x) := by
  unfold owner
  cases hf : blocks.find? (·.contains x) with
  | some b =>
    have hx : b.contains x = true := by simpa using List.find?_some hf
    exact Or.inl ⟨b, List.mem_of_find?_eq_some hf, hx, rfl⟩
  | none => exact Or.inr ⟨List.find?_eq_none.mp hf, rfl⟩

namespace Analysis

variable {a : Analysis} {img : Image} {entries seeds : List Address} {b : Block} {d e : Edge}
  {x : Address}

theorem Traces.owner_eq (h : a.Traces img entries) (hb : b ∈ a.blocks (a.starts seeds))
    (hx : b.contains x = true) : Block.owner (a.blocks (a.starts seeds)) x = b.start := by
  rcases Block.owner_cases (a.blocks (a.starts seeds)) x with ⟨c, hc, hcx, howner⟩ | ⟨hnone, -⟩
  · rw [howner, h.block_unique hc hb hcx hx]
  · exact absurd hx (hnone b hb)

/-! ## The edges of the graph -/

@[grind =]
theorem mem_edges_ofAnalysis_iff :
    e ∈ (Graph.ofAnalysis a seeds).edges ↔
      ∃ d ∈ a.edges, (d.kind ≠ .fallthrough ∨ d.target ∈ a.starts seeds) ∧
        ⟨Block.owner (a.blocks (a.starts seeds)) d.source, d.target, d.kind⟩ = e := by
  show e ∈ a.blockEdges (a.starts seeds) (a.blocks (a.starts seeds)) ↔ _
  unfold blockEdges
  rw [List.mem_eraseDups, List.mem_map]
  simp [and_assoc]

/-- An edge that runs on is an edge of the graph only if it goes to a start. -/
theorem target_mem_starts_of_fallthrough (he : e ∈ (Graph.ofAnalysis a seeds).edges)
    (hk : e.kind = .fallthrough) : e.target ∈ a.starts seeds := by
  obtain ⟨d, -, hkept, rfl⟩ := mem_edges_ofAnalysis_iff.mp he
  rcases hkept with hne | hstart
  · exact absurd hk hne
  · exact hstart

/-- Edges of the graph lead to starts, as far as the code was visited. -/
theorem target_mem_starts (he : e ∈ (Graph.ofAnalysis a seeds).edges)
    (hv : e.target ∈ a.visited) : e.target ∈ a.starts seeds := by
  obtain ⟨d, hd, hkept, rfl⟩ := mem_edges_ofAnalysis_iff.mp he
  rcases hkept with hne | hstart
  · have hl : a.leads d = true := leads_iff.mpr (Or.inl hne)
    grind
  · exact hstart

section Traces

variable (h : a.Traces img entries)
include h

/-- **An edge between blocks comes from an edge that leaves its first block.** -/
theorem Traces.origin (hseeds : ∀ x ∈ entries, x ∈ seeds)
    (he : e ∈ (Graph.ofAnalysis a seeds).edges) :
    ∃ b ∈ a.blocks (a.starts seeds), b.start = e.source ∧
      ∃ d ∈ a.edges, b.contains d.source = true ∧ d.target = e.target ∧ d.kind = e.kind := by
  obtain ⟨d, hd, -, rfl⟩ := mem_edges_ofAnalysis_iff.mp he
  obtain ⟨b, hb, hx⟩ := h.exists_block hseeds ((h.edges_iff d).mp hd).1
  exact ⟨b, hb, (h.owner_eq hb hx).symm, d, hd, hx, rfl, rfl⟩

/-- **An edge to a start is an edge between blocks.** -/
theorem Traces.mem_edges_of_start (hb : b ∈ a.blocks (a.starts seeds)) (hd : d ∈ a.edges)
    (hx : b.contains d.source = true) (hstart : d.target ∈ a.starts seeds) :
    ⟨b.start, d.target, d.kind⟩ ∈ (Graph.ofAnalysis a seeds).edges := by
  have howner := h.owner_eq hb hx
  grind

/-! ## Edges that are left out -/

/-- Running on to the next instruction of the same block goes to no start. -/
theorem Traces.target_not_mem_starts (hb : b ∈ a.blocks (a.starts seeds)) (hd : d ∈ a.edges)
    (hk : d.kind = .fallthrough) (hx : b.contains d.source = true)
    (ht : b.contains d.target = true) : d.target ∉ a.starts seeds := by
  intro hstart
  obtain ⟨hv, w, -, hedge⟩ := (h.edges_iff d).mp hd
  obtain ⟨-, hnext, -⟩ := Site.of_fallthrough (s := ⟨d.source, w⟩) hedge hk
  have hfirst : d.target = b.start := (h.swept hb).eq_start_of_contains ht hstart
  have htwo := h.toNat_next hv
  -- the next word does not stand before the block
  dsimp only at hnext
  rw [← hnext, hfirst] at htwo
  rw [Block.contains_iff] at hx
  omega

/--
**An edge is an edge between blocks unless it runs on**, inside its block or to a place that was not
visited.
-/
theorem Traces.mem_edges_of_block_iff (hb : b ∈ a.blocks (a.starts seeds)) (hd : d ∈ a.edges)
    (hx : b.contains d.source = true) :
    ⟨b.start, d.target, d.kind⟩ ∈ (Graph.ofAnalysis a seeds).edges ↔
      d.kind ≠ .fallthrough ∨ (d.target ∈ a.visited ∧ b.contains d.target ≠ true) := by
  by_cases hk : d.kind = .fallthrough
  · constructor
    · intro he
      have hstart := target_mem_starts_of_fallthrough (e := ⟨b.start, d.target, d.kind⟩) he hk
      refine Or.inr ⟨(mem_starts_iff.mp hstart).1, fun ht => ?_⟩
      exact h.target_not_mem_starts hb hd hk hx ht hstart
    · rintro (hne | ⟨hv, hout⟩)
      · exact absurd hk hne
      · by_cases hstart : d.target ∈ a.starts seeds
        · exact h.mem_edges_of_start hb hd hx hstart
        · exact absurd (h.runs_on_inside hb hd hx hv hstart).2.2 hout
  · constructor
    · intro _
      exact Or.inl hk
    · intro _
      have howner := h.owner_eq hb hx
      grind

theorem Traces.not_mem_visited_of_data (hx : x ∈ a.data) : x ∉ a.visited := by
  intro hv
  obtain ⟨w, hw, hd⟩ := h.word x hv
  rw [h.not_decodes hx hw] at hd
  cases hd

/-- Data that is no entry was found along an edge. -/
theorem Traces.exists_edge_of_data (hx : x ∈ a.data) (hne : x ∉ entries) :
    ∃ d ∈ a.edges, d.target = x := by
  cases h.discovered x (Or.inr hx) with
  | entry he => exact absurd he hne
  | edge he _ => exact ⟨_, he, rfl⟩

/-- **Data has an edge between blocks only if control goes there other than by running on.** -/
theorem Traces.exists_graph_edge_of_data_iff (hx : x ∈ a.data) :
    (∃ e ∈ (Graph.ofAnalysis a seeds).edges, e.target = x) ↔
      ∃ d ∈ a.edges, d.kind ≠ .fallthrough ∧ d.target = x := by
  constructor
  · rintro ⟨e, he, rfl⟩
    obtain ⟨d, hd, hne | hstart, rfl⟩ := mem_edges_ofAnalysis_iff.mp he
    · exact ⟨d, hd, hne, rfl⟩
    · exact absurd (mem_starts_iff.mp hstart).1 (h.not_mem_visited_of_data hx)
  · rintro ⟨d, hd, hne, rfl⟩
    exact ⟨_, mem_edges_ofAnalysis_iff.mpr ⟨d, hd, Or.inl hne, rfl⟩, rfl⟩

end Traces

end Analysis

/-! ## The graph of a program -/

namespace Graph

open Analysis

/--
The edges between the blocks tell what the edges of the analysis tell.

They are told apart by the short names of their kinds, as they are in reports.
-/
structure Faithful (g : Graph) (a : Analysis) : Prop where
  distinct : (g.edges.map fun e => (e.source, e.target, e.kind.tag)).Nodup
  source : ∀ e ∈ g.edges, ∃ b ∈ g.blocks, b.start = e.source ∧
    ∃ d ∈ a.edges, d.source ∈ b.addresses ∧ d.target = e.target ∧ d.kind = e.kind
  target : ∀ e ∈ g.edges, (∃ c ∈ g.blocks, c.start = e.target) ∨ e.target ∉ a.visited
  fallthrough : ∀ e ∈ g.edges, e.kind = .fallthrough → ∃ c ∈ g.blocks, c.start = e.target
  complete : ∀ d ∈ a.edges, d.target ∈ a.visited →
    (d.kind = .fallthrough ∧ d.target = Word.next d.source ∧
      ∃ b ∈ g.blocks, d.source ∈ b.addresses ∧ d.target ∈ b.addresses) ∨
    ∃ b ∈ g.blocks, d.source ∈ b.addresses ∧ ⟨b.start, d.target, d.kind⟩ ∈ g.edges

variable {program : Bytes} {base : Address} {img : Image}

/-- **Edges between blocks are faithful**, for any budget and any seeds among which the entries are. -/
theorem edges_faithful (himg : Image.ofProgram program base = .ok img) (entries : List Address)
    (budget : Nat) {seeds : List Address} (hseeds : ∀ x ∈ entries, x ∈ seeds) :
    ∃ a, img.analyze entries budget = .ok a ∧ (ofAnalysis a seeds).Faithful a := by
  obtain ⟨a, ha⟩ := Image.exists_analyze himg entries budget
  have h := Image.traces_of_analyze ha
  refine ⟨a, ha, ?_⟩
  constructor
  case distinct => exact List.Nodup.map Edge.tagged_injective (nodup_eraseDups _)
  case source =>
    intro e he
    obtain ⟨b, hb, hs, d, hd, hx, hrest⟩ := h.origin hseeds he
    exact ⟨b, hb, hs, d, hd, Block.mem_addresses_iff.mpr hx, hrest⟩
  case target =>
    intro e he
    by_cases hv : e.target ∈ a.visited
    · exact Or.inl (exists_block_of_start (target_mem_starts he hv))
    · exact Or.inr hv
  case fallthrough =>
    intro e he hk
    exact exists_block_of_start (target_mem_starts_of_fallthrough he hk)
  case complete =>
    intro d hd hv
    obtain ⟨b, hb, hx⟩ := h.exists_block hseeds ((h.edges_iff d).mp hd).1
    by_cases hstart : d.target ∈ a.starts seeds
    · exact Or.inr ⟨b, hb, Block.mem_addresses_iff.mpr hx, h.mem_edges_of_start hb hd hx hstart⟩
    · obtain ⟨hk, ht, hin⟩ := h.runs_on_inside hb hd hx hv hstart
      exact Or.inl ⟨hk, ht, b, hb, Block.mem_addresses_iff.mpr hx, Block.mem_addresses_iff.mpr hin⟩

/-- Two calls of one subroutine from one block, a skip, and a jump to an unmapped address. -/
theorem edges_faithful_calls :
    ∃ img, Image.ofProgram
        #[0x22, 0x0A, 0x22, 0x0A, 0x30, 0x01, 0x12, 0x00, 0x13, 0x00, 0x00, 0xEE] 0x200 = .ok img ∧
      (∀ x ∈ [(0x200 : Address)], x ∈ [(0x200 : Address), 0x204]) ∧
      ∃ a, img.analyze [0x200] Machine.memorySize = .ok a ∧
        (ofAnalysis a [0x200, 0x204]).Faithful a := by
  have himg : Image.ofProgram
      #[0x22, 0x0A, 0x22, 0x0A, 0x30, 0x01, 0x12, 0x00, 0x13, 0x00, 0x00, 0xEE] 0x200 = .ok _ := rfl
  have hseeds : ∀ x ∈ [(0x200 : Address)], x ∈ [(0x200 : Address), 0x204] := by
    intro x hx
    exact List.mem_append_left [0x204] hx
  exact ⟨_, himg, hseeds, edges_faithful himg [0x200] Machine.memorySize hseeds⟩

/--
**Which edges the graph leaves out**, for any budget and any seeds among which the entries are.

It leaves out what runs on inside a block, and also what runs on to a place that was not visited, such as a
word that does not decode. So data that control only runs into has no edge, though an edge of the analysis
leads there.
-/
theorem edges_left_out_iff (himg : Image.ofProgram program base = .ok img) (entries : List Address)
    (budget : Nat) {seeds : List Address} (hseeds : ∀ x ∈ entries, x ∈ seeds) :
    ∃ a, img.analyze entries budget = .ok a ∧
      (∀ d ∈ a.edges, ∃ b ∈ (ofAnalysis a seeds).blocks, d.source ∈ b.addresses ∧
        (⟨b.start, d.target, d.kind⟩ ∉ (ofAnalysis a seeds).edges ↔
          d.kind = .fallthrough ∧ (d.target ∈ b.addresses ∨ d.target ∉ a.visited))) ∧
      ∀ x ∈ a.data, (x ∉ entries → ∃ d ∈ a.edges, d.target = x) ∧
        ((∃ e ∈ (ofAnalysis a seeds).edges, e.target = x) ↔
          ∃ d ∈ a.edges, d.kind ≠ .fallthrough ∧ d.target = x) := by
  obtain ⟨a, ha⟩ := Image.exists_analyze himg entries budget
  have h := Image.traces_of_analyze ha
  refine ⟨a, ha, ?_, ?_⟩
  · intro d hd
    obtain ⟨b, hb, hx⟩ := h.exists_block hseeds ((h.edges_iff d).mp hd).1
    refine ⟨b, hb, Block.mem_addresses_iff.mpr hx, ?_⟩
    rw [h.mem_edges_of_block_iff hb hd hx, Block.mem_addresses_iff, not_or, not_not, not_and_or,
      not_not, or_comm]
  · intro x hx
    exact ⟨h.exists_edge_of_data hx, h.exists_graph_edge_of_data_iff hx⟩

/-- A skip over data, a jump to other data behind which code runs into it, and a second seed. -/
theorem edges_left_out_iff_data :
    ∃ img, Image.ofProgram
        #[0x30, 0x00, 0xFF, 0xFF, 0x60, 0x01, 0x12, 0x0A, 0x60, 0x02, 0xFF, 0xFF] 0x200 = .ok img ∧
      (∀ x ∈ [(0x200 : Address)], x ∈ [(0x200 : Address), 0x208]) ∧
      ∃ a, img.analyze [0x200] Machine.memorySize = .ok a ∧
        (∀ d ∈ a.edges, ∃ b ∈ (ofAnalysis a [0x200, 0x208]).blocks, d.source ∈ b.addresses ∧
          (⟨b.start, d.target, d.kind⟩ ∉ (ofAnalysis a [0x200, 0x208]).edges ↔
            d.kind = .fallthrough ∧ (d.target ∈ b.addresses ∨ d.target ∉ a.visited))) ∧
        ∀ x ∈ a.data, (x ∉ [(0x200 : Address)] → ∃ d ∈ a.edges, d.target = x) ∧
          ((∃ e ∈ (ofAnalysis a [0x200, 0x208]).edges, e.target = x) ↔
            ∃ d ∈ a.edges, d.kind ≠ .fallthrough ∧ d.target = x) := by
  have himg : Image.ofProgram
      #[0x30, 0x00, 0xFF, 0xFF, 0x60, 0x01, 0x12, 0x0A, 0x60, 0x02, 0xFF, 0xFF] 0x200 = .ok _ := rfl
  have hseeds : ∀ x ∈ [(0x200 : Address)], x ∈ [(0x200 : Address), 0x208] := by
    intro x hx
    exact List.mem_append_left [0x208] hx
  exact ⟨_, himg, hseeds, edges_left_out_iff himg [0x200] Machine.memorySize hseeds⟩

/--
An edge may be lost though it does not run on inside a block: here control runs into a word that does not
decode, and the graph has no edge there.
-/
theorem edge_to_data_left_out :
    ∃ img, Image.ofProgram #[0x60, 0x01, 0xFF, 0xFF] 0x200 = .ok img ∧
      ∃ a, img.analyze [0x200] Machine.memorySize = .ok a ∧
        ¬ (∀ d ∈ a.edges,
          (d.kind = .fallthrough ∧ ∃ b ∈ (ofAnalysis a [0x200]).blocks,
            d.source ∈ b.addresses ∧ d.target ∈ b.addresses) ∨
          ∃ b ∈ (ofAnalysis a [0x200]).blocks, d.source ∈ b.addresses ∧
            ⟨b.start, d.target, d.kind⟩ ∈ (ofAnalysis a [0x200]).edges) ∧
        ¬ (∀ x ∈ a.data, x ∉ [(0x200 : Address)] →
          ∃ e ∈ (ofAnalysis a [0x200]).edges, e.target = x) := by
  have himg : Image.ofProgram #[0x60, 0x01, 0xFF, 0xFF] 0x200 =
      .ok ⟨[⟨"ROM Data", 0x200, #[0x60, 0x01, 0xFF, 0xFF], .all⟩], 0x200⟩ := rfl
  refine ⟨_, himg, ?_⟩
  generalize hp :
    (⟨[⟨"ROM Data", 0x200, #[0x60, 0x01, 0xFF, 0xFF], .all⟩], 0x200⟩ : Image) = img
  have hleaving : Site.edges img ⟨0x200, 0x6001⟩ = [⟨0x200, 0x202, .fallthrough⟩] := hp ▸ rfl
  have hwalk : (img.walk [0x200] Machine.memorySize).map (fun w => (w.sites, w.data)) =
      .ok ([⟨0x200, 0x6001⟩], [0x202]) := by
    have hword : img.word? 0x200 = some 0x6001 := hp ▸ rfl
    have hdata : img.word? 0x202 = some 0xFFFF := hp ▸ rfl
    have hdecode : (0x6001 : Word).decode?.isNone = false := rfl
    have hnot : (0xFFFF : Word).decode?.isNone = true := rfl
    have hin : ¬ Machine.memorySize ≤ 512 := by decide
    rw [Image.walk, show Machine.memorySize = 4095 + 1 from rfl, Walk.run]
    simp [Walk.run, Walk.start, Walk.addSite, Walk.addData, hword, hdata, hdecode, hnot, hleaving,
      hin, Except.map, Std.ExtTreeSet.mem_insert]
  obtain ⟨a, ha, -, hdata, hedges⟩ := Image.exists_analyze_of_walk hwalk
  have h := Image.traces_of_analyze ha
  have honly : a.edges = [⟨0x200, 0x202, .fallthrough⟩] := by
    rw [hedges]
    simp [hleaving]
  have hlast : (0x202 : Address) ∈ a.data := (hdata _).mpr List.mem_cons_self
  have hmissed : (0x202 : Address) ∉ a.visited := h.not_mem_visited_of_data hlast
  refine ⟨a, ha, ?_, ?_⟩
  · intro hall
    have hedge : ⟨0x200, 0x202, .fallthrough⟩ ∈ a.edges := by
      rw [honly]
      exact List.mem_cons_self
    rcases hall _ hedge with ⟨-, b, hb, -, ht⟩ | ⟨b, -, -, he⟩
    · exact hmissed ((h.swept hb).visited _ (Block.mem_addresses_iff.mp ht))
    · exact hmissed (mem_starts_iff.mp (target_mem_starts_of_fallthrough he rfl)).1
  · intro hall
    have hgraph := hall _ hlast (by decide)
    obtain ⟨d, hd, hne, -⟩ := (h.exists_graph_edge_of_data_iff hlast).mp hgraph
    rw [honly] at hd
    rw [List.mem_singleton.mp hd] at hne
    exact hne rfl

end Graph

end Chip8
