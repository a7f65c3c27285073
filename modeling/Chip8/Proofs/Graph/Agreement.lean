import Chip8.Proofs.Graph.Edges
import Chip8.Proofs.Graph.Search

/-!
# The order in which edges were found

Two analyses agree if they found the same, perhaps in another order. The order shows only in the list of
edges. Graphs of analyses that agree, with seeds that are the same but for their order, agree again: the
starts depend on the members of that list alone, and blocks and functions depend on the starts. What may
differ is the order of the edges between the blocks.
-/

namespace Chip8

/-- Both analyses found the same, in whatever order. -/
structure Analysis.Agrees (a b : Analysis) : Prop where
  visited : a.visited = b.visited
  data : a.data = b.data
  terminators : a.terminators = b.terminators
  returns : a.returns = b.returns
  indirect : a.indirect = b.indirect
  callTargets : a.callTargets = b.callTargets
  edges : a.edges.Perm b.edges

/-- Both graphs are the same but for the order of the edges. -/
structure Graph.Agrees (g h : Graph) : Prop where
  blocks : g.blocks = h.blocks
  functions : g.functions = h.functions
  edges : g.edges.Perm h.edges

namespace Analysis.Agrees

variable {a b : Analysis} {seeds seeds' : List Address} {starts : AddressSet} {x : Address}
  {e : Edge} (h : a.Agrees b)
include h

/-! ## Blocks -/

theorem leads_iff : a.leads e = true ↔ b.leads e = true := by
  rw [Analysis.leads_iff, Analysis.leads_iff, h.terminators]

theorem starts_eq (hseeds : ∀ x, x ∈ seeds ↔ x ∈ seeds') : a.starts seeds = b.starts seeds' := by
  refine Std.ExtTreeSet.ext_mem fun x => ?_
  rw [mem_starts_iff, mem_starts_iff, h.visited, hseeds]
  simp only [h.edges.mem_iff, h.leads_iff]

/-- A sweep looks at the visited addresses and the terminators only. -/
theorem runEnd_eq (starts : AddressSet) (cur : Address) :
    a.runEnd starts cur = b.runEnd starts cur := by
  fun_induction runEnd a starts cur with
  | case1 cur next hgo ih =>
    rw [h.visited, h.terminators] at hgo
    rw [ih, runEnd.eq_1 b starts cur, dif_pos hgo]
  | case2 cur next hstop =>
    rw [h.visited, h.terminators] at hstop
    rw [runEnd.eq_1 b starts cur, dif_neg hstop]

theorem blocks_eq : a.blocks starts = b.blocks starts := by
  unfold Analysis.blocks
  refine List.map_congr_left fun s _ => ?_
  rw [h.runEnd_eq]

/-! ## Edges and functions -/

variable (hseeds : ∀ x, x ∈ seeds ↔ x ∈ seeds')
include hseeds

theorem mem_graph_edges_iff :
    e ∈ (Graph.ofAnalysis a seeds).edges ↔ e ∈ (Graph.ofAnalysis b seeds').edges := by
  rw [mem_edges_ofAnalysis_iff, mem_edges_ofAnalysis_iff, h.starts_eq hseeds, h.blocks_eq]
  simp only [h.edges.mem_iff]

/-- Equal edges were made one, so the edges are the same as soon as their members are. -/
theorem graph_edges_perm :
    (Graph.ofAnalysis a seeds).edges.Perm (Graph.ofAnalysis b seeds').edges :=
  (List.perm_ext_iff_of_nodup (nodup_eraseDups _) (nodup_eraseDups _)).mpr fun _ =>
    h.mem_graph_edges_iff hseeds

theorem roots_eq :
    AddressSet.ofList ((seeds ++ a.callTargets.toList).filter (· ∈ a.starts seeds)) =
      AddressSet.ofList ((seeds' ++ b.callTargets.toList).filter (· ∈ b.starts seeds')) := by
  refine Std.ExtTreeSet.ext_mem fun x => ?_
  rw [h.starts_eq hseeds, h.callTargets]
  simp only [AddressSet.mem_ofList, List.mem_filter, List.mem_append, hseeds]

theorem functions_eq :
    (Graph.ofAnalysis a seeds).functions = (Graph.ofAnalysis b seeds').functions := by
  unfold Graph.ofAnalysis
  dsimp only
  rw [h.roots_eq hseeds]
  refine List.map_congr_left fun entry _ => ?_
  have hreach := Graph.reach_congr (fun _ => h.mem_graph_edges_iff hseeds) entry
  unfold Graph.ofAnalysis at hreach
  dsimp only at hreach
  rw [hreach, h.starts_eq hseeds]

/-- **Graphs of analyses that agree agree.** -/
theorem graph : (Graph.ofAnalysis a seeds).Agrees (Graph.ofAnalysis b seeds') where
  blocks := by
    show a.blocks (a.starts seeds) = b.blocks (b.starts seeds')
    rw [h.starts_eq hseeds, h.blocks_eq]
  functions := h.functions_eq hseeds
  edges := h.graph_edges_perm hseeds

end Analysis.Agrees

end Chip8
