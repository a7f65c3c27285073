import Chip8.Proofs.Analysis
import Mathlib.Data.List.Basic

/-!
# Edges and successors

The edges of an analysis come in groups, one for each visited address, in the order of the walk
(`Image.exists_order_of_analyze`). A group names the successors of the word in their order. The walk reads
both off the flow of the word, but it asks of the way to the next word whether that is mapped, and leaves
it out if not (`Site.edges_name_successors`).
-/

namespace Chip8

/-- The kinds of the ways that a flow knows, in the order of the successors. -/
def Flow.kinds : Flow → List Edge.Kind
  | next => [.fallthrough]
  | jump _ => [.branch]
  | call _ => [.call, .fallthrough]
  | skip .. => [.condBranch, .fallthrough]
  | ret | indirect => []

/-! ## The edges of one word -/

/--
The edges name the successors of the word `w` at `x`, in their order, and how control goes there.

Only running on to the next word may be missing. It is the last of the successors, and it is missing
exactly if the next word is not mapped.
-/
structure Word.NamesSuccessors (w : Word) (img : Image) (x : Address) (es : List Edge) : Prop where
  source : ∀ e ∈ es, e.source = x
  all : (w.flow x).runsOn = false ∨ img.maps (Word.next x) = true →
    es.map Edge.target = w.successors x ∧ es.map Edge.kind = (w.flow x).kinds
  allButLast : (w.flow x).runsOn = true → img.maps (Word.next x) = false →
    es.map Edge.target ++ [Word.next x] = w.successors x ∧
      es.map Edge.kind ++ [.fallthrough] = (w.flow x).kinds

namespace Site

variable {img : Image}

theorem runOn_of_maps {s : Site} {t : Address} (h : img.maps t = true) :
    s.runOn img t = [⟨s.address, t, .fallthrough⟩] :=
  if_pos h

theorem runOn_of_not_maps {s : Site} {t : Address} (h : img.maps t = false) :
    s.runOn img t = [] :=
  if_neg (by rw [h]; decide)

/-- **The edges of a site name the successors of its word.** -/
theorem edges_name_successors (img : Image) (s : Site) :
    s.word.NamesSuccessors img s.address (s.edges img) where
  source _ he := source_of_mem_edges he
  all hor := by
    unfold edges Word.successors flow
    cases hf : s.word.flow s.address with
    | jump t | ret | indirect => exact ⟨rfl, rfl⟩
    | next | call t =>
      have hm := hor.resolve_left (by rw [hf]; simp [Flow.runsOn])
      dsimp only
      rw [runOn_of_maps hm]
      exact ⟨rfl, rfl⟩
    | skip taken passed =>
      obtain ⟨-, rfl⟩ := Word.flow_eq_skip hf
      have hm := hor.resolve_left (by rw [hf]; simp [Flow.runsOn])
      dsimp only
      rw [runOn_of_maps hm]
      exact ⟨rfl, rfl⟩
  allButLast hruns hm := by
    unfold edges Word.successors flow
    cases hf : s.word.flow s.address with
    | jump t | ret | indirect =>
      rw [hf] at hruns
      cases hruns
    | next | call t =>
      dsimp only
      rw [runOn_of_not_maps hm]
      exact ⟨rfl, rfl⟩
    | skip taken passed =>
      obtain ⟨-, rfl⟩ := Word.flow_eq_skip hf
      dsimp only
      rw [runOn_of_not_maps hm]
      exact ⟨rfl, rfl⟩

end Site

/-- The edges that leave the word at an address, if a word starts there. -/
def Image.edgesAt (img : Image) (x : Address) : List Edge :=
  (img.word? x).elim [] fun w => Site.edges img ⟨x, w⟩

theorem Image.edgesAt_eq {img : Image} {x : Address} {w : Word} (hw : img.word? x = some w) :
    img.edgesAt x = Site.edges img ⟨x, w⟩ := by
  unfold edgesAt
  rw [hw]
  rfl

theorem Image.source_of_mem_edgesAt {img : Image} {x : Address} {e : Edge}
    (he : e ∈ img.edgesAt x) : e.source = x := by
  cases hw : img.word? x with
  | none =>
    unfold edgesAt at he
    rw [hw] at he
    cases he
  | some w =>
    rw [edgesAt_eq hw] at he
    exact Site.source_of_mem_edges he

/-! ## Groups -/

namespace Analysis

/-- The edges that leave an address, in their order. -/
def leaving (a : Analysis) (x : Address) : List Edge := a.edges.filter (·.source == x)

end Analysis

/-- Among the edges of different addresses, those that leave one of them are its own. -/
theorem filter_flatMap_edgesAt {img : Image} {order : List Address} {x : Address}
    (hnodup : order.Nodup) (hx : x ∈ order) :
    (order.flatMap img.edgesAt).filter (·.source == x) = img.edgesAt x := by
  induction order with
  | nil => cases hx
  | cons y order ih =>
    obtain ⟨hy, hnodup⟩ := List.nodup_cons.mp hnodup
    rw [List.flatMap_cons, List.filter_append]
    by_cases hxy : x = y
    · -- no edge of the others leaves this address
      have hown : (img.edgesAt y).filter (·.source == x) = img.edgesAt y := by
        refine List.filter_eq_self.mpr fun e he => ?_
        rw [Image.source_of_mem_edgesAt he, hxy]
        exact beq_self_eq_true y
      have hothers : (order.flatMap img.edgesAt).filter (·.source == x) = [] := by
        refine List.filter_eq_nil_iff.mpr fun e he hsource => ?_
        obtain ⟨z, hz, he⟩ := List.mem_flatMap.mp he
        rw [Image.source_of_mem_edgesAt he, hxy, beq_iff_eq] at hsource
        rw [hsource] at hz
        exact hy hz
      rw [hown, hothers, List.append_nil, hxy]
    · have hnone : (img.edgesAt y).filter (·.source == x) = [] := by
        refine List.filter_eq_nil_iff.mpr fun e he hsource => ?_
        rw [Image.source_of_mem_edgesAt he, beq_iff_eq] at hsource
        exact hxy hsource.symm
      rw [hnone, List.nil_append, ih hnodup ((List.mem_cons.mp hx).resolve_left hxy)]

namespace Image

open Analysis

variable {img : Image} {entries : List Address} {budget : Nat} {a : Analysis}

/-- **The edges follow the order in which the addresses were visited**, each of them once. -/
theorem exists_order_of_analyze (h : img.analyze entries budget = .ok a) :
    ∃ order : List Address, order.Perm a.visited.toList ∧ a.edges = order.flatMap img.edgesAt := by
  obtain ⟨s, hinv, -, rfl⟩ := exists_final_of_analyze h
  refine ⟨s.walk.sites.reverse.map Site.address, perm_visited_ofWalk hinv.sound, ?_⟩
  rw [List.flatMap_map]
  refine List.flatMap_congr fun site hsite => ?_
  exact (edgesAt_eq (hinv.sound.word site (List.mem_reverse.mp hsite))).symm

/-- The edges that leave a visited address are those of its word. -/
theorem leaving_eq_edgesAt (h : img.analyze entries budget = .ok a) {x : Address}
    (hx : x ∈ a.visited) : a.leaving x = img.edgesAt x := by
  obtain ⟨order, horder, hedges⟩ := exists_order_of_analyze h
  have hnodup : order.Nodup := horder.nodup_iff.mpr (AddressSet.nodup_toList _)
  unfold leaving
  rw [hedges]
  exact filter_flatMap_edgesAt hnodup (horder.mem_iff.mpr (Std.ExtTreeSet.mem_toList.mpr hx))

end Image

/-! ## The analysis of a program -/

/--
The analysis tells of the visited words what their successors and flows tell.

Its edges are groups that stand one behind the other, one for each visited address, which may be empty.
-/
structure Analysis.Summarizes (a : Analysis) (img : Image) : Prop where
  grouped : ∃ order : List Address, order.Perm a.visited.toList ∧
    a.edges = order.flatMap a.leaving
  names : ∀ x ∈ a.visited, ∃ w, img.word? x = some w ∧ w.NamesSuccessors img x (a.leaving x)
  terminators_iff : ∀ x, x ∈ a.terminators ↔
    x ∈ a.visited ∧ ∃ w, img.word? x = some w ∧ w.flow x ≠ .next ∧ ∀ t, w.flow x ≠ .call t
  returns_iff : ∀ x, x ∈ a.returns ↔ x ∈ a.visited ∧ ∃ w, img.word? x = some w ∧ w.flow x = .ret
  indirect_iff : ∀ x, x ∈ a.indirect ↔
    x ∈ a.visited ∧ ∃ w, img.word? x = some w ∧ w.flow x = .indirect
  callTargets_iff : ∀ x, x ∈ a.callTargets ↔ ∃ e ∈ a.edges, e.kind = .call ∧ e.target = x

theorem Flow.isTerminator_iff {f : Flow} :
    f.isTerminator = true ↔ f ≠ .next ∧ ∀ t, f ≠ .call t := by
  cases f <;> simp [isTerminator]

namespace Image

open Analysis

/-- **The walk agrees with the successors of the words**, for any budget. -/
theorem analyze_summarizes {program : Bytes} {base : Address} {img : Image}
    (himg : ofProgram program base = .ok img) (entries : List Address) (budget : Nat) :
    ∃ a, img.analyze entries budget = .ok a ∧ a.Summarizes img := by
  obtain ⟨a, ha⟩ := exists_analyze himg entries budget
  have h := traces_of_analyze ha
  refine ⟨a, ha, ?_⟩
  constructor
  case grouped =>
    obtain ⟨order, horder, hedges⟩ := exists_order_of_analyze ha
    refine ⟨order, horder, ?_⟩
    have hgroups : order.flatMap a.leaving = order.flatMap img.edgesAt := by
      refine List.flatMap_congr fun x hx => leaving_eq_edgesAt ha ?_
      exact Std.ExtTreeSet.mem_toList.mp (horder.mem_iff.mp hx)
    rw [hgroups]
    exact hedges
  case names =>
    intro x hx
    obtain ⟨w, hw, -⟩ := h.word x hx
    refine ⟨w, hw, ?_⟩
    rw [leaving_eq_edgesAt ha hx, edgesAt_eq hw]
    exact Site.edges_name_successors img ⟨x, w⟩
  case terminators_iff =>
    intro x
    rw [h.terminators_iff]
    simp only [Flow.isTerminator_iff]
  case returns_iff => exact h.returns_iff
  case indirect_iff => exact h.indirect_iff
  case callTargets_iff => exact h.callTargets_iff

/-- A call of the next word, where the program ends, and an entry that is given twice. -/
theorem analyze_summarizes_call_end :
    ∃ img, ofProgram #[0x30, 0x00, 0x12, 0x00, 0x22, 0x06] 0x200 = .ok img ∧
      ∃ a, img.analyze [0x200, 0x202, 0x200] 3 = .ok a ∧ a.Summarizes img := by
  have himg : ofProgram #[0x30, 0x00, 0x12, 0x00, 0x22, 0x06] 0x200 = .ok _ := rfl
  exact ⟨_, himg, analyze_summarizes himg [0x200, 0x202, 0x200] 3⟩

end Image

end Chip8
