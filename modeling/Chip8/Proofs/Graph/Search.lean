import Chip8.Graph
import Chip8.Proofs.Address
import Mathlib.Logic.Relation

/-!
# Searching along edges

A function of a graph is found by a search along all edges but the calls. `Path` says without a search
what such edges lead to, for the edges between blocks as well as for those between instructions. The
search finds exactly that (`mem_reach_iff`): it keeps the invariant `Search`, and when its stack is empty
nothing that it has seen leads anywhere else.
-/

namespace Chip8.Graph

variable {edges : List Edge} {x y : Address}

/-! ## Paths -/

/-- An edge that is no call goes from `x` to `y`. -/
def Links (edges : List Edge) (x y : Address) : Prop :=
  ∃ e ∈ edges, e.kind ≠ .call ∧ e.source = x ∧ e.target = y

/-- Edges that are no calls lead from the one address to the other. -/
abbrev Path (edges : List Edge) : Address → Address → Prop := Relation.ReflTransGen (Links edges)

theorem links_of_mem {e : Edge} (he : e ∈ edges) (hk : e.kind ≠ .call) :
    Links edges e.source e.target :=
  ⟨e, he, hk, rfl, rfl⟩

/-! ## The targets of a source -/

theorem mem_foldl_targets {m : Std.ExtTreeMap Address (List Address)} :
    y ∈ (edges.foldl (fun m e => m.insert e.source (e.target :: m.getD e.source [])) m).getD x [] ↔
      y ∈ m.getD x [] ∨ ∃ e ∈ edges, e.source = x ∧ e.target = y := by
  induction edges generalizing m with
  | nil => simp
  | cons e edges ih =>
    rw [List.foldl_cons, ih, Std.ExtTreeMap.getD_insert]
    by_cases hs : e.source = x
    · rw [if_pos (by rw [hs]; exact Std.ReflCmp.compare_self), hs, List.mem_cons]
      simp [hs, or_assoc, or_left_comm, eq_comm]
    · rw [if_neg (by rw [Std.LawfulEqCmp.compare_eq_iff_eq]; exact hs)]
      simp [hs]

@[simp]
theorem mem_targets_iff : y ∈ (targets edges).getD x [] ↔ Links edges x y := by
  unfold targets Links
  rw [mem_foldl_targets]
  simp [and_assoc]

/-! ## The search -/

/-- What a search from `root` keeps: it has seen, or has on its stack, all that was found. -/
structure Search (next : Address → List Address) (root : Address) (stack : List Address)
    (seen : AddressSet) : Prop where
  rooted : root ∈ stack ∨ root ∈ seen
  found : ∀ x, x ∈ stack ∨ x ∈ seen → Relation.ReflTransGen (fun x y => y ∈ next x) root x
  closed : ∀ x ∈ seen, ∀ y ∈ next x, y ∈ stack ∨ y ∈ seen

namespace Search

variable {next : Address → List Address} {root a : Address} {stack : List Address}
  {seen : AddressSet}

theorem start (next : Address → List Address) (root : Address) : Search next root [root] ∅ where
  rooted := Or.inl List.mem_cons_self
  found x hx := by
    rcases hx with hx | hx
    · rw [List.mem_singleton.mp hx]
    · exact absurd hx Std.ExtTreeSet.not_mem_empty
  closed x hx := absurd hx Std.ExtTreeSet.not_mem_empty

theorem drop (h : Search next root (a :: stack) seen) (ha : a ∈ seen) :
    Search next root stack seen := by
  have hkeep : ∀ x, x ∈ a :: stack ∨ x ∈ seen → x ∈ stack ∨ x ∈ seen := by
    rintro x (hx | hx)
    · rcases List.mem_cons.mp hx with rfl | hx
      · exact Or.inr ha
      · exact Or.inl hx
    · exact Or.inr hx
  refine ⟨hkeep root h.rooted, ?_, ?_⟩
  · intro x hx
    exact h.found x (hx.imp_left (List.mem_cons_of_mem a))
  · intro x hx y hy
    exact hkeep y (h.closed x hx y hy)

theorem push (h : Search next root (a :: stack) seen) :
    Search next root (next a ++ stack) (seen.insert a) := by
  have ha : Relation.ReflTransGen (fun x y => y ∈ next x) root a :=
    h.found a (Or.inl List.mem_cons_self)
  have hkeep : ∀ x, x ∈ a :: stack ∨ x ∈ seen → x ∈ next a ++ stack ∨ x ∈ seen.insert a := by
    intro x hx
    rw [List.mem_cons, or_assoc] at hx
    rw [List.mem_append, AddressSet.mem_insert_iff]
    rcases hx with hx | hx | hx
    · exact Or.inr (Or.inl hx)
    · exact Or.inl (Or.inr hx)
    · exact Or.inr (Or.inr hx)
  refine ⟨hkeep root h.rooted, ?_, ?_⟩
  · intro x hx
    rw [List.mem_append, AddressSet.mem_insert_iff] at hx
    rcases hx with (hx | hx) | rfl | hx
    · exact ha.tail hx
    · exact h.found x (Or.inl (List.mem_cons_of_mem a hx))
    · exact ha
    · exact h.found x (Or.inr hx)
  · intro x hx y hy
    rcases AddressSet.mem_insert_iff.mp hx with rfl | hx
    · exact Or.inl (List.mem_append_left stack hy)
    · exact hkeep y (h.closed x hx y hy)

/-- **The search keeps the invariant until its stack is empty.** -/
theorem reach (h : Search next root stack seen) : Search next root [] (reach next stack seen) := by
  fun_induction Graph.reach next stack seen with
  | case1 seen => exact h
  | case2 seen a stack hmem ih => exact ih (h.drop hmem)
  | case3 seen a stack hmem ih => exact ih h.push

theorem mem_iff (h : Search next root [] seen) :
    x ∈ seen ↔ Relation.ReflTransGen (fun x y => y ∈ next x) root x := by
  have hstack : ∀ y, y ∈ [] ∨ y ∈ seen → y ∈ seen := by
    intro y hy
    exact hy.resolve_left List.not_mem_nil
  constructor
  · intro hx
    exact h.found x (Or.inr hx)
  · intro hx
    induction hx with
    | refl => exact hstack root h.rooted
    | tail _ hy ih => exact hstack _ (h.closed _ ih _ hy)

end Search

/-- **The search finds what edges that are no calls lead to.** -/
@[simp]
theorem mem_reach_iff {root : Address} :
    x ∈ reach (fun a => (targets edges).getD a []) [root] ∅ ↔ Path edges root x := by
  rw [(Search.start _ root).reach.mem_iff]
  have hlinks : (fun x y => y ∈ (targets edges).getD x []) = Links edges := by
    funext x y
    exact propext mem_targets_iff
  rw [hlinks]

/-! ## The order of the edges -/

theorem links_congr {edges edges' : List Edge} (h : ∀ e, e ∈ edges ↔ e ∈ edges') :
    Links edges = Links edges' := by
  funext x y
  unfold Links
  simp only [h]

/-- **What the search finds does not depend on the order of the edges.** -/
theorem reach_congr {edges edges' : List Edge} (h : ∀ e, e ∈ edges ↔ e ∈ edges')
    (root : Address) :
    reach (fun a => (targets edges).getD a []) [root] ∅ =
      reach (fun a => (targets edges').getD a []) [root] ∅ := by
  refine Std.ExtTreeSet.ext_mem fun x => ?_
  rw [mem_reach_iff, mem_reach_iff, Path, Path, links_congr h]

end Chip8.Graph
