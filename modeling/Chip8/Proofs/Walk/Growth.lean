import Chip8.Analysis
import Chip8.Proofs.Walk.Invariant

/-!
# How an analysis grows

What a walk tells can be put together while it walks. An instruction adds its address to the visited ones, its
edges behind those that are there, and its address, or the target of a call, to the sets that go with its kind
of flow (`Analysis.addSite`). An address whose word does not decode joins the data (`Analysis.addData`). This is
what the analysis of a walk is made of (`Analysis.ofWalk_addSite`, `Analysis.ofWalk_addData`), so what is shown
for one more instruction holds of the analysis of every walk.
-/

namespace Chip8

namespace Analysis

variable {img : Image} {w : Walk} {a : Analysis} {s : Site} {x y : Address}

/-! ## One more instruction -/

/-- Nothing has been found. -/
def empty : Analysis := ⟨∅, [], ∅, ∅, ∅, ∅, ∅⟩

/-- The analysis with one more instruction. -/
def addSite (a : Analysis) (img : Image) (s : Site) : Analysis :=
  let a := { a with visited := a.visited.insert s.address, edges := a.edges ++ s.edges img }
  match s.flow with
  | .next => a
  | .call target => { a with callTargets := a.callTargets.insert target }
  | .jump _ | .skip .. => { a with terminators := a.terminators.insert s.address }
  | .ret =>
    { a with
      returns := a.returns.insert s.address
      terminators := a.terminators.insert s.address }
  | .indirect =>
    { a with
      indirect := a.indirect.insert s.address
      terminators := a.terminators.insert s.address }

/-- The analysis with one more address whose word does not decode. -/
def addData (a : Analysis) (x : Address) : Analysis := { a with data := a.data.insert x }

section AddSite

@[simp]
theorem visited_addSite : (a.addSite img s).visited = a.visited.insert s.address := by
  unfold addSite
  cases s.flow <;> rfl

theorem mem_visited_addSite : x ∈ (a.addSite img s).visited ↔ x = s.address ∨ x ∈ a.visited := by
  rw [visited_addSite, AddressSet.mem_insert_iff]

@[simp]
theorem edges_addSite : (a.addSite img s).edges = a.edges ++ s.edges img := by
  unfold addSite
  cases s.flow <;> rfl

@[simp]
theorem data_addSite : (a.addSite img s).data = a.data := by
  unfold addSite
  cases s.flow <;> rfl

@[simp]
theorem mem_terminators_addSite :
    x ∈ (a.addSite img s).terminators ↔
      s.address = x ∧ s.flow.isTerminator = true ∨ x ∈ a.terminators := by
  unfold addSite
  cases s.flow <;> simp [Flow.isTerminator]

@[simp]
theorem mem_returns_addSite :
    x ∈ (a.addSite img s).returns ↔ s.address = x ∧ s.flow = .ret ∨ x ∈ a.returns := by
  unfold addSite
  cases s.flow <;> simp

@[simp]
theorem mem_indirect_addSite :
    x ∈ (a.addSite img s).indirect ↔ s.address = x ∧ s.flow = .indirect ∨ x ∈ a.indirect := by
  unfold addSite
  cases s.flow <;> simp

@[simp]
theorem mem_callTargets_addSite :
    x ∈ (a.addSite img s).callTargets ↔ s.flow = .call x ∨ x ∈ a.callTargets := by
  unfold addSite
  cases s.flow <;> simp

end AddSite

@[simp]
theorem mem_data_addData : y ∈ (a.addData x).data ↔ y = x ∨ y ∈ a.data :=
  AddressSet.mem_insert_iff

/-! ## The analysis of a walk -/

section OfWalk

@[simp]
theorem edges_ofWalk : (ofWalk img w).edges = w.edges img := rfl

@[simp]
theorem mem_visited_ofWalk : x ∈ (ofWalk img w).visited ↔ ∃ s ∈ w.sites, s.address = x := by
  simp [ofWalk]

@[simp]
theorem mem_data_ofWalk : x ∈ (ofWalk img w).data ↔ x ∈ w.data := AddressSet.mem_ofList

@[simp]
theorem mem_addressesWhere_iff {sites : List Site} {p : Flow → Bool} :
    x ∈ addressesWhere sites p ↔ ∃ s ∈ sites, s.address = x ∧ p s.flow = true := by
  simp [addressesWhere, and_assoc, and_comm (a := p _ = true)]

@[simp]
theorem mem_terminators_ofWalk :
    x ∈ (ofWalk img w).terminators ↔ ∃ s ∈ w.sites, s.address = x ∧ s.flow.isTerminator = true := by
  simp [ofWalk]

@[simp]
theorem mem_returns_ofWalk :
    x ∈ (ofWalk img w).returns ↔ ∃ s ∈ w.sites, s.address = x ∧ s.flow = .ret := by
  simp [ofWalk]

@[simp]
theorem mem_indirect_ofWalk :
    x ∈ (ofWalk img w).indirect ↔ ∃ s ∈ w.sites, s.address = x ∧ s.flow = .indirect := by
  simp [ofWalk]

@[simp]
theorem mem_callTargets_ofWalk :
    x ∈ (ofWalk img w).callTargets ↔ ∃ s ∈ w.sites, s.flow = .call x := by
  have hedges : x ∈ (ofWalk img w).callTargets ↔
      ∃ e ∈ w.edges img, e.kind = .call ∧ e.target = x := by
    simp [ofWalk, and_assoc]
  simp only [hedges, Walk.mem_edges_iff, ← Site.exists_call_iff img]
  constructor
  · rintro ⟨e, ⟨s, hs, he⟩, hcall⟩
    exact ⟨s, hs, e, he, hcall⟩
  · rintro ⟨s, hs, e, he, hcall⟩
    exact ⟨e, ⟨s, hs, he⟩, hcall⟩

end OfWalk

theorem ofWalk_start (img : Image) : ofWalk img .start = empty := rfl

/-- An analysis is known by its edges and by the members of its sets. -/
theorem ext_mem {b : Analysis} (hedges : a.edges = b.edges)
    (hvisited : ∀ x, x ∈ a.visited ↔ x ∈ b.visited) (hdata : ∀ x, x ∈ a.data ↔ x ∈ b.data)
    (hterminators : ∀ x, x ∈ a.terminators ↔ x ∈ b.terminators)
    (hreturns : ∀ x, x ∈ a.returns ↔ x ∈ b.returns)
    (hindirect : ∀ x, x ∈ a.indirect ↔ x ∈ b.indirect)
    (hcallTargets : ∀ x, x ∈ a.callTargets ↔ x ∈ b.callTargets) : a = b := by
  cases a
  cases b
  simp only [mk.injEq]
  exact ⟨Std.ExtTreeSet.ext_mem hvisited, hedges, Std.ExtTreeSet.ext_mem hterminators,
    Std.ExtTreeSet.ext_mem hreturns, Std.ExtTreeSet.ext_mem hindirect, Std.ExtTreeSet.ext_mem hdata,
    Std.ExtTreeSet.ext_mem hcallTargets⟩

/-- **An instruction that a walk finds is added to its analysis.** -/
theorem ofWalk_addSite (img : Image) (w : Walk) (s : Site) :
    ofWalk img (w.addSite s) = (ofWalk img w).addSite img s := by
  apply ext_mem <;> simp

/-- **So is a word that does not decode.** -/
theorem ofWalk_addData (img : Image) (w : Walk) (x : Address) :
    ofWalk img (w.addData x) = (ofWalk img w).addData x := by
  refine ext_mem rfl (fun _ => Iff.rfl) (fun y => ?_) (fun _ => Iff.rfl) (fun _ => Iff.rfl)
    (fun _ => Iff.rfl) fun _ => Iff.rfl
  simp only [mem_data_addData, mem_data_ofWalk]
  exact List.mem_cons

end Analysis

end Chip8
