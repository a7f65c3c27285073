import Chip8.Proofs.Execution
import Chip8.Proofs.Graph.Functions

/-!
# Calls and functions

A machine that remembers of every call under way where it began has frames for its calls. Forgetting the
beginnings leaves the machine of `Control`, and nothing is lost (`Frames.run_control_iff`). Where a frame
began, there begins a function of the graph, and that function has the blocks of all the places to which
control comes in the frame.

The graph has no stack: it takes it that a call comes back. So the invariant (`Frames.Tracked`) speaks of
the frames that wait as well, each at the place behind its call.
-/

namespace Chip8

/-- A call under way: where it began, and where control is in it or comes back to. -/
structure Frame where
  start : Address
  pc : Address

/-- The calls under way: the one that runs, and those that wait for it, the latest first. -/
structure Frames where
  top : Frame
  waiting : List Frame

namespace Frames

/-! ## The machine -/

/-- One step of the machine of `Control`, with frames. -/
inductive Step (flow? : Address → Option Flow) : Frames → Frames → Prop where
  | next {s pc : Address} {ws : List Frame} (h : flow? pc = some .next) :
      Step flow? ⟨⟨s, pc⟩, ws⟩ ⟨⟨s, Word.next pc⟩, ws⟩
  | jump {s pc t : Address} {ws : List Frame} (h : flow? pc = some (.jump t)) :
      Step flow? ⟨⟨s, pc⟩, ws⟩ ⟨⟨s, t⟩, ws⟩
  | call {s pc t : Address} {ws : List Frame} (h : flow? pc = some (.call t)) :
      Step flow? ⟨⟨s, pc⟩, ws⟩ ⟨⟨t, t⟩, ⟨s, Word.next pc⟩ :: ws⟩
  | ret {s pc : Address} {f : Frame} {ws : List Frame} (h : flow? pc = some .ret) :
      Step flow? ⟨⟨s, pc⟩, f :: ws⟩ ⟨f, ws⟩
  | taken {s pc taken passed : Address} {ws : List Frame}
      (h : flow? pc = some (.skip taken passed)) : Step flow? ⟨⟨s, pc⟩, ws⟩ ⟨⟨s, taken⟩, ws⟩
  | passed {s pc taken passed : Address} {ws : List Frame}
      (h : flow? pc = some (.skip taken passed)) : Step flow? ⟨⟨s, pc⟩, ws⟩ ⟨⟨s, passed⟩, ws⟩

abbrev Run (flow? : Address → Option Flow) : Frames → Frames → Prop :=
  Relation.ReflTransGen (Step flow?)

/-- The only frame of a program that begins at `e`. -/
def enter (e : Address) : Frames := ⟨⟨e, e⟩, []⟩

/-! ## Forgetting the beginnings -/

def control (s : Frames) : Control := ⟨s.top.pc, s.waiting.map Frame.pc⟩

section Control

variable {flow? : Address → Option Flow} {s t : Frames} {c d : Control}

theorem Step.control (h : Step flow? s t) : Control.Step flow? s.control t.control := by
  cases h with
  | next h => exact .next h
  | jump h => exact .jump h
  | call h => exact .call h
  | ret h => exact .ret h
  | taken h => exact .taken h
  | passed h => exact .passed h

theorem exists_step_of_control (h : Control.Step flow? s.control d) :
    ∃ t, Step flow? s t ∧ t.control = d := by
  obtain ⟨⟨b, pc⟩, ws⟩ := s
  generalize hc : control ⟨⟨b, pc⟩, ws⟩ = c at h
  cases h with
  | next h => cases hc; exact ⟨_, .next h, rfl⟩
  | jump h => cases hc; exact ⟨_, .jump h, rfl⟩
  | call h => cases hc; exact ⟨_, .call h, rfl⟩
  | taken h => cases hc; exact ⟨_, .taken h, rfl⟩
  | passed h => cases hc; exact ⟨_, .passed h, rfl⟩
  | ret h =>
    cases ws with
    | nil => cases hc
    | cons f ws => cases hc; exact ⟨_, .ret h, rfl⟩

/-- **Frames are what the machine does, and only remember more.** -/
theorem run_control_iff (s : Frames) (d : Control) :
    Control.Run flow? s.control d ↔ ∃ t, Run flow? s t ∧ t.control = d := by
  constructor
  · intro h
    induction h with
    | refl => exact ⟨s, .refl, rfl⟩
    | tail _ hstep ih =>
      obtain ⟨t, hrun, rfl⟩ := ih
      obtain ⟨u, hu, rfl⟩ := exists_step_of_control hstep
      exact ⟨u, hrun.tail hu, rfl⟩
  · rintro ⟨t, hrun, rfl⟩
    exact hrun.lift control fun _ _ => Step.control

end Control

end Frames

/-! ## Instructions and edges -/

namespace Analysis

variable {a : Analysis} {img : Image} {entries : List Address} {x : Address} {fl : Flow}

theorem Traces.mem_visited_of_flow? (h : a.Traces img entries) (hall : a.Exhausts img entries)
    (hx : x ∈ entries ∨ ∃ e ∈ a.edges, e.target = x) (hf : img.flow? x = some fl) :
    x ∈ a.visited := by
  obtain ⟨w, hw, hd, -⟩ := Image.flow?_eq_some_iff.mp hf
  exact h.mem_visited_of_decodes (hall x hx) hw hd

theorem Traces.mem_edges_of_flow? (h : a.Traces img entries) {e : Edge}
    (hv : e.source ∈ a.visited) (hf : img.flow? e.source = some fl)
    (hk : (e.kind = .branch ∧ fl = .jump e.target) ∨ (e.kind = .call ∧ fl = .call e.target) ∨
      (e.kind = .condBranch ∧ ∃ passed, fl = .skip e.target passed) ∨
      (e.kind = .fallthrough ∧ fl.runsOn = true ∧ e.target = Word.next e.source ∧
        img.maps e.target = true)) : e ∈ a.edges := by
  obtain ⟨w, hw, -, rfl⟩ := Image.flow?_eq_some_iff.mp hf
  exact (h.edges_iff e).mpr ⟨hv, w, hw, Site.mem_edges_iff.mpr ⟨rfl, hk⟩⟩

end Analysis

theorem Image.maps_of_flow? {img : Image} {x : Address} {fl : Flow} (h : img.flow? x = some fl) :
    img.maps x = true := by
  obtain ⟨w, hw, -, -⟩ := Image.flow?_eq_some_iff.mp h
  exact Image.maps_of_word? hw

/-! ## Frames and functions -/

section Tracked

variable {a : Analysis} {img : Image} {entries seeds : List Address} {s t : Frames}
  {b pc x : Address} {fl : Flow}

/-- If there is an instruction at the place of the frame, a path leads there from its beginning. -/
def Frame.Tracked (img : Image) (a : Analysis) (seeds : List Address) (f : Frame) : Prop :=
  ∀ fl, img.flow? f.pc = some fl →
    f.pc ∈ a.visited ∧ a.IsRoot seeds f.start ∧ Graph.Path a.edges f.start f.pc

structure Frames.Tracked (img : Image) (a : Analysis) (seeds : List Address) (s : Frames) :
    Prop where
  top : s.top.Tracked img a seeds
  waiting : ∀ f ∈ s.waiting, f.Tracked img a seeds

variable (h : a.Traces img entries) (hall : a.Exhausts img entries)
include h hall

theorem Frames.tracked_enter (hseeds : ∀ x ∈ entries, x ∈ seeds) (hx : x ∈ entries) :
    (enter x).Tracked img a seeds where
  top fl hf := by
    have hv : x ∈ a.visited := h.mem_visited_of_flow? hall (Or.inl hx) hf
    exact ⟨hv, ⟨hv, Or.inl (hseeds x hx)⟩, .refl⟩
  waiting _ hf := nomatch hf

/-- A frame stays on a path when control goes on in it. -/
theorem Frame.Tracked.goes (hf : Frame.Tracked img a seeds ⟨b, pc⟩)
    (hflow : img.flow? pc = some fl)
    (hx : fl = .jump x ∨ (∃ passed, fl = .skip x passed) ∨
      (fl.runsOn = true ∧ x = Word.next pc)) : Frame.Tracked img a seeds ⟨b, x⟩ := by
  intro flx hflx
  have hm : img.maps x = true := Image.maps_of_flow? hflx
  obtain ⟨hv, hr, hp⟩ := hf fl hflow
  have hedge : ∃ k : Edge.Kind, k ≠ .call ∧ ⟨pc, x, k⟩ ∈ a.edges := by
    rcases hx with hj | hs | ⟨hruns, hnext⟩
    · exact ⟨.branch, by decide, h.mem_edges_of_flow? hv hflow (Or.inl ⟨rfl, hj⟩)⟩
    · exact ⟨.condBranch, by decide,
        h.mem_edges_of_flow? hv hflow (Or.inr (Or.inr (Or.inl ⟨rfl, hs⟩)))⟩
    · exact ⟨.fallthrough, by decide,
        h.mem_edges_of_flow? hv hflow (Or.inr (Or.inr (Or.inr ⟨rfl, hruns, hnext, hm⟩)))⟩
  obtain ⟨k, hk, he⟩ := hedge
  have hvx : x ∈ a.visited := h.mem_visited_of_flow? hall (Or.inr ⟨_, he, rfl⟩) hflx
  exact ⟨hvx, hr, hp.tail (Graph.links_of_mem he hk)⟩

/-- A function begins where a frame begins. -/
theorem Frame.Tracked.calls (hf : Frame.Tracked img a seeds ⟨b, pc⟩)
    (hflow : img.flow? pc = some (.call x)) : Frame.Tracked img a seeds ⟨x, x⟩ := by
  intro flx hflx
  obtain ⟨hv, -, -⟩ := hf _ hflow
  have he : ⟨pc, x, .call⟩ ∈ a.edges :=
    h.mem_edges_of_flow? hv hflow (Or.inr (Or.inl ⟨rfl, rfl⟩))
  have hvx : x ∈ a.visited := h.mem_visited_of_flow? hall (Or.inr ⟨_, he, rfl⟩) hflx
  exact ⟨hvx, ⟨hvx, Or.inr ((h.callTargets_iff x).mpr ⟨_, he, rfl, rfl⟩)⟩, .refl⟩

/-- **A step keeps all frames on paths of their functions.** -/
theorem Frames.Tracked.step (hs : s.Tracked img a seeds) (hstep : Step img.flow? s t) :
    t.Tracked img a seeds := by
  obtain ⟨htop, hwaiting⟩ := hs
  cases hstep with
  | next hf => exact ⟨htop.goes h hall hf (Or.inr (Or.inr ⟨rfl, rfl⟩)), hwaiting⟩
  | jump hf => exact ⟨htop.goes h hall hf (Or.inl rfl), hwaiting⟩
  | call hf =>
    -- the caller will go on behind the call, as if it had run on
    have hback := htop.goes h hall hf (Or.inr (Or.inr ⟨rfl, rfl⟩))
    exact ⟨htop.calls h hall hf, List.forall_mem_cons.mpr ⟨hback, hwaiting⟩⟩
  | ret hf =>
    rw [List.forall_mem_cons] at hwaiting
    exact ⟨hwaiting.1, hwaiting.2⟩
  | taken hf => exact ⟨htop.goes h hall hf (Or.inr (Or.inl ⟨_, rfl⟩)), hwaiting⟩
  | passed hf =>
    obtain ⟨w, -, -, hflow⟩ := Image.flow?_eq_some_iff.mp hf
    obtain ⟨-, rfl⟩ := Word.flow_eq_skip hflow
    exact ⟨htop.goes h hall hf (Or.inr (Or.inr ⟨rfl, rfl⟩)), hwaiting⟩

/-- **So does a run.** -/
theorem Frames.Tracked.run (hs : s.Tracked img a seeds) (hrun : Run img.flow? s t) :
    t.Tracked img a seeds := by
  induction hrun with
  | refl => exact hs
  | tail _ hstep ih => exact ih.step h hall hstep

end Tracked

namespace Image

open Analysis

/--
**A frame stays within its function**, for any seeds among which the entries are.

Runs with frames are the runs of the machine. Wherever one comes to an instruction, the frame that runs
began where a function begins, and the block of the instruction belongs to that function.
-/
theorem executed_mem_function {program : Bytes} {base : Address} {img : Image}
    (himg : ofProgram program base = .ok img) (entries : List Address) {budget : Nat}
    (hb : program.size ≤ budget) {seeds : List Address} (hseeds : ∀ x ∈ entries, x ∈ seeds) :
    ∃ a, img.analyze entries budget = .ok a ∧ ∀ e ∈ entries,
      (∀ c, Control.Run img.flow? ⟨e, []⟩ c ↔
        ∃ s, Frames.Run img.flow? (.enter e) s ∧ s.control = c) ∧
      ∀ s, Frames.Run img.flow? (.enter e) s → (img.flow? s.top.pc).isSome = true →
        ∃ f ∈ (Graph.ofAnalysis a seeds).functions, f.entry = s.top.start ∧
          ∃ b ∈ (Graph.ofAnalysis a seeds).blocks, s.top.pc ∈ b.addresses ∧ b.start ∈ f.blocks ∧
            ∀ c ∈ (Graph.ofAnalysis a seeds).blocks, s.top.pc ∈ c.addresses → c = b := by
  obtain ⟨a, ha⟩ := exists_analyze himg entries budget
  have h := traces_of_analyze ha
  have hall := exhausts_of_analyze himg hb ha
  refine ⟨a, ha, ?_⟩
  intro e he
  refine ⟨fun c => Frames.run_control_iff (.enter e) c, ?_⟩
  intro s hrun hsome
  have htracked : s.Tracked img a seeds := (Frames.tracked_enter h hall hseeds he).run h hall hrun
  obtain ⟨fl, hflow⟩ := Option.isSome_iff_exists.mp hsome
  obtain ⟨hv, hr, hp⟩ := htracked.top fl hflow
  obtain ⟨f, hf, hentry⟩ := List.mem_map.mp (h.mem_entries_iff.mpr hr)
  obtain ⟨b, hb, hx⟩ := h.exists_block hseeds hv
  rw [← hentry] at hp
  refine ⟨f, hf, hentry, b, hb, Block.mem_addresses_iff.mpr hx,
    h.start_mem_blocks hseeds hf hb hx hp, ?_⟩
  intro c hc hcx
  exact h.block_unique hc hb (Block.mem_addresses_iff.mp hcx) hx

/-- A subroutine that calls itself, and begins right behind a call of it. -/
theorem executed_mem_function_recursive :
    ∃ img, ofProgram #[0x22, 0x04, 0x22, 0x04, 0x30, 0x00, 0x22, 0x04, 0x00, 0xEE] 0x200 = .ok img ∧
      10 ≤ Machine.memorySize ∧ (∀ x ∈ [(0x200 : Address)], x ∈ [(0x200 : Address)]) ∧
      ∃ a, img.analyze [0x200] Machine.memorySize = .ok a ∧ ∀ e ∈ [(0x200 : Address)],
        (∀ c, Control.Run img.flow? ⟨e, []⟩ c ↔
          ∃ s, Frames.Run img.flow? (.enter e) s ∧ s.control = c) ∧
        ∀ s, Frames.Run img.flow? (.enter e) s → (img.flow? s.top.pc).isSome = true →
          ∃ f ∈ (Graph.ofAnalysis a [0x200]).functions, f.entry = s.top.start ∧
            ∃ b ∈ (Graph.ofAnalysis a [0x200]).blocks, s.top.pc ∈ b.addresses ∧
              b.start ∈ f.blocks ∧
              ∀ c ∈ (Graph.ofAnalysis a [0x200]).blocks, s.top.pc ∈ c.addresses → c = b := by
  have himg :
      ofProgram #[0x22, 0x04, 0x22, 0x04, 0x30, 0x00, 0x22, 0x04, 0x00, 0xEE] 0x200 = .ok _ := rfl
  have hb : 10 ≤ Machine.memorySize := by decide
  have hseeds : ∀ x ∈ [(0x200 : Address)], x ∈ [(0x200 : Address)] := by
    intro x hx
    exact hx
  exact ⟨_, himg, hb, hseeds, executed_mem_function himg [0x200] hb hseeds⟩

end Image

end Chip8
