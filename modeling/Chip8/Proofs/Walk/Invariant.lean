import Chip8.Proofs.Address
import Chip8.Proofs.Walk.Site
import Chip8.Proofs.Walk.Step

/-!
# What every walk keeps

The invariant of a walk has three parts. The sites are words of the image, each found once (`Walk.Sound`).
What waits in the queue was discovered from the entries along the edges of the sites found so far. And no
entry and no target is forgotten: it waits in the queue, or it has been handled, or no word starts there.

`State.Inv.step` shows that a step keeps all of it, `State.Inv.steps` that any number of steps does.
-/

namespace Chip8

/-! ## Discovery -/

/-- The addresses to which edges lead from the entries. -/
inductive Discovered (entries : List Address) (edges : List Edge) : Address → Prop where
  | entry {a : Address} (h : a ∈ entries) : Discovered entries edges a
  | edge {e : Edge} (he : e ∈ edges) (hs : Discovered entries edges e.source) :
      Discovered entries edges e.target

/-- What was discovered stays so when edges are added. -/
theorem Discovered.append {entries : List Address} {edges : List Edge} {a : Address}
    (h : Discovered entries edges a) (more : List Edge) : Discovered entries (edges ++ more) a := by
  induction h with
  | entry h => exact .entry h
  | edge he _ ih => exact .edge (List.mem_append_left more he) ih

namespace Walk

variable {img : Image} {w : Walk} {s : Site} {e : Edge} {a b : Address}

/-! ## What is added -/

@[simp]
theorem sites_addSite : (w.addSite s).sites = s :: w.sites := rfl

@[simp]
theorem data_addSite : (w.addSite s).data = w.data := rfl

@[simp]
theorem mem_handled_addSite : a ∈ (w.addSite s).handled ↔ a = s.address ∨ a ∈ w.handled :=
  AddressSet.mem_insert_iff

@[simp]
theorem sites_addData : (w.addData b).sites = w.sites := rfl

@[simp]
theorem data_addData : (w.addData b).data = b :: w.data := rfl

@[simp]
theorem mem_handled_addData : a ∈ (w.addData b).handled ↔ a = b ∨ a ∈ w.handled :=
  AddressSet.mem_insert_iff

/-! ## The edges of a walk -/

/-- The edges of the sites, in the order in which they were found. -/
def edges (img : Image) (w : Walk) : List Edge := w.sites.reverse.flatMap (Site.edges img)

@[simp]
theorem mem_edges_iff : e ∈ w.edges img ↔ ∃ s ∈ w.sites, e ∈ s.edges img := by
  simp [edges]

@[simp]
theorem edges_addSite : (w.addSite s).edges img = w.edges img ++ s.edges img := by
  simp [edges]

@[simp]
theorem edges_addData : (w.addData b).edges img = w.edges img := rfl

/-! ## What has been found -/

/-- The sites of a walk are words of the image, and what was handled are they and the data. -/
structure Sound (img : Image) (w : Walk) : Prop where
  handled_iff : ∀ a, a ∈ w.handled ↔ a ∈ w.sites.map Site.address ∨ a ∈ w.data
  nodup : (w.sites.map Site.address).Nodup
  word : ∀ s ∈ w.sites, img.word? s.address = some s.word
  inside : ∀ s ∈ w.sites, s.address.toNat < Machine.memorySize

theorem sound_start : start.Sound img where
  handled_iff a := by simp [start]
  nodup := List.nodup_nil
  word _ hs := nomatch hs
  inside _ hs := nomatch hs

theorem Sound.addData (h : w.Sound img) (a : Address) : (w.addData a).Sound img where
  handled_iff b := by
    rw [mem_handled_addData, h.handled_iff, sites_addData, data_addData, List.mem_cons]
    exact or_left_comm
  nodup := h.nodup
  word := h.word
  inside := h.inside

theorem Sound.addSite (h : w.Sound img) (hnew : s.address ∉ w.handled)
    (hw : img.word? s.address = some s.word) (hlt : s.address.toNat < Machine.memorySize) :
    (w.addSite s).Sound img where
  handled_iff b := by
    rw [mem_handled_addSite, h.handled_iff, sites_addSite, data_addSite, List.map_cons, List.mem_cons]
    exact or_assoc.symm
  nodup := List.nodup_cons.mpr ⟨fun hs => hnew ((h.handled_iff _).mpr (Or.inl hs)), h.nodup⟩
  word := List.forall_mem_cons.mpr ⟨hw, h.word⟩
  inside := List.forall_mem_cons.mpr ⟨hlt, h.inside⟩

/-! ## The invariant -/

namespace State

/-- The invariant of a walk from `entries` that started with the budget `total`. -/
structure Inv (img : Image) (entries : List Address) (total : Nat) (s : State) : Prop where
  sound : s.walk.Sound img
  discovered : ∀ a ∈ s.queue, Discovered entries (s.walk.edges img) a
  accounted : ∀ a, (a ∈ entries ∨ ∃ e ∈ s.walk.edges img, e.target = a) →
    a ∈ s.queue ∨ a ∈ s.walk.handled ∨ img.word? a = none
  spent : s.walk.sites.length + s.budget = total

variable {entries q : List Address} {total n : Nat} {s t : State}

theorem inv_start (img : Image) (entries : List Address) (total : Nat) :
    Inv img entries total ⟨entries, .start, total⟩ where
  sound := sound_start
  discovered _ ha := .entry ha
  accounted a ha := by
    rcases ha with ha | ⟨e, he, -⟩
    · exact Or.inl ha
    · cases he
  spent := Nat.zero_add total

/-- The front of the queue may go if it is accounted for otherwise. -/
theorem Inv.drop (h : Inv img entries total ⟨a :: q, w, n⟩)
    (ha : a ∈ w.handled ∨ img.word? a = none) : Inv img entries total ⟨q, w, n⟩ where
  sound := h.sound
  discovered b hb := h.discovered b (List.mem_cons_of_mem a hb)
  accounted b hb := by
    rcases h.accounted b hb with hq | hrest
    · rcases List.mem_cons.mp hq with rfl | hq
      · exact Or.inr ha
      · exact Or.inl hq
    · exact Or.inr hrest
  spent := h.spent

/-- The front of the queue may be handled as data. -/
theorem Inv.addData (h : Inv img entries total ⟨a :: q, w, n⟩) :
    Inv img entries total ⟨a :: q, w.addData a, n⟩ where
  sound := h.sound.addData a
  discovered := h.discovered
  accounted b hb := (h.accounted b hb).imp_right (.imp_left fun hh => mem_handled_addData.mpr (Or.inr hh))
  spent := h.spent

/-- The front of the queue may become a site; its targets join the queue. -/
theorem Inv.addSite {word : Word} (h : Inv img entries total ⟨a :: q, w, n + 1⟩)
    (hnew : a ∉ w.handled) (hw : img.word? a = some word) (hlt : a.toNat < Machine.memorySize) :
    Inv img entries total
      ⟨a :: q ++ (Site.edges img ⟨a, word⟩).map Edge.target, w.addSite ⟨a, word⟩, n⟩ := by
  have hkeep : ∀ b ∈ a :: q, Discovered entries ((w.addSite ⟨a, word⟩).edges img) b := by
    intro b hb
    rw [edges_addSite]
    exact (h.discovered b hb).append _
  refine ⟨h.sound.addSite hnew hw hlt, ?_, ?_, ?_⟩
  · intro b hb
    rcases List.mem_append.mp hb with hb | hb
    · exact hkeep b hb
    · obtain ⟨e, he, rfl⟩ := List.mem_map.mp hb
      refine .edge ?_ ?_
      · rw [edges_addSite]
        exact List.mem_append_right _ he
      · rw [Site.source_of_mem_edges he]
        exact hkeep a List.mem_cons_self
  · have hold : ∀ b, (b ∈ entries ∨ ∃ e ∈ w.edges img, e.target = b) →
        b ∈ a :: q ++ (Site.edges img ⟨a, word⟩).map Edge.target ∨
          b ∈ (w.addSite ⟨a, word⟩).handled ∨ img.word? b = none := by
      intro b hb
      rcases h.accounted b hb with hq | hh | hn
      · exact Or.inl (List.mem_append_left _ hq)
      · exact Or.inr (Or.inl (mem_handled_addSite.mpr (Or.inr hh)))
      · exact Or.inr (Or.inr hn)
    rintro b (hb | ⟨e, he, rfl⟩)
    · exact hold b (Or.inl hb)
    · rw [edges_addSite] at he
      rcases List.mem_append.mp he with he | he
      · exact hold e.target (Or.inr ⟨e, he, rfl⟩)
      · exact Or.inl (List.mem_append_right _ (List.mem_map_of_mem he))
  · have hspent := h.spent
    simp only [sites_addSite, List.length_cons] at hspent ⊢
    omega

/-- **A step keeps the invariant.** -/
theorem Inv.step (h : Inv img entries total s) (hs : Step img s t) :
    Inv img entries total t := by
  cases hs with
  | again hmem => exact h.drop (Or.inl hmem)
  | pass _ hw => exact h.drop (Or.inr hw)
  | data => exact h.addData.drop (Or.inl (mem_handled_addData.mpr (Or.inl rfl)))
  | site hnew hw _ hlt =>
    exact (h.addSite hnew hw hlt).drop (Or.inl (mem_handled_addSite.mpr (Or.inl rfl)))

/-- **So do any number of steps.** -/
theorem Inv.steps (h : Inv img entries total s) (hs : Steps img s t) :
    Inv img entries total t := by
  induction hs with
  | refl => exact h
  | tail _ hstep ih => exact ih.step hstep

end State

end Walk

end Chip8
