import Chip8.Graph
import Chip8.Proofs.Address

/-!
# The sweep of a block

A block ends where the sweep from its start ends (`Analysis.runEnd`). `Analysis.Swept` says what such a
block is: its instructions are visited, all but the first are no starts, all but the last are no
terminators, and there is a reason for its end. Everything else about a block follows from that.
-/

namespace Chip8

/-! ## The addresses of a block -/

namespace Block

variable {b : Block} {x : Address}

@[grind =]
theorem contains_iff :
    b.contains x = true ↔ b.start.toNat ≤ x.toNat ∧ x.toNat < b.stop.toNat ∧
      (x.toNat - b.start.toNat) % 2 = 0 := by
  simp [contains, UInt16.le_iff_toNat_le, UInt16.lt_iff_toNat_lt]

/-- Inside a block addresses do not wrap. -/
theorem toNat_address {i : Nat} (hi : i < (b.stop.toNat - b.start.toNat + 1) / 2) :
    (b.start + UInt16.ofNat (2 * i)).toNat = b.start.toNat + 2 * i := by
  have hstop : b.stop.toNat < UInt16.size := b.stop.toNat_lt
  have hsmall : (UInt16.ofNat (2 * i)).toNat = 2 * i :=
    UInt16.toNat_ofNat_of_lt' (by omega)
  rw [toNat_add_of_lt (by omega), hsmall]

@[simp]
theorem mem_addresses_iff : x ∈ b.addresses ↔ b.contains x = true := by
  unfold addresses
  rw [List.mem_map, contains_iff]
  constructor
  · rintro ⟨i, hi, rfl⟩
    rw [List.mem_range] at hi
    rw [toNat_address hi]
    omega
  · rintro ⟨hle, hlt, heven⟩
    have hi : (x.toNat - b.start.toNat) / 2 < (b.stop.toNat - b.start.toNat + 1) / 2 := by omega
    refine ⟨(x.toNat - b.start.toNat) / 2, List.mem_range.mpr hi, ?_⟩
    rw [← UInt16.toNat_inj, toNat_address hi]
    omega

/-- What stands before an instruction, if that is not the first, belongs to the block. -/
theorem contains_of_next (hx : b.contains (Word.next x) = true)
    (hnext : (Word.next x).toNat = x.toNat + 2) (hne : Word.next x ≠ b.start) :
    b.contains x = true := by
  have hne' : (Word.next x).toNat ≠ b.start.toNat := fun he => hne (UInt16.toNat_inj.mp he)
  grind

/-- Every instruction but the first stands behind another one of the block. -/
theorem exists_contains_next (hx : b.contains x = true) (hne : x ≠ b.start) :
    ∃ y, b.contains y = true ∧ Word.next y = x ∧ y.toNat < x.toNat := by
  have hne' : x.toNat ≠ b.start.toNat := fun he => hne (UInt16.toNat_inj.mp he)
  rw [contains_iff] at hx
  have hle : Word.width ≤ x := UInt16.le_iff_toNat_le.mpr (show 2 ≤ x.toNat by omega)
  have hsub : (x - Word.width).toNat = x.toNat - 2 := UInt16.toNat_sub_of_le x Word.width hle
  refine ⟨x - Word.width, ?_, UInt16.sub_add_cancel x Word.width, by omega⟩
  rw [contains_iff]
  omega

theorem ne_stop_of_contains (hx : b.contains x = true) : x ≠ b.stop := by
  rintro rfl
  grind

/-- What holds at the start of a block, and is handed on from each instruction to the next, holds in it. -/
theorem contains_induction {motive : Address → Prop} (hx : b.contains x = true)
    (hstart : motive b.start)
    (hnext : ∀ y, b.contains y = true → b.contains (Word.next y) = true → Word.next y ≠ b.start →
      motive y → motive (Word.next y)) : motive x := by
  induction hn : x.toNat using Nat.strongRecOn generalizing x with
  | _ n ih =>
    by_cases hne : x = b.start
    · rw [hne]
      exact hstart
    · obtain ⟨y, hy, rfl, hlt⟩ := exists_contains_next hx hne
      exact hnext y hy hx hne (ih y.toNat (by omega) hy rfl)

theorem nodup_addresses (b : Block) : b.addresses.Nodup := by
  unfold addresses
  refine List.pairwise_map.mpr (List.nodup_range.imp_of_mem ?_)
  intro i j hi hj hne h
  rw [List.mem_range] at hi hj
  rw [← UInt16.toNat_inj, toNat_address hi, toNat_address hj] at h
  omega

theorem length_addresses (b : Block) :
    b.addresses.length = (b.stop.toNat - b.start.toNat + 1) / 2 := by
  unfold addresses
  rw [List.length_map, List.length_range]

end Block

/-! ## The sweep -/

namespace Analysis

variable {a : Analysis} {starts : AddressSet} {b : Block} {x : Address}

/-- A block that was swept from its start until there was a reason to stop. -/
structure Swept (a : Analysis) (starts : AddressSet) (b : Block) : Prop where
  nonempty : b.start.toNat < b.stop.toNat
  even : (b.stop.toNat - b.start.toNat) % 2 = 0
  visited : ∀ x, b.contains x = true → x ∈ a.visited
  inner : ∀ x, b.contains x = true → x ≠ b.start → x ∉ starts
  runsOn : ∀ x, b.contains x = true → Word.next x ≠ b.stop → x ∉ a.terminators
  ends : ∃ last, b.contains last = true ∧ Word.next last = b.stop ∧
    (last ∈ a.terminators ∨ b.stop ∉ a.visited ∨ b.stop ∈ starts)

theorem contains_cons {cur stop : Address} (hnext : (Word.next cur).toNat = cur.toNat + 2)
    (hlt : (Word.next cur).toNat < stop.toNat) :
    Block.contains ⟨cur, stop⟩ x = true ↔
      x = cur ∨ Block.contains ⟨Word.next cur, stop⟩ x = true := by
  rw [Block.contains_iff, Block.contains_iff, ← UInt16.toNat_inj]
  dsimp only
  omega

theorem contains_single {cur : Address} (hnext : (Word.next cur).toNat = cur.toNat + 2) :
    Block.contains ⟨cur, Word.next cur⟩ x = true ↔ x = cur := by
  rw [Block.contains_iff, ← UInt16.toNat_inj]
  dsimp only
  omega

theorem swept_single {cur : Address} (hnext : (Word.next cur).toNat = cur.toNat + 2)
    (hcur : cur ∈ a.visited)
    (hwhy : cur ∈ a.terminators ∨ Word.next cur ∉ a.visited ∨ Word.next cur ∈ starts) :
    a.Swept starts ⟨cur, Word.next cur⟩ where
  nonempty := by
    dsimp only
    omega
  even := by
    dsimp only
    omega
  visited x hx := by
    rw [(contains_single hnext).mp hx]
    exact hcur
  inner x hx hne := absurd ((contains_single hnext).mp hx) hne
  runsOn x hx hne := by
    rw [(contains_single hnext).mp hx] at hne
    exact absurd rfl hne
  ends := ⟨cur, (contains_single hnext).mpr rfl, rfl, hwhy⟩

/-- A sweep that goes on behind its first instruction. -/
theorem swept_cons {cur stop : Address} (hnext : (Word.next cur).toNat = cur.toNat + 2)
    (hcur : cur ∈ a.visited) (hterm : cur ∉ a.terminators) (hstart : Word.next cur ∉ starts)
    (hrest : a.Swept starts ⟨Word.next cur, stop⟩) : a.Swept starts ⟨cur, stop⟩ where
  nonempty := by
    have hlt := hrest.nonempty
    dsimp only at hlt ⊢
    omega
  even := by
    have hlt := hrest.nonempty
    have heven := hrest.even
    dsimp only at hlt heven ⊢
    omega
  visited x hx := by
    rcases (contains_cons hnext hrest.nonempty).mp hx with rfl | hx
    · exact hcur
    · exact hrest.visited x hx
  inner x hx hne := by
    rcases (contains_cons hnext hrest.nonempty).mp hx with rfl | hx
    · exact absurd rfl hne
    · by_cases hxn : x = Word.next cur
      · rw [hxn]
        exact hstart
      · exact hrest.inner x hx hxn
  runsOn x hx hne := by
    rcases (contains_cons hnext hrest.nonempty).mp hx with rfl | hx
    · exact hterm
    · exact hrest.runsOn x hx hne
  ends := by
    obtain ⟨last, hlast, hstop, hwhy⟩ := hrest.ends
    exact ⟨last, (contains_cons hnext hrest.nonempty).mpr (Or.inr hlast), hstop, hwhy⟩

/-- **The sweep from a visited address yields a block.** -/
theorem swept_runEnd (hinside : ∀ x ∈ a.visited, x.toNat < Machine.memorySize)
    (starts : AddressSet) {cur : Address} (hcur : cur ∈ a.visited) :
    a.Swept starts ⟨cur, a.runEnd starts cur⟩ := by
  fun_induction runEnd a starts cur with
  | case1 cur next hgo ih =>
    obtain ⟨-, hterm, hvisited, hstart⟩ := hgo
    exact swept_cons (Word.toNat_next (hinside cur hcur)) hcur hterm hstart (ih hvisited)
  | case2 cur next hstop =>
    have hnext : next.toNat = cur.toNat + 2 := Word.toNat_next (hinside cur hcur)
    -- inside the memory a sweep never stops because addresses wrap
    have hlt : cur < next := UInt16.lt_iff_toNat_lt.mpr (by omega)
    refine swept_single hnext hcur ?_
    by_cases hterm : cur ∈ a.terminators
    · exact Or.inl hterm
    · by_cases hvisited : next ∈ a.visited
      · by_cases hstart : next ∈ starts
        · exact Or.inr (Or.inr hstart)
        · exact absurd ⟨hlt, hterm, hvisited, hstart⟩ hstop
      · exact Or.inr (Or.inl hvisited)

namespace Swept

variable (h : a.Swept starts b)
include h

theorem length_addresses : b.addresses.length = (b.stop.toNat - b.start.toNat) / 2 := by
  have heven := h.even
  rw [Block.length_addresses]
  omega

theorem contains_start : b.contains b.start = true := by
  have hlt := h.nonempty
  grind

/-- The block goes on until its end. -/
theorem contains_next (hx : b.contains x = true) (hnext : (Word.next x).toNat = x.toNat + 2)
    (hne : Word.next x ≠ b.stop) : b.contains (Word.next x) = true := by
  have heven := h.even
  have hne' : (Word.next x).toNat ≠ b.stop.toNat := fun he => hne (UInt16.toNat_inj.mp he)
  grind

theorem eq_start_of_contains (hx : b.contains x = true) (hstart : x ∈ starts) : x = b.start := by
  by_cases hne : x = b.start
  · exact hne
  · exact absurd hstart (h.inner x hx hne)

end Swept

end Analysis

end Chip8
