import Chip8.AddressSet
import Chip8.Machine

/-!
# Addresses and sets of them

Addresses wrap at `2 ^ 16`, far above the memory: inside the memory, and for a step beyond its end,
arithmetic on addresses is that on numbers. Sets of addresses are listed in the order of these numbers.
-/

namespace Chip8

/-! ## Arithmetic -/

theorem toNat_add_of_lt {a b : Address} (h : a.toNat + b.toNat < UInt16.size) :
    (a + b).toNat = a.toNat + b.toNat := by
  rw [UInt16.toNat_add]
  exact Nat.mod_eq_of_lt h

theorem Word.toNat_next {a : Address} (h : a.toNat < Machine.memorySize) :
    (Word.next a).toNat = a.toNat + 2 := by
  have hsize : Machine.memorySize + 2 < UInt16.size := by decide
  exact toNat_add_of_lt (show a.toNat + 2 < UInt16.size by omega)

/-! ## Members of sets -/

namespace AddressSet

variable {s : AddressSet} {a b : UInt16}

theorem mem_insert_iff : b ∈ s.insert a ↔ b = a ∨ b ∈ s := by
  rw [Std.ExtTreeSet.mem_insert, Std.LawfulEqCmp.compare_eq_iff_eq, @eq_comm _ a]

/-- Sets list their members in ascending order. -/
theorem pairwise_toList (s : AddressSet) : s.toList.Pairwise (· < ·) :=
  s.ordered_toList.imp fun h => Std.compare_eq_lt.mp h

@[simp]
theorem nodup_toList (s : AddressSet) : s.toList.Nodup := by
  refine (pairwise_toList s).imp ?_
  intro a b hlt he
  rw [he] at hlt
  exact absurd hlt (UInt16.lt_irrefl _)

/-! ### Sets that a condition cuts out -/

section Cut

variable {s₁ s₂ : AddressSet} {r r₁ r₂ p : Address → Prop}

/-- One condition cuts equal sets out of the same addresses. -/
theorem eq_of_iff (hr : ∀ x, r₁ x ↔ r₂ x) (h₁ : ∀ x, x ∈ s₁ ↔ r₁ x ∧ p x)
    (h₂ : ∀ x, x ∈ s₂ ↔ r₂ x ∧ p x) : s₁ = s₂ :=
  Std.ExtTreeSet.ext_mem fun x => by rw [h₁, h₂, hr]

/-- What one condition cuts out of a union is united from what it cuts out of the parts. -/
theorem eq_union_of_iff (hr : ∀ x, r x ↔ r₁ x ∨ r₂ x) (h : ∀ x, x ∈ s ↔ r x ∧ p x)
    (h₁ : ∀ x, x ∈ s₁ ↔ r₁ x ∧ p x) (h₂ : ∀ x, x ∈ s₂ ↔ r₂ x ∧ p x) : s = s₁ ∪ s₂ :=
  Std.ExtTreeSet.ext_mem fun x => by
    rw [Std.ExtTreeSet.mem_union_iff, h, h₁, h₂, hr, or_and_right]

end Cut

end AddressSet

end Chip8
