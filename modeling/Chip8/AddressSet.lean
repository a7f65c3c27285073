import Std.Data.ExtTreeSet

/-!
# Sets of addresses

Finite sets of addresses, listed in ascending order. Two sets are equal as soon as they have the same
members.

A search that never handles an address twice ends because there are only `2 ^ 16` of them. `room`
counts those that are still missing from a set; inserting a new one makes it smaller
(`room_insert_lt`).
-/

namespace Chip8

/-- A finite set of addresses. -/
abbrev AddressSet := Std.ExtTreeSet UInt16

namespace AddressSet

/-- The set of the addresses in a list. -/
def ofList (as : List UInt16) : AddressSet := Std.ExtTreeSet.ofList as

@[simp]
theorem mem_ofList {as : List UInt16} {a : UInt16} : a ∈ ofList as ↔ a ∈ as := by
  simp [ofList]

/-- How many addresses are not in the set. -/
def room (s : AddressSet) : Nat :=
  (List.range UInt16.size).countP fun n => !s.contains (UInt16.ofNat n)

/-- An address that was missing takes room. -/
theorem room_insert_lt {s : AddressSet} {a : UInt16} (h : a ∉ s) :
    room (s.insert a) < room s := by
  let missing : List Nat := (List.range UInt16.size).filter fun n => !s.contains (UInt16.ofNat n)
  have hmem : a.toNat ∈ missing := by
    have hnot : s.contains a = false := Bool.eq_false_iff.mpr h
    simp [missing, hnot, a.toNat_lt]
  -- what is missing with the address was missing without it
  have hinsert : room (s.insert a) =
      (missing.filter fun n => !(s.insert a).contains (UInt16.ofNat n)).length := by
    rw [room, List.countP_eq_length_filter, List.filter_filter]
    refine congrArg List.length (List.filter_congr fun n _ => ?_)
    simp
  calc room (s.insert a)
      = (missing.filter fun n => !(s.insert a).contains (UInt16.ofNat n)).length := hinsert
    _ < missing.length := List.length_filter_lt_length_iff_exists.mpr ⟨a.toNat, hmem, by simp⟩
    _ = room s := List.countP_eq_length_filter.symm

end AddressSet

end Chip8
