import Mathlib.Algebra.Group.Nat.Defs
import Mathlib.Data.List.Basic
import Mathlib.Data.List.Forall2
import Mathlib.Data.List.TakeWhile
import Mathlib.Logic.Relation
import Mathlib.Order.WellFounded

/-!
# Numbers, digits, lists, failures and loops

What the proofs need of these and the libraries do not have. Nothing here knows of programs or of addresses.
-/

namespace Chip8

/-! ## Numbers -/

/-- The places behind the first, counted on from it, where a place takes two. -/
theorem next_place (offset k : Nat) : offset + 2 + 2 * k = offset + 2 * (k + 1) := by omega

theorem or_eq_add {a b : Nat} (k : Nat) (ha : a % 2 ^ k = 0) (hb : b < 2 ^ k) : a ||| b = a + b := by
  have hor := Nat.two_pow_add_eq_or_of_lt hb (a / 2 ^ k)
  rw [Nat.mul_div_cancel' (Nat.dvd_of_mod_eq_zero ha)] at hor
  exact hor.symm

theorem toNat_shiftLeft (b : UInt8) {k : UInt16} (hk : k.toNat ≤ 8) :
    (b.toUInt16 <<< k).toNat = 2 ^ k.toNat * b.toNat := by
  have hpow : 2 ^ k.toNat ≤ 2 ^ 8 := Nat.pow_le_pow_right (by decide) hk
  have hlt : 2 ^ k.toNat * b.toNat < 2 ^ 8 * 2 ^ 8 := Nat.mul_lt_mul_of_le_of_lt hpow b.toNat_lt (by decide)
  have hk16 : k.toNat < 16 := by omega
  rw [UInt16.toNat_shiftLeft, UInt8.toNat_toUInt16, Nat.mod_eq_of_lt hk16, Nat.shiftLeft_eq, Nat.mul_comm]
  exact Nat.mod_eq_of_lt hlt

/-! ## Digits -/

section Digits

variable {base n : Nat} {c : Char}

/-- The digits of a number are characters of digits of the base. -/
theorem exists_digitChar_of_mem_toDigits (hbase : 1 < base) (h : c ∈ Nat.toDigits base n) :
    ∃ d < base, c = Nat.digitChar d := by
  induction n using Nat.strongRecOn with
  | ind n ih =>
    by_cases hlt : n < base
    · rw [Nat.toDigits_of_lt_base hlt, List.mem_singleton] at h
      exact ⟨n, hlt, h⟩
    · rw [Nat.toDigits_of_base_le hbase (Nat.le_of_not_lt hlt), List.mem_append, List.mem_singleton] at h
      rcases h with h | h
      · exact ih (n / base) (Nat.div_lt_self (by omega) hbase) h
      · exact ⟨n % base, Nat.mod_lt n (by omega), h⟩

theorem isDigit_of_mem_toDigits (h : c ∈ Nat.toDigits 10 n) : c.isDigit = true :=
  Nat.isDigit_of_mem_toDigits (by decide) (by decide) h

/-- No number but zero itself starts with a zero. -/
theorem toDigits_head_ne_zero (hn : 0 < n) : (Nat.toDigits 10 n).head? ≠ some '0' := by
  induction n using Nat.strongRecOn with
  | ind n ih =>
    by_cases hlt : n < 10
    · have hdigit : ∀ d < 10, 0 < d → Nat.digitChar d ≠ '0' := by decide
      rw [Nat.toDigits_of_lt_base hlt]
      simpa using hdigit n hlt hn
    · have hne : (Nat.toDigits 10 (n / 10)).head? ≠ some '0' := ih (n / 10) (by omega) (by omega)
      rw [Nat.toDigits_of_base_le (by decide) (by omega), List.head?_append]
      cases hhead : (Nat.toDigits 10 (n / 10)).head? with
      | none => exact absurd (List.head?_eq_none_iff.mp hhead) Nat.toDigits_ne_nil
      | some c => rwa [hhead] at hne

theorem toList_toString_ofNat (n : Nat) : (toString (Int.ofNat n)).toList = Nat.toDigits 10 n := by
  simp [Int.repr]

theorem toList_toString_negSucc (n : Nat) :
    (toString (Int.negSucc n)).toList = '-' :: Nat.toDigits 10 (n + 1) := by
  simp [Int.repr]

end Digits

/-! ## Lists -/

section Lists

variable {α β : Type}

theorem nodup_eraseDups [BEq α] [LawfulBEq α] (l : List α) : l.eraseDups.Nodup := by
  match l with
  | [] => simp
  | x :: l =>
    rw [List.eraseDups_cons, List.nodup_cons]
    constructor
    · intro hx
      rw [List.mem_eraseDups] at hx
      simp at hx
    · exact nodup_eraseDups _
termination_by l.length
decreasing_by
  rw [List.length_cons]
  exact Nat.lt_succ_of_le (List.length_filter_le _ l)

/-- A list is read back if each of its items is. -/
theorem mapM_map_of_left_inverse {write : α → β} {read? : β → Option α}
    (h : ∀ x, read? (write x) = some x) (xs : List α) : (xs.map write).mapM read? = some xs := by
  induction xs with
  | nil => rfl
  | cons x xs ih =>
    rw [List.map_cons, List.mapM_cons, h, ih]
    rfl

theorem mapM_congr_of_forall₂ {R : β → β → Prop} {read? : β → Option α}
    (h : ∀ v v', R v v' → read? v' = read? v) {vs vs' : List β} (hvs : List.Forall₂ R vs vs') :
    vs'.mapM read? = vs.mapM read? := by
  induction hvs with
  | nil => rfl
  | cons hv _ ih => rw [List.mapM_cons, List.mapM_cons, h _ _ hv, ih]

/-- Pieces of two at every other place make up the whole. -/
theorem flatMap_take_two (l : List α) (m : Nat) {base s : Nat} (h : base ≤ s) :
    ((List.range' s m 2).flatMap fun n => (l.drop (n - base)).take 2) =
      (l.drop (s - base)).take (2 * m) := by
  induction m generalizing s with
  | zero => rfl
  | succ m ih =>
    have hnext : s + 2 - base = s - base + 2 := by omega
    have hlen : 2 * (m + 1) = 2 + 2 * m := by omega
    rw [List.range'_succ, List.flatMap_cons, ih (by omega), hnext, hlen, List.take_add, List.drop_drop]

/-- What is dropped in front has the property, and what follows does not start with it. -/
theorem exists_dropWhile (p : α → Bool) (l : List α) :
    ∃ before, l = before ++ l.dropWhile p ∧ (∀ x ∈ before, p x = true) ∧
      ∀ x ∈ (l.dropWhile p).head?, p x = false := by
  refine ⟨l.takeWhile p, List.takeWhile_append_dropWhile.symm,
    fun _ => List.mem_takeWhile_imp, fun x hx => ?_⟩
  have hnot := List.head?_dropWhile_not p l
  rw [Option.mem_def.mp hx] at hnot
  exact hnot

theorem dropWhile_append_of_head? {p : α → Bool} {before rest : List α}
    (hbefore : ∀ x ∈ before, p x = true) (hhead : ∀ x ∈ rest.head?, p x = false) :
    (before ++ rest).dropWhile p = rest := by
  rw [List.dropWhile_append_of_pos hbefore]
  cases rest with
  | nil => rfl
  | cons x rest => exact List.dropWhile_cons_of_neg (by simp [hhead x rfl])

end Lists

/-! ## Options -/

section Options

variable {α β γ δ : Type} {o : Option α} {p : Option β} {q : Option γ}

theorem map_seq_eq_some_iff {f : α → β → γ} {c : γ} :
    o.map f <*> p = some c ↔ ∃ a b, o = some a ∧ p = some b ∧ f a b = c := by
  cases o <;> cases p <;> simp [Seq.seq]

theorem map_seq_seq_eq_some_iff {f : α → β → γ → δ} {d : δ} :
    o.map f <*> p <*> q = some d ↔
      ∃ a b c, o = some a ∧ p = some b ∧ q = some c ∧ f a b c = d := by
  cases o <;> cases p <;> cases q <;> simp [Seq.seq]

end Options

/-! ## Failures -/

section Failures

variable {α β ε ε' ε'' : Type} {x : Except ε α} {f : α → Except ε β} {g : ε → ε'}

@[simp]
theorem bind_eq_ok_iff {b : β} : x >>= f = .ok b ↔ ∃ a, x = .ok a ∧ f a = .ok b := by
  cases x with
  | error e => exact ⟨nofun, nofun⟩
  | ok a => simp [bind, Except.bind]

@[simp]
theorem mapError_eq_ok_iff {a : α} : x.mapError g = .ok a ↔ x = .ok a := by
  cases x with
  | error e => exact ⟨nofun, nofun⟩
  | ok b =>
    show (Except.ok b : Except ε' α) = .ok a ↔ _
    rw [Except.ok.injEq, Except.ok.injEq]

@[simp]
theorem elim_eq_ok_iff {o : Option α} {e : ε} {a : α} :
    o.elim (.error e) .ok = (.ok a : Except ε α) ↔ o = some a := by
  cases o with
  | none => exact ⟨nofun, nofun⟩
  | some b =>
    show (Except.ok b : Except ε α) = .ok a ↔ _
    rw [Except.ok.injEq, Option.some.injEq]

theorem mapError_bind : (x >>= f).mapError g = x.mapError g >>= fun a => (f a).mapError g := by
  cases x <;> rfl

theorem mapError_mapError {g' : ε' → ε''} : (x.mapError g).mapError g' = x.mapError (g' ∘ g) := by
  cases x <;> rfl

end Failures

/-! ## Loops -/

section Loops

variable {σ : Type} {r : σ → σ → Prop}

/-- A loop ends if each turn lowers a pair of numbers, of which the first counts more. -/
theorem wellFounded_of_lex (load : σ → Nat × Nat)
    (h : ∀ s t, r s t → Prod.Lex (· < ·) (· < ·) (load t) (load s)) : WellFounded (flip r) :=
  Subrelation.wf (fun {_ _} hr => h _ _ hr)
    (InvImage.wf load (Prod.lex Nat.lt_wfRel Nat.lt_wfRel).wf)

/-- A loop that ends comes to a state without a further turn. -/
theorem exists_end (h : WellFounded (flip r)) (s : σ) :
    ∃ t, Relation.ReflTransGen r s t ∧ ∀ u, ¬ r t u := by
  obtain ⟨t, ht, hlast⟩ := h.has_min {t | Relation.ReflTransGen r s t} ⟨s, .refl⟩
  refine ⟨t, ht, fun u hu => ?_⟩
  exact hlast u (ht.tail hu) hu

end Loops

end Chip8
