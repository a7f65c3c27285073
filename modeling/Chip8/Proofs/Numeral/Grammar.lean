import Chip8.Proofs.Numeral
import Mathlib.Data.Nat.Digits.Defs

/-!
# The grammar of numbers

Which texts are read as a number, and what is wrong with the others. A number consists of digits in its base,
with at most one `+` in front (`Numeral.Spelled`). In a text that is none the leftmost place decides at which
there is no digit or at which the number exceeds the limit (`Numeral.FirstWrong`).

Reading digits gives what they form or the fault at that place, and nothing else (`Numeral.readDigits_eq_iff`).
One induction over the loop shows that the result is one of these, with what has been read so far as a
variable; that there is only one follows without the loop, for the numbers that the beginnings of a text form
only grow.
-/

namespace Chip8

/-! ## Blanks -/

namespace Blank

variable {cs t : List Char}

/-- The text `t` is what is left of `cs` when the blanks at both ends are taken away. -/
structure Strips (cs t : List Char) : Prop where
  around : ∃ before after, cs = before ++ (t ++ after) ∧ (∀ c ∈ before, isBlank c = true) ∧
    ∀ c ∈ after, isBlank c = true
  head : ∀ c ∈ t.head?, isBlank c = false
  last : ∀ c ∈ t.getLast?, isBlank c = false

/-- **What trimming leaves is the text between the blanks at its ends.** -/
theorem strips_trim (cs : List Char) : Strips cs (trim cs) := by
  obtain ⟨before, hbefore, hblank, hhead⟩ := exists_dropWhile isBlank cs
  obtain ⟨after, hafter, hblank', hlast⟩ := exists_dropWhile isBlank (cs.dropWhile isBlank).reverse
  have hsplit : cs.dropWhile isBlank = trim cs ++ after.reverse := by
    rw [← List.reverse_reverse (cs.dropWhile isBlank), hafter, List.reverse_append]
    rfl
  constructor
  case around =>
    exact ⟨before, after.reverse, hsplit ▸ hbefore, hblank,
      fun c hc => hblank' c (List.mem_reverse.mp hc)⟩
  case head =>
    intro c hc
    refine hhead c ?_
    rw [hsplit, Option.mem_def, List.head?_append, Option.mem_def.mp hc, Option.some_or]
  case last =>
    intro c hc
    rw [trim, List.getLast?_reverse] at hc
    exact hlast c hc

/-- There is only one text between the blanks at both ends. -/
theorem Strips.eq_trim (h : Strips cs t) : t = trim cs := by
  obtain ⟨before, after, rfl, hbefore, hafter⟩ := h.around
  have hreverse : ∀ c ∈ after.reverse, isBlank c = true := fun c hc =>
    hafter c (List.mem_reverse.mp hc)
  cases t with
  | nil =>
    have hall : ∀ c ∈ before ++ after, isBlank c = true := fun c hc =>
      (List.mem_append.mp hc).elim (hbefore c) (hafter c)
    rw [trim, List.nil_append, List.dropWhile_eq_nil_iff.mpr hall]
    rfl
  | cons c t =>
    have hhead : ∀ d ∈ ((c :: t) ++ after).head?, isBlank d = false := h.head
    have hlast : ∀ d ∈ (c :: t).reverse.head?, isBlank d = false := fun d hd =>
      h.last d (List.head?_reverse ▸ hd)
    rw [trim, dropWhile_append_of_head? hbefore hhead, List.reverse_append,
      dropWhile_append_of_head? hreverse hlast, List.reverse_reverse]

end Blank

/-! ## Digits -/

namespace Numeral

/-- The character `c` is the ASCII digit of the value `d` in a base. Letters may be of either case. -/
def IsDigit (base : Nat) (c : Char) (d : Nat) : Prop :=
  d < base ∧ (c = Nat.digitChar d ∨ c = (Nat.digitChar d).toUpper)

/-- The text consists of digits that form the number `n`. If there are none, the number is zero. -/
def Forms (base : Nat) (cs : List Char) (n : Nat) : Prop :=
  ∃ ds, List.Forall₂ (IsDigit base) cs ds ∧ n = Nat.ofDigits base ds.reverse

variable {base limit value n m d k : Nat} {c : Char} {cs pre : List Char} {e : Fault}

theorem isDigit_of_digit? (hbase : base ≤ 16) (h : digit? base c = some d) : IsDigit base c d := by
  have hdigit : ∀ k < 10, Char.ofNat (48 + k) = Nat.digitChar k := by decide
  have hlower : ∀ k < 6, Char.ofNat (97 + k) = Nat.digitChar (k + 10) := by decide
  have hupper : ∀ k < 6, Char.ofNat (65 + k) = (Nat.digitChar (k + 10)).toUpper := by decide
  have hc : ∀ n, n ≤ c.toNat → c = Char.ofNat (n + (c.toNat - n)) := fun n hn => by
    rw [Nat.add_sub_cancel' hn, Char.ofNat_toNat]
  have hle : ∀ {a b : Char}, a ≤ b ↔ a.toNat ≤ b.toNat := UInt32.le_iff_toNat_le
  simp only [digit?, hle, Char.reduceToNat, Option.ite_none_right_eq_some, Option.some.injEq] at h
  by_cases h0 : 48 ≤ c.toNat ∧ c.toNat ≤ 57
  · rw [if_pos h0] at h
    obtain ⟨hlt, rfl⟩ := h
    exact ⟨hlt, .inl ((hc 48 h0.1).trans (hdigit _ (by omega)))⟩
  by_cases ha : 97 ≤ c.toNat ∧ c.toNat ≤ 122
  · rw [if_neg h0, if_pos ha] at h
    obtain ⟨hlt, rfl⟩ := h
    exact ⟨hlt, .inl ((hc 97 ha.1).trans (hlower _ (by omega)))⟩
  by_cases hA : 65 ≤ c.toNat ∧ c.toNat ≤ 90
  · rw [if_neg h0, if_neg ha, if_pos hA] at h
    obtain ⟨hlt, rfl⟩ := h
    exact ⟨hlt, .inr ((hc 65 hA.1).trans (hupper _ (by omega)))⟩
  · rw [if_neg h0, if_neg ha, if_neg hA] at h
    exact absurd h.1 (Nat.lt_irrefl base)

theorem digit?_eq_some_iff (hbase : base ≤ 16) : digit? base c = some d ↔ IsDigit base c d := by
  have hdigit : ∀ base < 17, ∀ d < base, digit? base (Nat.digitChar d) = some d ∧
      digit? base (Nat.digitChar d).toUpper = some d := by decide
  refine ⟨isDigit_of_digit? hbase, ?_⟩
  rintro ⟨hlt, rfl | rfl⟩
  · exact (hdigit base (by omega) d hlt).1
  · exact (hdigit base (by omega) d hlt).2

theorem IsDigit.rightUnique (hbase : base ≤ 16) : Relator.RightUnique (IsDigit base) := by
  intro c d d' h h'
  have hd := (digit?_eq_some_iff hbase).mpr h
  rw [(digit?_eq_some_iff hbase).mpr h'] at hd
  exact (Option.some.inj hd).symm

/-! ## The numbers that digits form -/

theorem forms_nil : Forms base [] 0 := ⟨[], .nil, rfl⟩

/-- One more digit makes the number grow by a place. -/
theorem Forms.snoc (h : Forms base cs n) (hc : IsDigit base c d) :
    Forms base (cs ++ [c]) (n * base + d) := by
  obtain ⟨ds, hds, rfl⟩ := h
  refine ⟨ds ++ [d], List.rel_append hds (.cons hc .nil), ?_⟩
  rw [List.reverse_append, List.reverse_singleton, List.singleton_append, Nat.ofDigits_cons,
    Nat.mul_comm, Nat.add_comm]

theorem Forms.unique (hbase : base ≤ 16) (h : Forms base cs m) (h' : Forms base cs n) : m = n := by
  obtain ⟨ds, hds, rfl⟩ := h
  obtain ⟨ds', hds', rfl⟩ := h'
  rw [List.right_unique_forall₂' (IsDigit.rightUnique hbase) hds hds']

/-- Every character of a number is a digit. -/
theorem Forms.exists_digit (h : Forms base cs n) (hk : cs[k]? = some c) : ∃ d, IsDigit base c d := by
  obtain ⟨ds, hds, -⟩ := h
  obtain ⟨hlt, rfl⟩ := List.getElem?_eq_some_iff.mp hk
  have hlt' : k < ds.length := hds.length_eq ▸ hlt
  exact ⟨_, hds.get hlt hlt'⟩

/-- **The numbers that the beginnings of a text form only grow.** -/
theorem Forms.take_le (hpos : 0 < base) (hbase : base ≤ 16) (h : Forms base cs n)
    (hk : Forms base (cs.take k) m) : m ≤ n := by
  obtain ⟨ds, hds, rfl⟩ := h
  obtain rfl : m = Nat.ofDigits base (ds.take k).reverse :=
    hk.unique hbase ⟨_, List.forall₂_take k hds, rfl⟩
  have hsplit : ds.reverse = (ds.drop k).reverse ++ (ds.take k).reverse := by
    rw [← List.reverse_append, List.take_append_drop]
  rw [hsplit, Nat.ofDigits_append]
  calc Nat.ofDigits base (ds.take k).reverse
      ≤ base ^ (ds.drop k).reverse.length * Nat.ofDigits base (ds.take k).reverse :=
        Nat.le_mul_of_pos_left _ (Nat.pow_pos hpos)
    _ ≤ _ := Nat.le_add_left _ _

/-- A number is formed by the digits with which it is written. -/
theorem forms_toDigits (hone : 1 < base) (hbase : base ≤ 16) (n : Nat) :
    Forms base (Nat.toDigits base n) n := by
  have hlast : ∀ d < base, IsDigit base (Nat.digitChar d) d := fun d hd => ⟨hd, .inl rfl⟩
  induction n using Nat.strongRecOn with
  | ind n ih =>
    by_cases hlt : n < base
    · have hforms : Forms base ([] ++ [Nat.digitChar n]) (0 * base + n) := forms_nil.snoc (hlast n hlt)
      rw [Nat.zero_mul, Nat.zero_add] at hforms
      rw [Nat.toDigits_of_lt_base hlt]
      exact hforms
    · -- all digits but the last are those of `n / base`
      have hle : base ≤ n := Nat.not_lt.mp hlt
      have hrest := ih (n / base) (Nat.div_lt_self (by omega) hone)
      have hforms := hrest.snoc (hlast (n % base) (Nat.mod_lt n (by omega)))
      rw [Nat.mul_comm, Nat.div_add_mod] at hforms
      rw [Nat.toDigits_of_base_le hone hle]
      exact hforms

/-! ## What is wrong with a text -/

/--
What is wrong with a text at a place: there is no digit, or the digits up to there form a number that exceeds
the limit.
-/
inductive Wrong (base limit : Nat) (cs : List Char) (k : Nat) : Fault → Prop where
  | invalidDigit {c : Char} : cs[k]? = some c → (∀ d, ¬ IsDigit base c d) →
      Wrong base limit cs k .invalidDigit
  | tooLarge {n : Nat} : k < cs.length → Forms base (cs.take (k + 1)) n → limit < n →
      Wrong base limit cs k .tooLarge

/-- The fault of a text is the one at the leftmost place at which something is wrong. -/
def FirstWrong (base limit : Nat) (cs : List Char) (e : Fault) : Prop :=
  ∃ k, Wrong base limit cs k e ∧ ∀ j < k, ∀ e', ¬ Wrong base limit cs j e'

/-- What reading digits has to give: the number that they form, or their fault. -/
inductive Outcome (base limit : Nat) (cs : List Char) : Except Fault Nat → Prop where
  | number {n : Nat} : Forms base cs n → n ≤ limit → Outcome base limit cs (.ok n)
  | fault {e : Fault} : FirstWrong base limit cs e → Outcome base limit cs (.error e)

theorem Wrong.lt_length (h : Wrong base limit cs k e) : k < cs.length := by
  cases h with
  | invalidDigit hc => exact (List.getElem?_eq_some_iff.mp hc).1
  | tooLarge hlt => exact hlt

/-- At one place there is only one fault: where there is no digit, the number goes no further. -/
theorem Wrong.unique {e' : Fault} (h : Wrong base limit cs k e) (h' : Wrong base limit cs k e') :
    e = e' := by
  have hdigit : ∀ {c n}, cs[k]? = some c → (∀ d, ¬ IsDigit base c d) →
      ¬ Forms base (cs.take (k + 1)) n := by
    intro c n hc hnot hforms
    have hc' : (cs.take (k + 1))[k]? = some c := by rw [List.getElem?_take_of_succ, hc]
    obtain ⟨d, hd⟩ := hforms.exists_digit hc'
    exact hnot d hd
  cases h with
  | invalidDigit hc hnot =>
    cases h' with
    | invalidDigit => rfl
    | tooLarge _ hforms => exact absurd hforms (hdigit hc hnot)
  | tooLarge _ hforms =>
    cases h' with
    | invalidDigit hc hnot => exact absurd hforms (hdigit hc hnot)
    | tooLarge => rfl

theorem FirstWrong.unique {e' : Fault} (h : FirstWrong base limit cs e)
    (h' : FirstWrong base limit cs e') : e = e' := by
  obtain ⟨k, hk, hfirst⟩ := h
  obtain ⟨k', hk', hfirst'⟩ := h'
  rcases Nat.lt_trichotomy k k' with hlt | rfl | hlt
  · exact absurd hk (hfirst' k hlt e)
  · exact hk.unique hk'
  · exact absurd hk' (hfirst k' hlt e')

section Reading

variable (hpos : 0 < base) (hbase : base ≤ 16)
include hpos hbase

/-- Nothing is wrong in the part of a text that forms a number within the limit. -/
theorem not_wrong_of_forms (hpre : Forms base pre n) (hle : n ≤ limit) (hk : k < pre.length) :
    ¬ Wrong base limit (pre ++ cs) k e := by
  intro h
  cases h with
  | invalidDigit hc hnot =>
    rw [List.getElem?_append_left hk] at hc
    obtain ⟨d, hd⟩ := hpre.exists_digit hc
    exact hnot d hd
  | tooLarge _ hforms hlarge =>
    rw [List.take_append_of_le_length hk] at hforms
    have hgrow := hpre.take_le hpos hbase hforms
    omega

/-- Behind digits that form a number, reading goes on to what all of them are to give. -/
theorem outcome_readDigits (hpre : Forms base pre value) (hle : value ≤ limit) :
    Outcome base limit (pre ++ cs) (readDigits base limit value cs) := by
  induction cs generalizing pre value with
  | nil =>
    rw [List.append_nil]
    exact .number hpre hle
  | cons c cs ih =>
    have hplace : (pre ++ c :: cs)[pre.length]? = some c := by simp
    have hearlier : ∀ j < pre.length, ∀ e, ¬ Wrong base limit (pre ++ c :: cs) j e := fun j hj e =>
      not_wrong_of_forms hpos hbase hpre hle hj
    have hsplit : pre ++ c :: cs = (pre ++ [c]) ++ cs := by simp
    cases hd : digit? base c with
    | none =>
      simp only [readDigits, hd]
      refine .fault ⟨pre.length, .invalidDigit hplace fun d h => ?_, hearlier⟩
      rw [(digit?_eq_some_iff hbase).mpr h] at hd
      cases hd
    | some d =>
      have hnext := hpre.snoc ((digit?_eq_some_iff hbase).mp hd)
      simp only [readDigits, hd]
      by_cases hfits : value * base + d ≤ limit
      · rw [if_pos hfits, hsplit]
        exact ih hnext hfits
      · have hforms : Forms base ((pre ++ c :: cs).take (pre.length + 1)) (value * base + d) := by
          rw [hsplit, List.take_left' (by simp)]
          exact hnext
        rw [if_neg hfits]
        exact .fault ⟨pre.length, .tooLarge (by simp) hforms (Nat.not_le.mp hfits), hearlier⟩

theorem Outcome.unique {r r' : Except Fault Nat} (h : Outcome base limit cs r)
    (h' : Outcome base limit cs r') : r = r' := by
  have hright : ∀ {n e}, Forms base cs n → n ≤ limit → ¬ FirstWrong base limit cs e := by
    rintro n e hforms hle ⟨k, hk, -⟩
    rw [← List.append_nil cs] at hk
    exact not_wrong_of_forms hpos hbase hforms hle (by simpa using hk.lt_length) hk
  cases h with
  | number hforms hle =>
    cases h' with
    | number hforms' => rw [hforms.unique hbase hforms']
    | fault hwrong => exact absurd hwrong (hright hforms hle)
  | fault hwrong =>
    cases h' with
    | number hforms hle => exact absurd hwrong (hright hforms hle)
    | fault hwrong' => rw [hwrong.unique hwrong']

/-- **Reading digits gives the number that they form, or the fault at their leftmost wrong place.** -/
theorem readDigits_eq_iff {r : Except Fault Nat} :
    readDigits base limit 0 cs = r ↔ Outcome base limit cs r := by
  have houtcome : Outcome base limit cs (readDigits base limit 0 cs) :=
    outcome_readDigits hpos hbase forms_nil (Nat.zero_le limit)
  constructor
  · rintro rfl
    exact houtcome
  · exact houtcome.unique hpos hbase

end Reading

/-! ## Signs -/

/-- The digits of a text: what is behind one `+`, if one is in front. -/
def unsigned : List Char → List Char
  | '+' :: cs => cs
  | cs => cs

/-- The text is a number: digits, at least one, with at most one `+` in front. -/
def Spelled (base : Nat) (cs : List Char) (n : Nat) : Prop :=
  ∃ sign digits, cs = sign ++ digits ∧ (sign = [] ∨ sign = ['+']) ∧ digits ≠ [] ∧ Forms base digits n

/-- Why a text is not read: it is empty or only a sign, or else something is wrong with its digits. -/
inductive Refused (base limit : Nat) : List Char → Fault → Prop where
  | empty : Refused base limit [] .empty
  | sign {c : Char} : c = '+' ∨ c = '-' → Refused base limit [c] .invalidDigit
  | digits {cs : List Char} {e : Fault} : cs ≠ [] → cs ≠ ['+'] → cs ≠ ['-'] →
      FirstWrong base limit (unsigned cs) e → Refused base limit cs e

/-- Nothing else is said of a text as if it were empty. -/
theorem refused_empty_iff : Refused base limit cs .empty ↔ cs = [] := by
  constructor
  · rintro (_ | _ | ⟨-, -, -, k, hwrong, -⟩)
    · rfl
    · cases hwrong
  · rintro rfl
    exact .empty

theorem unsigned_of_ne (hc : c ≠ '+') : unsigned (c :: cs) = c :: cs := by
  unfold unsigned
  split
  · next heq => exact absurd (List.cons.inj heq).1 hc
  · rfl

/-- A sign is no digit. -/
theorem not_isDigit_of_sign (hbase : base ≤ 16) (hc : c = '+' ∨ c = '-') (d : Nat) :
    ¬ IsDigit base c d := by
  intro h
  have hd := (digit?_eq_some_iff hbase).mpr h
  rcases hc with rfl | rfl <;> simp [digit?] at hd

/-- A number without its sign is not empty, and consists of digits only. -/
theorem spelled_iff (hbase : base ≤ 16) :
    Spelled base cs n ↔ cs ≠ [] ∧ cs ≠ ['+'] ∧ Forms base (unsigned cs) n := by
  constructor
  · rintro ⟨sign, digits, rfl, rfl | rfl, hne, hforms⟩
    · obtain ⟨c, cs, rfl⟩ := List.exists_cons_of_ne_nil hne
      obtain ⟨d, hd⟩ := hforms.exists_digit (k := 0) rfl
      have hc : c ≠ '+' := fun h => not_isDigit_of_sign hbase (.inl h) d hd
      refine ⟨hne, fun h => hc (List.cons.inj h).1, ?_⟩
      rw [List.nil_append, unsigned_of_ne hc]
      exact hforms
    · exact ⟨nofun, fun h => hne (List.cons.inj h).2, hforms⟩
  · rintro ⟨hne, hsign, hforms⟩
    obtain ⟨c, cs, rfl⟩ := List.exists_cons_of_ne_nil hne
    by_cases hc : c = '+'
    · subst hc
      exact ⟨['+'], cs, rfl, .inr rfl, fun h => hsign (by rw [h]), hforms⟩
    · rw [unsigned_of_ne hc] at hforms
      exact ⟨[], c :: cs, rfl, .inl rfl, hne, hforms⟩

/-- Where there is more than a `+`, the digits decide. -/
theorem read_eq_readDigits (hne : cs ≠ []) (hsign : cs ≠ ['+']) :
    read base limit cs = readDigits base limit 0 (unsigned cs) := by
  unfold read
  split
  · exact absurd rfl hne
  · exact absurd rfl hsign
  · rfl
  · next hplus =>
    obtain ⟨c, cs, rfl⟩ := List.exists_cons_of_ne_nil hne
    rw [unsigned_of_ne fun h => hplus cs (by rw [h])]

section Reading

variable (hpos : 0 < base) (hbase : base ≤ 16)
include hpos hbase

/-- **What is read is a number within the limit.** -/
theorem read_eq_ok_iff : read base limit cs = .ok n ↔ Spelled base cs n ∧ n ≤ limit := by
  rw [spelled_iff hbase]
  by_cases hne : cs = []
  · subst hne
    exact ⟨nofun, fun h => absurd rfl h.1.1⟩
  by_cases hsign : cs = ['+']
  · subst hsign
    exact ⟨nofun, fun h => absurd rfl h.1.2.1⟩
  rw [read_eq_readDigits hne hsign, readDigits_eq_iff hpos hbase]
  constructor
  · rintro (⟨hforms, hle⟩ | -)
    exact ⟨⟨hne, hsign, hforms⟩, hle⟩
  · rintro ⟨⟨-, -, hforms⟩, hle⟩
    exact .number hforms hle

/-- **What is not read has one of three faults.** -/
theorem read_eq_error_iff : read base limit cs = .error e ↔ Refused base limit cs e := by
  by_cases hne : cs = []
  · subst hne
    constructor
    · rintro ⟨⟩
      exact .empty
    · rintro (_ | _ | ⟨h, -⟩)
      · rfl
      · exact absurd rfl h
  by_cases hsign : cs = ['+']
  · subst hsign
    constructor
    · rintro ⟨⟩
      exact .sign (.inl rfl)
    · rintro (_ | _ | ⟨-, h, -⟩)
      · rfl
      · exact absurd rfl h
  rw [read_eq_readDigits hne hsign, readDigits_eq_iff hpos hbase]
  by_cases hminus : cs = ['-']
  · -- the sign is the leftmost wrong place
    have hwrong : FirstWrong base limit ['-'] .invalidDigit :=
      ⟨0, .invalidDigit rfl (not_isDigit_of_sign hbase (.inr rfl)), nofun⟩
    subst hminus
    constructor
    · rintro (_ | h)
      rw [FirstWrong.unique h hwrong]
      exact .sign (.inr rfl)
    · rintro (_ | _ | ⟨-, -, h, -⟩)
      · exact .fault hwrong
      · exact absurd rfl h
  · constructor
    · rintro (_ | h)
      exact .digits hne hsign hminus h
    · intro h
      cases h with
      | empty => exact absurd rfl hne
      | sign hc =>
        rcases hc with rfl | rfl
        · exact absurd rfl hsign
        · exact absurd rfl hminus
      | digits _ _ _ h => exact .fault h

end Reading

/-! ## Addresses -/

/-- What of a text is read, and in which base: hexadecimal what is behind `0x` or `0X`, else all in decimal. -/
inductive Handed : List Char → Nat → List Char → Prop where
  | hex {x : Char} {part : List Char} : x = 'x' ∨ x = 'X' → Handed ('0' :: x :: part) 16 part
  | decimal {t : List Char} : (∀ x part, x = 'x' ∨ x = 'X' → t ≠ '0' :: x :: part) → Handed t 10 t

/-- The text is an address: a hexadecimal number behind `0x` or `0X`, or a decimal one. -/
def IsAddress (t : List Char) (n : Nat) : Prop :=
  (∃ x part, (x = 'x' ∨ x = 'X') ∧ t = '0' :: x :: part ∧ Spelled 16 part n) ∨ Spelled 10 t n

variable {s : String} {t part : List Char} {a v : UInt16}

theorem exists_handed (t : List Char) : ∃ base part, Handed t base part := by
  by_cases h : ∃ x part, (x = 'x' ∨ x = 'X') ∧ t = '0' :: x :: part
  · obtain ⟨x, part, hx, rfl⟩ := h
    exact ⟨16, part, .hex hx⟩
  · exact ⟨10, t, .decimal fun x part hx ht => h ⟨x, part, hx, ht⟩⟩

theorem Handed.base_bounds (h : Handed t base part) : 0 < base ∧ base ≤ 16 := by
  cases h <;> decide

/-- An address is a number in the part that is read. -/
theorem Handed.isAddress_iff (h : Handed t base part) : IsAddress t n ↔ Spelled base part n := by
  have hletter : ∀ x d, x = 'x' ∨ x = 'X' → ¬ IsDigit 10 x d := by
    rintro x d hx hd
    have hdigit := (digit?_eq_some_iff (by decide)).mpr hd
    rcases hx with rfl | rfl <;> simp [digit?] at hdigit
  cases h with
  | hex hx =>
    constructor
    · rintro (⟨y, part', -, heq, h⟩ | h)
      · cases heq
        exact h
      · -- the letter is no decimal digit
        obtain ⟨-, -, hforms⟩ := (spelled_iff (by decide)).mp h
        rw [unsigned_of_ne (by decide)] at hforms
        obtain ⟨d, hd⟩ := hforms.exists_digit (k := 1) rfl
        exact absurd hd (hletter _ d hx)
    · exact fun h => .inl ⟨_, _, hx, rfl, h⟩
  | decimal hnone =>
    constructor
    · rintro (⟨x, part, hx, heq, -⟩ | h)
      · exact absurd heq (hnone x part hx)
      · exact h
    · exact .inr

theorem Handed.readAddress_eq (h : Handed (Blank.trim s.toList) base part) :
    readAddress s = UInt16.ofNat <$> read base 65535 part := by
  unfold readAddress
  generalize Blank.trim s.toList = t at h
  cases h with
  | hex hx => rcases hx with rfl | rfl <;> rfl
  | decimal hnone =>
    dsimp only
    split
    · exact absurd rfl (hnone _ _ (.inl rfl))
    · exact absurd rfl (hnone _ _ (.inr rfl))
    · rfl

theorem readAddress_eq_ok_iff : readAddress s = .ok v ↔ IsAddress (Blank.trim s.toList) v.toNat := by
  obtain ⟨base, part, h⟩ := exists_handed (Blank.trim s.toList)
  obtain ⟨hpos, hbase⟩ := h.base_bounds
  have hle : v.toNat ≤ 65535 := Nat.le_of_lt_succ v.toNat_lt
  rw [h.isAddress_iff, h.readAddress_eq]
  constructor
  · intro hread
    cases hr : read base 65535 part with
    | error e =>
      rw [hr] at hread
      cases hread
    | ok n =>
      rw [hr] at hread
      obtain ⟨hspelled, hn⟩ := (read_eq_ok_iff hpos hbase).mp hr
      have hv : v.toNat = n := by
        rw [← Except.ok.inj hread]
        exact UInt16.toNat_ofNat_of_lt' (Nat.lt_succ_of_le hn)
      rw [hv]
      exact hspelled
  · intro hspelled
    rw [(read_eq_ok_iff hpos hbase).mpr ⟨hspelled, hle⟩]
    show Except.ok (UInt16.ofNat v.toNat) = _
    rw [UInt16.ofNat_toNat]

theorem readAddress_eq_error_iff :
    readAddress s = .error e ↔
      ∃ base part, Handed (Blank.trim s.toList) base part ∧ Refused base 65535 part e := by
  have herror : ∀ {base part}, Handed (Blank.trim s.toList) base part →
      (readAddress s = .error e ↔ Refused base 65535 part e) := by
    intro base part h
    obtain ⟨hpos, hbase⟩ := h.base_bounds
    rw [← read_eq_error_iff hpos hbase, h.readAddress_eq]
    cases read base 65535 part with
    | error e' => exact ⟨fun h => congrArg _ (Except.error.inj h), fun h => congrArg _ (Except.error.inj h)⟩
    | ok n => exact ⟨nofun, nofun⟩
  constructor
  · intro hread
    obtain ⟨base, part, h⟩ := exists_handed (Blank.trim s.toList)
    exact ⟨base, part, h, (herror h).mp hread⟩
  · rintro ⟨base, part, h, hrefused⟩
    exact (herror h).mpr hrefused

/-- A decimal address can be typed. -/
theorem readAddress_toString (a : UInt16) : readAddress (toString a.toNat) = .ok a := by
  have hforms : Forms 10 (Nat.toDigits 10 a.toNat) a.toNat := forms_toDigits (by decide) (by decide) _
  have hblank : ∀ c ∈ Nat.toDigits 10 a.toNat, Blank.isBlank c = false := by
    have hdigit : ∀ d < 10, Blank.isBlank (Nat.digitChar d) = false ∧
        Blank.isBlank (Nat.digitChar d).toUpper = false := by decide
    intro c hc
    obtain ⟨k, hk⟩ := List.getElem?_of_mem hc
    obtain ⟨d, hd, rfl | rfl⟩ := hforms.exists_digit hk
    · exact (hdigit d hd).1
    · exact (hdigit d hd).2
  rw [readAddress_eq_ok_iff, Nat.toString_eq_repr, Nat.toList_repr, Blank.trim_eq_self hblank]
  exact .inr ⟨[], _, rfl, .inl rfl, Nat.toDigits_ne_nil, hforms⟩

/--
**Exactly the addresses are read.**

Blanks around a text do not count. What is left is read as the number that it is, if it is an address of 16
bits. Otherwise the fault is that there is nothing to read, or that there is only a sign, or else what is wrong
at the leftmost place at which something is. And all forms in which addresses are shown are read.
-/
theorem readAddress_exact (s : String) :
    (∀ t, Blank.Strips s.toList t ↔ t = Blank.trim s.toList) ∧
      (∀ v : UInt16, readAddress s = .ok v ↔ IsAddress (Blank.trim s.toList) v.toNat) ∧
      (∀ e, readAddress s = .error e ↔
        ∃ base part, Handed (Blank.trim s.toList) base part ∧ Refused base 65535 part e) ∧
      (readAddress s = .error .empty ↔ ∃ base, Handed (Blank.trim s.toList) base []) ∧
      ∀ a : UInt16, readAddress (address a) = .ok a ∧ readAddress (hex a.toNat) = .ok a ∧
        readAddress (toString a.toNat) = .ok a := by
  refine ⟨fun t => ⟨Blank.Strips.eq_trim, ?_⟩, fun _ => readAddress_eq_ok_iff,
    fun _ => readAddress_eq_error_iff, ?_, fun a => ?_⟩
  · rintro rfl
    exact Blank.strips_trim s.toList
  · rw [readAddress_eq_error_iff]
    simp only [refused_empty_iff, exists_eq_right]
  · exact ⟨readAddress_address a, readAddress_hexPadded 1 a, readAddress_toString a⟩

/-- At one place a wrong digit comes before a number that is too large. -/
example : readAddress "65535z" = .error .invalidDigit := rfl

end Numeral

end Chip8
