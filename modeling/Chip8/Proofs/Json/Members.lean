import Chip8.Proofs.Basic
import Chip8.Proofs.Json.Document
import Mathlib.Data.List.Perm.Basic

/-!
# Reading objects

An object is read key by key. So neither the order of its members nor members that nobody asks for make a
difference (`Json.Extends.required?_eq`). Where a tag says which members are read, the tag decides which keys
count (`Json.Owns`). A way to write values and to read them is faithful if values are read back, also from
such objects, and from the document (`Json.Faithful`).
-/

namespace Chip8.Json

variable {α : Type} {key : String} {v : Json} {ms ms' : List (String × Json)}
  {write : α → Json} {read? : Json → Option α}

/-! ## Numbers and texts -/

@[simp]
theorem nat?_eq_some_iff {limit n : Nat} : v.nat? limit = some n ↔ v = nat n ∧ n ≤ limit := by
  unfold nat? nat
  split
  · next m =>
    rw [Option.ite_none_right_eq_some, Option.some.injEq, Json.int.injEq]
    constructor
    · rintro ⟨hle, rfl⟩
      exact ⟨rfl, hle⟩
    · rintro ⟨heq, hle⟩
      obtain rfl := Int.ofNat.inj heq
      exact ⟨hle, rfl⟩
  · next hv => exact ⟨nofun, fun h => absurd h.1 (hv n)⟩

/-- **A byte is read from its number only.** -/
@[simp]
theorem uint8?_eq_some_iff {b : UInt8} : v.uint8? = some b ↔ v = nat b.toNat := by
  simp only [uint8?, Option.map_eq_map, Option.map_eq_some_iff, nat?_eq_some_iff]
  constructor
  · rintro ⟨n, ⟨rfl, hle⟩, rfl⟩
    rw [UInt8.toNat_ofNat_of_lt' (Nat.lt_succ_of_le hle)]
  · rintro rfl
    exact ⟨b.toNat, ⟨rfl, Nat.le_of_lt_succ b.toNat_lt⟩, UInt8.ofNat_toNat⟩

/-- **A word is read from its number only.** -/
@[simp]
theorem uint16?_eq_some_iff {a : UInt16} : v.uint16? = some a ↔ v = nat a.toNat := by
  simp only [uint16?, Option.map_eq_map, Option.map_eq_some_iff, nat?_eq_some_iff]
  constructor
  · rintro ⟨n, ⟨rfl, hle⟩, rfl⟩
    rw [UInt16.toNat_ofNat_of_lt' (Nat.lt_succ_of_le hle)]
  · rintro rfl
    exact ⟨a.toNat, ⟨rfl, Nat.le_of_lt_succ a.toNat_lt⟩, UInt16.ofNat_toNat⟩

@[simp]
theorem text?_eq_some_iff {s : String} : v.text? = some s ↔ v = text s := by
  cases v <;> simp [text?, text]

/-! ## What can be written -/

theorem writable_nat {n : Nat} (h : n < UInt16.size) : Writable (nat n) := by
  refine .int ((Nat.length_toDigits_le_iff (by decide) (by decide)).mpr ?_)
  exact h.trans (by decide)

theorem writable_listOf {xs : List α} (h : ∀ x ∈ xs, Writable (write x)) :
    Writable (listOf write xs) := by
  refine .list fun v hv => ?_
  obtain ⟨x, hx, rfl⟩ := List.mem_map.mp hv
  exact h x hx

theorem writable_record (h : (ms.map Prod.snd).Forall Writable) : Writable (record ms) :=
  .record fun _ hm => List.forall_iff_forall_mem.mp h _ (List.mem_map_of_mem hm)

/-! ## Members -/

/-- The keys of a record denote text. -/
@[simp]
theorem members?_record (ms : List (String × Json)) : (record ms).members? = some ms := by
  show (ms.map fun m => (some m.1, m.2)).mapM _ = some ms
  induction ms with
  | nil => rfl
  | cons m ms ih =>
    rw [List.map_cons, List.mapM_cons, ih]
    rfl

theorem record_injective : Function.Injective record := by
  intro ms ms' h
  have hms : members? (record ms) = members? (record ms') := congrArg members? h
  rwa [members?_record, members?_record, Option.some.injEq] at hms

@[simp]
theorem valuesOf_append (ms ms' : List (String × Json)) :
    valuesOf key (ms ++ ms') = valuesOf key ms ++ valuesOf key ms' :=
  List.filterMap_append

@[simp]
theorem mem_valuesOf : v ∈ valuesOf key ms ↔ (key, v) ∈ ms := by
  simp [valuesOf, List.mem_filterMap]

theorem valuesOf_eq_nil (h : key ∉ ms.map Prod.fst) : valuesOf key ms = [] :=
  List.eq_nil_iff_forall_not_mem.mpr fun _ hv =>
    h (List.mem_map_of_mem (mem_valuesOf.mp hv))

theorem required?_eq_join (ms : List (String × Json)) (key : String) :
    required? ms key = (optional? ms key).join := by
  unfold required? optional?
  rcases valuesOf key ms with _ | ⟨v, _ | ⟨w, vs⟩⟩ <;> rfl

theorem mem_of_required? (h : required? ms key = some v) : (key, v) ∈ ms := by
  unfold required? at h
  split at h
  · next w hw =>
    cases h
    exact mem_valuesOf.mp (hw ▸ List.mem_singleton_self v)
  · cases h

/-- Where no key repeats, every member is found. -/
theorem required?_of_mem (hnodup : (ms.map Prod.fst).Nodup) (h : (key, v) ∈ ms) :
    required? ms key = some v := by
  have hvalues : valuesOf key ms = [v] := by
    obtain ⟨before, behind, rfl⟩ := List.append_of_mem h
    rw [List.map_append, List.map_cons, List.perm_middle.nodup_iff, List.nodup_cons,
      List.mem_append, not_or] at hnodup
    obtain ⟨⟨hbefore, hbehind⟩, -⟩ := hnodup
    have hfirst : valuesOf key ((key, v) :: behind) = v :: valuesOf key behind :=
      List.filterMap_cons_some (if_pos rfl)
    rw [valuesOf_append, hfirst, valuesOf_eq_nil hbefore, valuesOf_eq_nil hbehind, List.nil_append]
  rw [required?, hvalues]

/-! ## Other members, another order -/

/-- The members `ms'` are the members `ms` in any order, and more whose keys do not count. -/
def Extends (Counts : String → Prop) (ms ms' : List (String × Json)) : Prop :=
  ∃ more, (∀ m ∈ more, ¬ Counts m.1) ∧ ms'.Perm (ms ++ more)

namespace Extends

variable {Counts : String → Prop}

theorem valuesOf_perm (h : Extends Counts ms ms') (hkey : Counts key) :
    (valuesOf key ms').Perm (valuesOf key ms) := by
  obtain ⟨more, hmore, hperm⟩ := h
  have hnone : valuesOf key more = [] := by
    refine valuesOf_eq_nil fun hmem => ?_
    obtain ⟨m, hm, rfl⟩ := List.mem_map.mp hmem
    exact hmore m hm hkey
  have hall : (valuesOf key ms').Perm (valuesOf key (ms ++ more)) := hperm.filterMap _
  rwa [valuesOf_append, hnone, List.append_nil] at hall

/-- **What is read of a key that counts is the same.** -/
theorem optional?_eq (h : Extends Counts ms ms') (hkey : Counts key) :
    optional? ms' key = optional? ms key := by
  have hperm := h.valuesOf_perm hkey
  unfold optional?
  generalize valuesOf key ms' = vs', valuesOf key ms = vs at hperm
  rcases vs with _ | ⟨v, _ | ⟨w, vs⟩⟩
  · rw [hperm.eq_nil]
  · rw [hperm.eq_singleton]
  · -- of several values none is read, whichever they are
    have hlen := hperm.length_eq
    rcases vs' with _ | ⟨v', _ | ⟨w', vs'⟩⟩
    · cases hlen
    · cases hlen
    · rfl

theorem required?_eq (h : Extends Counts ms ms') (hkey : Counts key) :
    required? ms' key = required? ms key := by
  rw [required?_eq_join, required?_eq_join, h.optional?_eq hkey]

end Extends

/-- An object may be any other one that says the same of the keys that count. -/
inductive Loosens (Counts : List (String × Json) → String → Prop) : Json → Json → Prop
  | refl (v : Json) : Loosens Counts v v
  | record {ms ms' : List (String × Json)} (h : Extends (Counts ms) ms ms') :
    Loosens Counts (record ms) (record ms')

/-! ## Writing and reading -/

/--
Values are read back as they were written, and no two of them are written the same. What is read from an object
that says more, or says it in another order, is the same.
-/
structure Faithful (write : α → Json) (read? : Json → Option α) (Loosens : Json → Json → Prop) :
    Prop where
  read?_write : ∀ x, read? (write x) = some x
  /-- A value is also read back from a document, in either layout. -/
  read?_document : ∀ x, parse? (write x).compact >>= read? = some x ∧
    parse? (write x).pretty >>= read? = some x
  read?_loosened : ∀ v v', Loosens v v' → read? v' = read? v
  write_injective : Function.Injective write
  eq_of_loosens : ∀ x y, Loosens (write x) (write y) → x = y

theorem Faithful.of_writable {Loosens : Json → Json → Prop} (hwritable : ∀ x, Writable (write x))
    (hwrite : ∀ x, read? (write x) = some x) (hloose : ∀ v v', Loosens v v' → read? v' = read? v) :
    Faithful write read? Loosens where
  read?_write := hwrite
  read?_document x := by
    rw [parse?_compact (hwritable x), (parse?_pretty (hwritable x)).1]
    exact ⟨hwrite x, hwrite x⟩
  read?_loosened := hloose
  write_injective x y h := by
    rw [← Option.some.injEq, ← hwrite x, ← hwrite y, h]
  eq_of_loosens x y h := by
    rw [← Option.some.injEq, ← hwrite x, ← hwrite y, hloose _ _ h]

/-! ## Lists -/

/-- A list may be another one, item by item. -/
inductive LoosensItems (Loosens : Json → Json → Prop) : Json → Json → Prop
  | refl (v : Json) : LoosensItems Loosens v v
  | list {vs vs' : List Json} (h : List.Forall₂ Loosens vs vs') :
    LoosensItems Loosens (list vs) (list vs')

/-! ## Tagged values -/

/--
The keys that count where a tag says what kind of value it is: the key of the tag, and those under which values
with such a tag are written.
-/
def Owns (key : String) (write : α → Json) (ms : List (String × Json)) (k : String) : Prop :=
  k = key ∨ ∃ x own tag, write x = record own ∧ (key, tag) ∈ own ∧ (key, tag) ∈ ms ∧
    k ∈ own.map Prod.fst

/-- The members of a value with a tag and numbers. -/
def tagged (key tag : String) (numbers : List (String × Nat)) : List (String × Json) :=
  (key, text tag) :: numbers.map fun (k, n) => (k, nat n)

@[simp]
theorem map_fst_tagged (key tag : String) (numbers : List (String × Nat)) :
    (tagged key tag numbers).map Prod.fst = key :: numbers.map Prod.fst := by
  rw [tagged, List.map_cons, List.map_map]
  rfl

/-- Values are written with a tag and numbers, each under its own key, and are read from just these. -/
structure Tagged (key : String) (tag : α → String) (numbers : α → List (String × Nat))
    (write : α → Json) (read? : Json → Option α) : Prop where
  write_eq : ∀ x, write x = record (tagged key (tag x) (numbers x))
  nodup : ∀ x, (key :: (numbers x).map Prod.fst).Nodup
  lt : ∀ x, ∀ number ∈ numbers x, number.2 < UInt16.size
  read?_eq_some_iff : ∀ ms x, read? (record ms) = some x ↔
    required? ms key = some (text (tag x)) ∧
      ∀ number ∈ numbers x, required? ms number.1 = some (nat number.2)

namespace Tagged

variable {tag : α → String} {numbers : α → List (String × Nat)}

/-- Values are read from their tag and numbers if a tag is read as a value of that tag, from its numbers. -/
theorem of_ofMembers? {keys : String → List String}
    {ofMembers? : String → List (String × Json) → Option α}
    (hread : ∀ v, read? v = v.tagged? key keys >>= fun m => ofMembers? m.1 m.2)
    (hwrite : ∀ x, write x = record (tagged key (tag x) (numbers x)))
    (hnodup : ∀ x, (key :: (numbers x).map Prod.fst).Nodup)
    (hlt : ∀ x, ∀ number ∈ numbers x, number.2 < UInt16.size)
    (htag : ∀ ms t x, ofMembers? t ms = some x → tag x = t)
    (hnumbers : ∀ ms x, ofMembers? (tag x) ms = some x ↔
      ∀ number ∈ numbers x, required? ms number.1 = some (nat number.2)) :
    Tagged key tag numbers write read? where
  write_eq := hwrite
  nodup := hnodup
  lt := hlt
  read?_eq_some_iff ms x := by
    have htagged : (record ms).tagged? key keys =
        (required? ms key >>= text?) >>= fun t => some (t, ms) := by
      show ((record ms).members? >>= _) = _
      rw [members?_record]
      rfl
    simp only [hread, htagged, Option.bind_eq_bind, Option.bind_assoc, Option.bind_some,
      Option.bind_eq_some_iff, text?_eq_some_iff]
    constructor
    · rintro ⟨v, hv, t, rfl, hx⟩
      obtain rfl := htag ms t x hx
      exact ⟨hv, (hnumbers ms x).mp hx⟩
    · rintro ⟨hv, hx⟩
      exact ⟨_, hv, tag x, rfl, (hnumbers ms x).mpr hx⟩

/-- Beside the tag, the keys of the numbers count that values with this tag have. -/
theorem owns_iff (h : Tagged key tag numbers write read?) {k : String} :
    Owns key write ms k ↔
      k = key ∨ ∃ x, (key, text (tag x)) ∈ ms ∧ k ∈ (numbers x).map Prod.fst := by
  refine ⟨?_, ?_⟩
  · rintro (rfl | ⟨x, own, t, hx, hown, hms, hk⟩)
    · exact .inl rfl
    · rw [h.write_eq] at hx
      obtain rfl := record_injective hx
      rw [map_fst_tagged, List.mem_cons] at hk
      refine hk.imp_right fun hk => ⟨x, ?_, hk⟩
      rcases List.mem_cons.mp hown with htag | hnumber
      · rwa [← htag]
      · -- the key of the tag is none of the others
        obtain ⟨number, hnumber, heq⟩ := List.mem_map.mp hnumber
        have hkey : number.1 = key := congrArg Prod.fst heq
        exact absurd (List.mem_map.mpr ⟨number, hnumber, hkey⟩) (List.nodup_cons.mp (h.nodup x)).1
  · rintro (rfl | ⟨x, hms, hk⟩)
    · exact .inl rfl
    · refine .inr ⟨x, _, _, h.write_eq x, List.mem_cons_self, hms, ?_⟩
      rw [map_fst_tagged]
      exact List.mem_cons_of_mem key hk

theorem read?_write (h : Tagged key tag numbers write read?) (x : α) : read? (write x) = some x := by
  have hnodup : ((tagged key (tag x) (numbers x)).map Prod.fst).Nodup := by
    rw [map_fst_tagged]
    exact h.nodup x
  rw [h.write_eq, h.read?_eq_some_iff]
  refine ⟨required?_of_mem hnodup List.mem_cons_self, fun number hnumber => ?_⟩
  exact required?_of_mem hnodup (List.mem_cons_of_mem _ (List.mem_map.mpr ⟨number, hnumber, rfl⟩))

theorem writable (h : Tagged key tag numbers write read?) (x : α) : Writable (write x) := by
  rw [h.write_eq]
  refine .record fun m hm => ?_
  rcases List.mem_cons.mp hm with rfl | hm
  · exact .text _
  · obtain ⟨number, hnumber, rfl⟩ := List.mem_map.mp hm
    exact writable_nat (h.lt x number hnumber)

/-- **What is read depends on the keys that count.** -/
theorem read?_loosened (h : Tagged key tag numbers write read?) {v v' : Json}
    (hv : Loosens (Owns key write) v v') : read? v' = read? v := by
  cases hv with
  | refl => rfl
  | @record ms ms' hext =>
    have htag : required? ms' key = required? ms key := hext.required?_eq (.inl rfl)
    refine Option.ext fun x => ?_
    rw [h.read?_eq_some_iff, h.read?_eq_some_iff, htag]
    refine and_congr_right fun hms => forall₂_congr fun number hnumber => ?_
    have hkey : Owns key write ms number.1 :=
      h.owns_iff.mpr (.inr ⟨x, mem_of_required? hms, List.mem_map_of_mem hnumber⟩)
    rw [hext.required?_eq hkey]

theorem faithful (h : Tagged key tag numbers write read?) :
    Faithful write read? (Loosens (Owns key write)) :=
  .of_writable h.writable h.read?_write fun _ _ => h.read?_loosened

end Tagged

end Chip8.Json
