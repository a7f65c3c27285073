import Chip8.Labels
import Chip8.Proofs.Address
import Chip8.Proofs.Numeral

/-!
# Names of addresses

A name is either given or made up, and only what has no given name gets one that is made up
(`LabelMap.getElem?_build`). Names that were listed and are given again are all there is to a map
(`LabelMap.ofLabels_toLabels`), so nothing is left to be made up where they were made up before
(`LabelMap.build_toLabels`).

So which name an address has follows from an order of four sources (`LabelMap.build_assigns`). A made-up name
can be read back as its address, and so no two addresses have the same one.
-/

namespace Chip8

namespace LabelMap

variable {m : LabelMap} {labels : List Label} {x : Address}

/-! ## Given names -/

/-- Of the names that are given to an address the last one counts. -/
theorem getElem?_ofLabels (labels : List Label) (x : Address) :
    (ofLabels labels)[x]? = (labels.reverse.find? fun l => l.address == x).map Label.name := by
  suffices h : ∀ ls : List Label, (ofLabels ls.reverse)[x]? =
      (ls.find? fun l => l.address == x).map Label.name by
    have := h labels.reverse
    rwa [List.reverse_reverse] at this
  intro ls
  induction ls with
  | nil => simp [ofLabels]
  | cons l ls ih =>
    have hlast : ofLabels (l :: ls).reverse = (ofLabels ls.reverse).insert l.address l.name := by
      simp [ofLabels]
    rw [hlast, Std.ExtTreeMap.getElem?_insert, List.find?_cons]
    by_cases hl : l.address = x
    · simp [hl]
    · have hne : (l.address == x) = false := beq_eq_false_iff_ne.mpr hl
      simp [hl, hne, Std.LawfulEqCmp.compare_eq_iff_eq, ih]

/-- The labels of a map are its names. -/
@[simp]
theorem mem_toLabels_iff {l : Label} : l ∈ m.toLabels ↔ m[l.address]? = some l.name := by
  unfold toLabels
  rw [List.mem_map, ← Std.ExtTreeMap.mem_toList_iff_getElem?_eq_some]
  constructor
  · rintro ⟨⟨a, name⟩, h, rfl⟩
    exact h
  · intro h
    exact ⟨_, h, rfl⟩

/-- A map lists its names in ascending order of the addresses. -/
theorem pairwise_toLabels (m : LabelMap) :
    (m.toLabels.map Label.address).Pairwise (· < ·) := by
  unfold toLabels
  rw [List.map_map, List.pairwise_map]
  exact Std.ExtTreeMap.ordered_keys_toList.imp fun h => Std.compare_eq_lt.mp h

/-- **A map is given by its labels.** -/
@[simp]
theorem ofLabels_toLabels (m : LabelMap) : ofLabels m.toLabels = m := by
  refine Std.ExtTreeMap.ext_getElem? fun x => ?_
  rw [getElem?_ofLabels]
  cases hfind : m.toLabels.reverse.find? fun l => l.address == x with
  | some l =>
    obtain ⟨hx, -⟩ := List.find?_eq_some_iff_append.mp hfind
    have hmem : l ∈ m.toLabels := List.mem_reverse.mp (List.mem_of_find?_eq_some hfind)
    rw [beq_iff_eq] at hx
    rw [← hx, mem_toLabels_iff.mp hmem]
    rfl
  | none =>
    cases hget : m[x]? with
    | none => rfl
    | some name =>
      have hmem : ⟨x, name⟩ ∈ m.toLabels := mem_toLabels_iff.mpr hget
      have hne := List.find?_eq_none.mp hfind _ (List.mem_reverse.mpr hmem)
      exact absurd (beq_self_eq_true x) hne

/-! ## Made-up names -/

/-- Names that are there stay, and every other address of the list gets its name. -/
theorem getElem?_nameMissing (name : Address → String) (as : List Address) (m : LabelMap)
    (x : Address) :
    (nameMissing name as m)[x]? = m[x]?.or (if x ∈ as then some (name x) else none) := by
  induction as generalizing m with
  | nil => simp [nameMissing]
  | cons a as ih =>
    show (nameMissing name as (m.insertIfNew a (name a)))[x]? = _
    rw [ih, Std.ExtTreeMap.getElem?_insertIfNew]
    simp only [Std.LawfulEqCmp.compare_eq_iff_eq, List.mem_cons]
    by_cases hx : a = x
    · subst hx
      cases hm : m[a]? with
      | none =>
        have hnew : a ∉ m := by simp [Std.ExtTreeMap.mem_iff_isSome_getElem?, hm]
        simp [hnew]
      | some n =>
        have hold : a ∈ m := by simp [Std.ExtTreeMap.mem_iff_isSome_getElem?, hm]
        simp [hold]
    · have hx' : ¬ x = a := fun h => hx h.symm
      simp [hx, hx']

/-- The name that is made up for an address, if one is. -/
def madeUp? (img : Image) (seeds : List Address) (a : Analysis) (g : Graph) (x : Address) :
    Option String :=
  if x = img.entry ∧ img.entry ∈ seeds then some "entry"
  else if x ∈ seeds ∨ x ∈ a.callTargets then some (functionName x)
  else if ∃ b ∈ g.blocks, b.start = x then some (blockName x)
  else none

/-- **What has no given name has the one that is made up for it**, or none. -/
theorem getElem?_build (given : List Label) (img : Image) (seeds : List Address) (a : Analysis)
    (g : Graph) (x : Address) :
    (build given img seeds a g)[x]? = (ofLabels given)[x]?.or (madeUp? img seeds a g x) := by
  have hentry : x ∈ (if img.entry ∈ seeds then [img.entry] else []) ↔
      x = img.entry ∧ img.entry ∈ seeds := by
    by_cases h : img.entry ∈ seeds <;> simp [h]
  have hfunction : x ∈ seeds ++ a.callTargets.toList ↔ x ∈ seeds ∨ x ∈ a.callTargets := by
    simp
  have hblock : x ∈ g.blocks.map Block.start ↔ ∃ b ∈ g.blocks, b.start = x := List.mem_map
  simp only [build, getElem?_nameMissing, Option.or_assoc, hentry, hfunction, hblock]
  congr 1
  unfold madeUp?
  split
  · rfl
  · split <;> rfl

variable {given : List Label} {img img' : Image} {seeds seeds' : List Address} {a a' : Analysis}
  {g g' : Graph}

/-- **Names that were listed stay when they are given**, whatever they are given to. -/
theorem getElem?_build_toLabels {name : String} (h : m[x]? = some name) :
    (build m.toLabels img seeds a g)[x]? = some name := by
  rw [getElem?_build, ofLabels_toLabels, h]
  rfl

/-- **Names that were listed are all there are** for what they were made up for. -/
theorem build_toLabels :
    build (build given img seeds a g).toLabels img seeds a g = build given img seeds a g := by
  refine Std.ExtTreeMap.ext_getElem? fun x => ?_
  rw [getElem?_build, ofLabels_toLabels, getElem?_build, Option.or_assoc, Option.or_self]

/-! ## Which name an address has -/

/-- A given name counts if no other is given to the address behind it. -/
theorem ofLabels_eq_some_iff {name : String} :
    (ofLabels labels)[x]? = some name ↔
      ∃ before after, labels = before ++ ⟨x, name⟩ :: after ∧ ∀ l ∈ after, l.address ≠ x := by
  rw [getElem?_ofLabels, Option.map_eq_some_iff]
  constructor
  · rintro ⟨l, hfind, rfl⟩
    obtain ⟨hx, after, before, hsplit, hafter⟩ := List.find?_eq_some_iff_append.mp hfind
    obtain rfl : l.address = x := beq_iff_eq.mp hx
    refine ⟨before.reverse, after.reverse, ?_, fun l' hl' => ?_⟩
    · rw [← List.reverse_reverse labels, hsplit]
      simp
    · simpa using hafter l' (List.mem_reverse.mp hl')
  · rintro ⟨before, after, rfl, hafter⟩
    refine ⟨⟨x, name⟩, List.find?_eq_some_iff_append.mpr ⟨beq_self_eq_true x, ?_⟩, rfl⟩
    refine ⟨after.reverse, before.reverse, by simp, fun l hl => ?_⟩
    simpa using hafter l (List.mem_reverse.mp hl)

theorem ofLabels_eq_none_iff : (ofLabels labels)[x]? = none ↔ ∀ l ∈ labels, l.address ≠ x := by
  simp [getElem?_ofLabels]

/--
The name of an address: the last one that is given to it, or else `entry` where the program starts, if that is
a seed, or else the name of a function for a seed and for a target of a call, or else the name of a block where
one starts.
-/
inductive Assigned (given : List Label) (img : Image) (seeds : List Address) (a : Analysis)
    (g : Graph) (x : Address) : String → Prop where
  | given {before after : List Label} {name : String} :
      given = before ++ ⟨x, name⟩ :: after → (∀ l ∈ after, l.address ≠ x) →
      Assigned given img seeds a g x name
  | entry : (∀ l ∈ given, l.address ≠ x) → x = img.entry → img.entry ∈ seeds →
      Assigned given img seeds a g x "entry"
  | function : (∀ l ∈ given, l.address ≠ x) → ¬ (x = img.entry ∧ img.entry ∈ seeds) →
      x ∈ seeds ∨ x ∈ a.callTargets →
      Assigned given img seeds a g x ("sub_" ++ Numeral.hexDigits 4 x.toNat)
  | block : (∀ l ∈ given, l.address ≠ x) → ¬ (x = img.entry ∧ img.entry ∈ seeds) →
      ¬ (x ∈ seeds ∨ x ∈ a.callTargets) → (∃ b ∈ g.blocks, b.start = x) →
      Assigned given img seeds a g x ("loc_" ++ Numeral.hexDigits 4 x.toNat)

/-- **The name that an address gets is the one that is assigned to it.** -/
theorem getElem?_build_eq_some_iff {name : String} :
    (build given img seeds a g)[x]? = some name ↔ Assigned given img seeds a g x name := by
  rw [getElem?_build, Option.or_eq_some_iff]
  constructor
  · rintro (h | ⟨hnone, h⟩)
    · obtain ⟨before, after, hsplit, hafter⟩ := ofLabels_eq_some_iff.mp h
      exact .given hsplit hafter
    · have hgiven := ofLabels_eq_none_iff.mp hnone
      unfold madeUp? at h
      split at h
      · next hentry =>
        cases h
        exact .entry hgiven hentry.1 hentry.2
      split at h
      · next hentry hfunction =>
        cases h
        exact .function hgiven hentry hfunction
      split at h
      · next hentry hfunction hblock =>
        cases h
        exact .block hgiven hentry hfunction hblock
      · cases h
  · intro h
    cases h with
    | given hsplit hafter => exact .inl (ofLabels_eq_some_iff.mpr ⟨_, _, hsplit, hafter⟩)
    | entry hgiven hx hseed =>
      exact .inr ⟨ofLabels_eq_none_iff.mpr hgiven, if_pos ⟨hx, hseed⟩⟩
    | function hgiven hentry hfunction =>
      refine .inr ⟨ofLabels_eq_none_iff.mpr hgiven, ?_⟩
      rw [madeUp?, if_neg hentry, if_pos hfunction, functionName]
    | block hgiven hentry hfunction hblock =>
      refine .inr ⟨ofLabels_eq_none_iff.mpr hgiven, ?_⟩
      rw [madeUp?, if_neg hentry, if_neg hfunction, if_pos hblock, blockName]

/-- What is given a name, a seed, the target of a call or the start of a block has a name, and no more. -/
theorem mem_build_iff :
    x ∈ build given img seeds a g ↔
      (∃ l ∈ given, l.address = x) ∨ x ∈ seeds ∨ x ∈ a.callTargets ∨
        ∃ b ∈ g.blocks, b.start = x := by
  have hgiven : (ofLabels given)[x]?.isSome = true ↔ ∃ l ∈ given, l.address = x := by
    rw [← Option.isNone_eq_false_iff, ← Bool.not_eq_true, Option.isNone_iff_eq_none,
      ofLabels_eq_none_iff]
    simp
  have hmadeUp : (madeUp? img seeds a g x).isSome = true ↔
      x ∈ seeds ∨ x ∈ a.callTargets ∨ ∃ b ∈ g.blocks, b.start = x := by
    unfold madeUp?
    split
    · next h => exact ⟨fun _ => .inl (h.1 ▸ h.2), fun _ => rfl⟩
    split
    · next h => exact ⟨fun _ => or_assoc.mp (.inl h), fun _ => rfl⟩
    split
    · next h => exact ⟨fun _ => .inr (.inr h), fun _ => rfl⟩
    · next hfunction hblock =>
      refine ⟨nofun, fun h => ?_⟩
      rcases or_assoc.mpr h with h | h
      · exact absurd h hfunction
      · exact absurd h hblock
  rw [Std.ExtTreeMap.mem_iff_isSome_getElem?, getElem?_build, Option.isSome_or, Bool.or_eq_true,
    hgiven, hmadeUp]

/-! ## Whose name it is -/

/-- The address of a made-up name: the entry, or what the digits behind the first four characters say. -/
def bearer (entry : Address) (name : String) : Except Numeral.Fault Address :=
  if name = "entry" then .ok entry
  else UInt16.ofNat <$> Numeral.readDigits 16 (UInt16.size - 1) 0 (name.toList.drop 4)

/-- Behind four characters the address is read back. -/
theorem bearer_append {entry : Address} {kind : String} (hlength : kind.toList.length = 4)
    (hentry : kind ++ Numeral.hexDigits 4 x.toNat ≠ "entry") :
    bearer entry (kind ++ Numeral.hexDigits 4 x.toNat) = .ok x := by
  have hle : x.toNat ≤ UInt16.size - 1 := Nat.le_sub_one_of_lt x.toNat_lt
  rw [bearer, if_neg hentry, String.toList_append, List.drop_left' hlength,
    Numeral.readDigits_hexDigits 4 hle]
  show Except.ok (UInt16.ofNat x.toNat) = _
  rw [UInt16.ofNat_toNat]

/-- **A made-up name tells its address.** -/
theorem bearer_of_madeUp? {name : String} (h : madeUp? img seeds a g x = some name) :
    bearer img.entry name = .ok x := by
  have hhead : ∀ (c : Char) (kind digits : String), kind.toList.head? = some c → c ≠ 'e' →
      kind ++ digits ≠ "entry" := by
    rintro c kind digits hc hne h
    have hlist := congrArg (fun s => s.toList.head?) h
    simp only [String.toList_append, List.head?_append, hc, Option.some_or] at hlist
    exact hne (Option.some.inj hlist)
  unfold madeUp? at h
  split at h
  · next hentry =>
    cases h
    rw [hentry.1]
    rfl
  split at h
  · cases h
    exact bearer_append rfl (hhead 's' _ _ rfl (by decide))
  split at h
  · cases h
    exact bearer_append rfl (hhead 'l' _ _ rfl (by decide))
  · cases h

/-- Where no names are given, all are made up. -/
theorem getElem?_build_nil : (build [] img seeds a g)[x]? = madeUp? img seeds a g x := by
  have hnone : (ofLabels [])[x]? = none := ofLabels_eq_none_iff.mpr nofun
  rw [getElem?_build, hnone, Option.none_or]

/--
**Every address that needs a name has one, from the first source that has a name for it.**

No other address has a name. The made-up names of functions and blocks show the address in four digits. Where
no names are given, no two addresses have the same name.
-/
theorem build_assigns (given : List Label) (img : Image) (seeds : List Address) (a : Analysis)
    (g : Graph) :
    (∀ (x : Address) (name : String), (build given img seeds a g)[x]? = some name ↔
        Assigned given img seeds a g x name) ∧
      (∀ x, x ∈ build given img seeds a g ↔
        (∃ l ∈ given, l.address = x) ∨ x ∈ seeds ∨ x ∈ a.callTargets ∨
          ∃ b ∈ g.blocks, b.start = x) ∧
      (∀ x : Address, (Numeral.hexDigits 4 x.toNat).toList.length = 4) ∧
      ∀ (x y : Address) (name : String), x ≠ y → (build [] img seeds a g)[x]? = some name →
        (build [] img seeds a g)[y]? ≠ some name := by
  refine ⟨fun _ _ => getElem?_build_eq_some_iff, fun _ => mem_build_iff,
    Numeral.length_hexDigits_address, ?_⟩
  intro x y name hne hx hy
  rw [getElem?_build_nil] at hx hy
  have hbearer := (bearer_of_madeUp? hx).symm.trans (bearer_of_madeUp? hy)
  exact hne (Except.ok.inj hbearer)

/-- A function with two given names, and a program without given names that runs into a block. -/
theorem build_assigns_twice_given :
    ∃ (img : Image) (a : Analysis) (g : Graph),
      (build [⟨0x204, "draw"⟩, ⟨0x200, "start"⟩, ⟨0x204, "score"⟩] img [0x200] a g)[(0x204 : Address)]? =
        some "score" ∧
      (0x200 : Address) ≠ 0x202 ∧ (build [] img [0x200] a g)[(0x202 : Address)]? = some "loc_0202" ∧
      (build [] img [0x200] a g)[(0x200 : Address)]? = some "entry" ∧
      (build [] img [0x200] a g)[(0x202 : Address)]? ≠ some "entry" := by
  let img : Image := ⟨[⟨"ROM Data", 0x200, #[0x22, 0x04, 0x12, 0x02, 0x00, 0xEE], .all⟩], 0x200⟩
  let a : Analysis :=
    { visited := .ofList [0x200, 0x202, 0x204]
      edges := [⟨0x200, 0x204, .call⟩, ⟨0x200, 0x202, .fallthrough⟩, ⟨0x202, 0x202, .branch⟩]
      terminators := .ofList [0x202, 0x204]
      returns := .ofList [0x204]
      indirect := ∅
      data := ∅
      callTargets := .ofList [0x204] }
  let g : Graph := ⟨[⟨0x200, 0x202⟩, ⟨0x202, 0x204⟩, ⟨0x204, 0x206⟩], [], []⟩
  obtain ⟨hgiven, -⟩ := build_assigns [⟨0x204, "draw"⟩, ⟨0x200, "start"⟩, ⟨0x204, "score"⟩] img [0x200] a g
  obtain ⟨hmadeUp, -, -, hapart⟩ := build_assigns [] img [0x200] a g
  have hcallTargets : (0x202 : Address) ∉ a.callTargets := by simp [a]
  have hentry := (hmadeUp 0x200 _).mpr (.entry nofun rfl List.mem_cons_self)
  have hblock := (hmadeUp 0x202 _).mpr (.block nofun (by simp [img]) (by simp [hcallTargets])
    ⟨⟨0x202, 0x204⟩, by simp [g], rfl⟩)
  have hne : (0x200 : Address) ≠ 0x202 := by decide
  have hlast : [⟨0x204, "draw"⟩, ⟨0x200, "start"⟩, ⟨0x204, "score"⟩] =
      [⟨0x204, "draw"⟩, ⟨0x200, "start"⟩] ++ (⟨0x204, "score"⟩ : Label) :: [] := rfl
  exact ⟨img, a, g, (hgiven 0x204 _).mpr (.given hlast nofun), hne, hblock, hentry,
    hapart _ _ _ hne hentry⟩

end LabelMap

end Chip8
