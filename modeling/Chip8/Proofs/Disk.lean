import Chip8.Proofs.Command

/-!
# What writing changes

A path that can be written leads to a place in a directory where no directory is (`Disk.place_eq_ok_iff`).
Writing changes what is at that place and nothing else (`Disk.node?_put`), so it changes neither where paths
lead (`Disk.samePlaces_put`) nor what is read at other places (`Disk.read_stored_of_ne`). On disks that have
the same directories every path leads to the same place (`Disk.SamePlaces.place_eq_ok_iff`).
-/

namespace Chip8

namespace Disk

variable {d d' : Disk} {p q here : Path} {name path other : String} {content old : Bytes}

/-! ## Directories -/

/-- A directory is where someone works, or where a file is below. -/
theorem isDirectory_iff :
    d.isDirectory p = true ↔
      p <+: d.workingDirectory ∨
        ∃ file ∈ d.nullDevice :: d.files.map Prod.fst, p <+: file ∧ p ≠ file := by
  simp only [isDirectory, Bool.or_eq_true, List.any_eq_true, Bool.and_eq_true, bne_iff_ne,
    List.isPrefixOf_iff_prefix]

/-- A directory is in a directory. -/
theorem isDirectory_of_prefix (hp : q <+: p) (h : d.isDirectory p = true) : d.isDirectory q = true := by
  rw [isDirectory_iff] at h ⊢
  rcases h with h | ⟨file, hfile, hpre, hne⟩
  · exact .inl (hp.trans h)
  · refine .inr ⟨file, hfile, hp.trans hpre, ?_⟩
    rintro rfl
    exact hne (hpre.eq_of_length_le hp.length_le)

@[simp]
theorem isDirectory_nil (d : Disk) : d.isDirectory [] = true :=
  isDirectory_iff.mpr (.inl List.nil_prefix)

@[simp]
theorem isDirectory_workingDirectory (d : Disk) : d.isDirectory d.workingDirectory = true :=
  isDirectory_iff.mpr (.inl List.prefix_rfl)

@[simp]
theorem node?_eq_directory_iff : d.node? p = some .directory ↔ d.isDirectory p = true := by
  unfold node?
  split
  · next h => simp [h]
  · next h =>
    cases d.content? p <;> simp [h]

@[simp]
theorem find_eq_ok_iff {node : Option Node} :
    d.find here name = .ok node ↔
      name.utf8ByteSize ≤ Path.nameLimit ∧ d.node? (here ++ [name]) = node := by
  unfold find
  split
  · next hlong => simp [Nat.not_le.mpr hlong]
  · next hlong => simp [Nat.not_lt.mp hlong]

/-- One goes where a step leads, or into a directory. -/
theorem enter_eq_ok_iff :
    d.enter here name = .ok p ↔
      if Path.isStep name then Path.step here name = p
      else name.utf8ByteSize ≤ Path.nameLimit ∧ d.isDirectory (here ++ [name]) = true ∧
        here ++ [name] = p := by
  unfold enter
  split
  · simp
  · rw [bind_eq_ok_iff]
    constructor
    · rintro ⟨node, hfind, h⟩
      obtain ⟨hname, rfl⟩ := find_eq_ok_iff.mp hfind
      split at h
      · next hnode => exact ⟨hname, node?_eq_directory_iff.mp hnode, Except.ok.inj h⟩
      · cases h
      · cases h
    · rintro ⟨hname, hdirectory, rfl⟩
      exact ⟨_, find_eq_ok_iff.mpr ⟨hname, node?_eq_directory_iff.mpr hdirectory⟩, rfl⟩

/-- From a directory one comes into a directory. -/
theorem isDirectory_of_enter (hhere : d.isDirectory here = true) (h : d.enter here name = .ok p) :
    d.isDirectory p = true := by
  rw [enter_eq_ok_iff] at h
  split at h
  · subst h
    unfold Path.step
    split
    · exact hhere
    · exact isDirectory_of_prefix here.dropLast_prefix hhere
  · obtain ⟨-, hdirectory, rfl⟩ := h
    exact hdirectory

theorem isDirectory_of_foldlM_enter {names : List String} (hhere : d.isDirectory here = true)
    (h : names.foldlM d.enter here = .ok p) : d.isDirectory p = true := by
  induction names generalizing here with
  | nil =>
    cases h
    exact hhere
  | cons name names ih =>
    rw [List.foldlM_cons] at h
    obtain ⟨next, henter, h⟩ := bind_eq_ok_iff.mp h
    exact ih (isDirectory_of_enter hhere henter) h

/-- A path leads into a directory. -/
theorem isDirectory_of_locate {last : Option String} (h : d.locate path = .ok (here, last)) :
    d.isDirectory here = true := by
  unfold locate at h
  split at h
  · cases h
  split at h
  · cases h
  obtain ⟨p, hfold, h⟩ := bind_eq_ok_iff.mp h
  cases h
  refine isDirectory_of_foldlM_enter ?_ hfold
  split
  · exact d.isDirectory_nil
  · exact d.isDirectory_workingDirectory

/-! ## Places -/

/-- Where the file is that a path names, or where it would be made. -/
def place (d : Disk) (path : String) : Except FileFault Path := do
  match ← d.locate path with
  | (_, none) => throw .isDirectory
  | (here, some name) =>
    if Path.asksForDirectory path then throw .isDirectory
    match ← d.find here name with
    | some .directory => throw .isDirectory
    | _ => return here ++ [name]

/-- A place for a file: in a directory, and itself no directory. -/
structure IsPlace (d : Disk) (p : Path) : Prop where
  parent : ∃ here name, p = here ++ [name] ∧ d.isDirectory here = true
  not_directory : d.isDirectory p = false

/-- A place is a name that is not too long, in a directory, and itself no directory. -/
theorem place_eq_ok_iff :
    d.place path = .ok p ↔
      ∃ here name, d.locate path = .ok (here, some name) ∧ Path.asksForDirectory path = false ∧
        name.utf8ByteSize ≤ Path.nameLimit ∧ d.isDirectory p = false ∧ p = here ++ [name] := by
  constructor
  · intro h
    obtain ⟨⟨here, last⟩, hlocate, h⟩ := bind_eq_ok_iff.mp h
    cases last with
    | none => cases h
    | some name =>
      dsimp only at h
      split at h
      · cases h
      · next hasks =>
        obtain ⟨node, hfind, h⟩ := bind_eq_ok_iff.mp h
        obtain ⟨hname, hnode⟩ := find_eq_ok_iff.mp hfind
        split at h
        · cases h
        · next hne =>
          cases h
          refine ⟨here, name, hlocate, Bool.eq_false_iff.mpr hasks, hname, ?_, rfl⟩
          rw [Bool.eq_false_iff, ne_eq, ← node?_eq_directory_iff, hnode]
          exact hne
  · rintro ⟨here, name, hlocate, hasks, hname, hfile, rfl⟩
    have hfind := find_eq_ok_iff.mpr ⟨hname, (rfl : d.node? (here ++ [name]) = _)⟩
    rw [place, hlocate]
    show (if _ then _ else _) = _
    rw [hasks, if_neg Bool.false_ne_true, hfind]
    show (match d.node? (here ++ [name]) with | some .directory => _ | _ => _) = _
    split
    · next hnode =>
      rw [node?_eq_directory_iff.mp hnode] at hfile
      cases hfile
    · rfl

theorem isPlace_of_place (h : d.place path = .ok p) : d.IsPlace p := by
  obtain ⟨here, name, hlocate, -, -, hfile, rfl⟩ := place_eq_ok_iff.mp h
  exact ⟨⟨here, name, rfl, isDirectory_of_locate hlocate⟩, hfile⟩

/-- **What is read is the file at the place of the path.** -/
theorem read_eq_ok_iff :
    d.read path = .ok content ↔ ∃ p, d.place path = .ok p ∧ d.node? p = some (.file content) := by
  simp only [place_eq_ok_iff]
  constructor
  · intro h
    obtain ⟨⟨here, last⟩, hlocate, h⟩ := bind_eq_ok_iff.mp h
    cases last with
    | none => cases h
    | some name =>
      obtain ⟨node, hfind, h⟩ := bind_eq_ok_iff.mp h
      obtain ⟨hname, hnode⟩ := find_eq_ok_iff.mp hfind
      split at h
      · cases h
      · cases h
      · split at h
        · cases h
        · next hasks =>
          cases h
          refine ⟨_, ⟨here, name, hlocate, Bool.eq_false_iff.mpr hasks, hname, ?_, rfl⟩, hnode⟩
          rw [Bool.eq_false_iff, ne_eq, ← node?_eq_directory_iff, hnode]
          nofun
  · rintro ⟨p, ⟨here, name, hlocate, hasks, hname, -, rfl⟩, hnode⟩
    have hfind := find_eq_ok_iff.mpr ⟨hname, hnode⟩
    rw [read, hlocate]
    show d.find here name >>= _ = _
    rw [hfind]
    show (if _ then _ else _) = _
    rw [hasks]
    rfl

/-- The disk with a file at a place. Nothing can be put where the null device is. -/
def put (d : Disk) (p : Path) (content : Bytes) : Disk :=
  if p = d.nullDevice then d else { d with files := (p, content) :: d.files }

/-- **What is written is put at the place of the path.** -/
theorem write_eq (d : Disk) (path : String) (content : Bytes) :
    d.write path content = (fun p => d.put p content) <$> d.place path := by
  unfold write place
  rcases d.locate path with e | ⟨here, - | name⟩
  · rfl
  · rfl
  show (if Path.asksForDirectory path then _ else _) = _ <$> (if Path.asksForDirectory path then _ else _)
  split
  · rfl
  -- where something can be put, it is put
  have hput : (if here ++ [name] = d.nullDevice then (pure d : Except FileFault Disk)
      else pure { d with files := (here ++ [name], content) :: d.files }) =
      .ok (d.put (here ++ [name]) content) := by
    unfold put
    split <;> rfl
  rcases d.find here name with e | - | - | old
  · rfl
  · exact hput
  · rfl
  · exact hput

/-! ## What writing changes -/

/-- What is read back of what was put at a place. -/
def kept (d : Disk) (p : Path) (content : Bytes) : Bytes := if p = d.nullDevice then #[] else content

/-- A place is in a directory, so a file there makes none. -/
theorem isDirectory_put (hp : d.IsPlace p) (content : Bytes) (q : Path) :
    (d.put p content).isDirectory q = d.isDirectory q := by
  have hmade : q <+: p → q ≠ p → d.isDirectory q = true := by
    obtain ⟨here, name, rfl, hhere⟩ := hp.parent
    intro hpre hne
    exact isDirectory_of_prefix ((List.prefix_concat_iff.mp hpre).resolve_left hne) hhere
  unfold put
  split
  · rfl
  rw [Bool.eq_iff_iff]
  constructor
  · intro h
    rcases isDirectory_iff.mp h with h | ⟨file, hfile, hpre, hne⟩
    · exact isDirectory_iff.mpr (.inl h)
    · simp only [List.map_cons, List.mem_cons] at hfile
      rcases hfile with rfl | rfl | hfile
      · exact isDirectory_iff.mpr (.inr ⟨_, List.mem_cons_self, hpre, hne⟩)
      · exact hmade hpre hne
      · exact isDirectory_iff.mpr (.inr ⟨file, List.mem_cons_of_mem _ hfile, hpre, hne⟩)
  · intro h
    rcases isDirectory_iff.mp h with h | ⟨file, hfile, hpre, hne⟩
    · exact isDirectory_iff.mpr (.inl h)
    · refine isDirectory_iff.mpr (.inr ⟨file, ?_, hpre, hne⟩)
      simp only [List.map_cons, List.mem_cons] at hfile ⊢
      exact hfile.imp_right .inr

/-- **Writing changes what is at one place**, and nothing else. -/
theorem node?_put (hp : d.IsPlace p) (content : Bytes) (q : Path) :
    (d.put p content).node? q = if q = p then some (.file (d.kept p content)) else d.node? q := by
  have hcontent : (d.put p content).content? q =
      if q = p then some (d.kept p content) else d.content? q := by
    unfold put kept
    by_cases hnull : p = d.nullDevice
    · rw [if_pos hnull, if_pos hnull, hnull]
      unfold content?
      split <;> rfl
    · by_cases hq : q = p
      · simp [hnull, hq, content?]
      · have hbeq : (q == p) = false := beq_eq_false_iff_ne.mpr hq
        simp [hnull, hq, content?, List.lookup_cons, hbeq]
  unfold node?
  rw [isDirectory_put hp, hcontent]
  by_cases hq : q = p
  · rw [hq, if_pos rfl, if_pos rfl, hp.not_directory]
    rfl
  · rw [if_neg hq, if_neg hq]

/-! ## Where paths lead -/

/-- Disks on which every path leads to the same place. -/
structure SamePlaces (d d' : Disk) : Prop where
  workingDirectory : d'.workingDirectory = d.workingDirectory
  nullDevice : d'.nullDevice = d.nullDevice
  isDirectory : ∀ p, d'.isDirectory p = d.isDirectory p

namespace SamePlaces

theorem refl (d : Disk) : d.SamePlaces d := ⟨rfl, rfl, fun _ => rfl⟩

theorem trans {d'' : Disk} (h : d.SamePlaces d') (h' : d'.SamePlaces d'') : d.SamePlaces d'' where
  workingDirectory := h'.workingDirectory.trans h.workingDirectory
  nullDevice := h'.nullDevice.trans h.nullDevice
  isDirectory := fun p => (h'.isDirectory p).trans (h.isDirectory p)

theorem foldlM_enter_iff (h : d.SamePlaces d') {names : List String} :
    names.foldlM d'.enter here = .ok p ↔ names.foldlM d.enter here = .ok p := by
  have henter : ∀ here name p, d'.enter here name = .ok p ↔ d.enter here name = .ok p := by
    intro here name p
    rw [enter_eq_ok_iff, enter_eq_ok_iff, h.isDirectory]
  induction names generalizing here with
  | nil => rfl
  | cons name names ih => simp only [List.foldlM_cons, bind_eq_ok_iff, henter, ih]

/-- **Where the directories are the same, paths lead to the same places.** -/
theorem place_eq_ok_iff (h : d.SamePlaces d') : d'.place path = .ok p ↔ d.place path = .ok p := by
  have hlocate : ∀ x, d'.locate path = .ok x ↔ d.locate path = .ok x := by
    intro x
    unfold locate
    split
    · rfl
    split
    · rfl
    simp only [bind_eq_ok_iff, h.foldlM_enter_iff, h.workingDirectory]
  rw [Disk.place_eq_ok_iff, Disk.place_eq_ok_iff]
  simp only [hlocate, h.isDirectory]

end SamePlaces

/-- **Writing does not change where paths lead.** -/
theorem samePlaces_put (hp : d.IsPlace p) (content : Bytes) : d.SamePlaces (d.put p content) where
  workingDirectory := by unfold put; split <;> rfl
  nullDevice := by unfold put; split <;> rfl
  isDirectory := isDirectory_put hp content

/-! ## Reading after writing -/

/-- The disk after an attempt to write. -/
def stored (d : Disk) (path : String) (content : Bytes) : Disk :=
  match d.place path with
  | .ok p => d.put p content
  | .error _ => d

theorem stored_of_place (hp : d.place path = .ok p) : d.stored path content = d.put p content := by
  rw [stored, hp]

theorem samePlaces_stored (d : Disk) (path : String) (content : Bytes) :
    d.SamePlaces (d.stored path content) := by
  unfold stored
  split
  · next hp => exact samePlaces_put (isPlace_of_place hp) content
  · exact .refl d

/-- **What was written is read**, by every path that leads to its place. -/
theorem read_stored_of_place (hp : d.place path = .ok p) (hq : d.place other = .ok p)
    (hnull : p ≠ d.nullDevice) : (d.stored other content).read path = .ok content := by
  have hplace := (d.samePlaces_stored other content).place_eq_ok_iff.mpr hp
  refine read_eq_ok_iff.mpr ⟨p, hplace, ?_⟩
  rw [stored_of_place hq, node?_put (isPlace_of_place hq), if_pos rfl, kept, if_neg hnull]

/-- **At other places is what was there before.** -/
theorem read_stored_of_ne (hp : d.place path = .ok p) (hne : d.place other ≠ .ok p) :
    (d.stored other content).read path = .ok old ↔ d.read path = .ok old := by
  have hnode : (d.stored other content).node? p = d.node? p := by
    unfold stored
    split
    · next q hq =>
      have hpq : p ≠ q := by
        rintro rfl
        exact hne hq
      rw [node?_put (isPlace_of_place hq), if_neg hpq]
    · rfl
  rw [read_eq_ok_iff, read_eq_ok_iff]
  simp only [(d.samePlaces_stored other content).place_eq_ok_iff, hp, Except.ok.injEq,
    exists_eq_left', hnode]

end Disk

end Chip8
