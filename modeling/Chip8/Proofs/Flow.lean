import Chip8.Decode
import Chip8.Flow

/-!
# Flow and decoding

The flow of a word is read from its fields and never from the instruction that it decodes to. Still the
two agree: the flow of a word that decodes is that of its instruction (`Word.flow_of_decode?`), and all
others run on. So words that decode to the same instruction cannot be told apart by where they lead
(`Word.flow_describes_decode?`).

Control may run on to the next word after some flows; together with the jumps, calls and taken skips
these are all the ways there are (`Word.mem_successors_iff`).
-/

namespace Chip8

/-! ## The flow of an instruction -/

/-- What an instruction at `a` does to control. A call of machine code counts as a jump. -/
def Instruction.flow (i : Instruction) (a : Address) : Flow :=
  match i with
  | .ret => .ret
  | .sys t | .jump t => .jump t
  | .call t => .call t
  | .jumpPlusV0 _ => .indirect
  | i => if i.isSkip then Word.skipAt a else .next

theorem Instruction.isSkip_of_flow {i : Instruction} {a taken passed : Address}
    (h : i.flow a = .skip taken passed) : i.isSkip = true := by
  cases i <;> first | rfl | cases h

namespace Word

variable {w : Word} {a : Address} {i : Instruction}

theorem flow_decodeSystem (w : Word) (a : Address) :
    w.decodeSystem.flow a =
      if w = 0x00EE then .ret else if w = 0x00E0 then .next else .jump w.address := by
  unfold decodeSystem
  split
  · next h => rw [h]; rfl
  · split <;> rfl

theorem flow_of_decodeArithmetic? {n : UInt8} {x y : VReg}
    (h : decodeArithmetic? n x y = some i) : i.flow a = .next := by
  unfold decodeArithmetic? at h
  split at h <;> cases h <;> rfl

/-- In family E only the two skips decode. -/
theorem flow_of_decodeKeypad? {b : UInt8} {x : VReg} (h : decodeKeypad? b x = some i) :
    (b = 0x9E ∨ b = 0xA1) ∧ i.flow a = skipAt a := by
  unfold decodeKeypad? at h
  split at h <;> cases h
  · exact ⟨Or.inl rfl, rfl⟩
  · exact ⟨Or.inr rfl, rfl⟩

theorem flow_of_decodeMemory? {b : UInt8} {x : VReg} (h : decodeMemory? b x = some i) :
    i.flow a = .next := by
  unfold decodeMemory? at h
  split at h <;> cases h <;> rfl

/-- **The flow of a word that decodes is the flow of its instruction.** -/
theorem flow_of_decode? (h : w.decode? = some i) : w.flow a = i.flow a := by
  unfold decode? at h
  unfold flow
  dsimp only at h
  -- one case for each family; families 0, 8, E and F look at more of the word
  split at h
  case h_1 hf =>
    cases h
    rw [flow_decodeSystem]
    simp only [hf]
  case h_9 hf =>
    rw [flow_of_decodeArithmetic? h, hf]
    rfl
  case h_15 hf =>
    obtain ⟨hb, hi⟩ := flow_of_decodeKeypad? (a := a) h
    rw [hi]
    simp only [hf, hb, if_true]
  case h_16 =>
    rw [flow_of_decodeMemory? h]
    split <;> first | contradiction | rfl
  all_goals
    next hf =>
    cases h
    simp only [hf]
    rfl

end Word

/-! ## Flow, form by form -/

namespace Instruction

variable {i : Instruction} {a t : Address}

@[simp]
theorem flow_eq_ret_iff : i.flow a = .ret ↔ i = .ret := by
  cases i <;> simp [flow, isSkip, Word.skipAt]

@[simp]
theorem flow_eq_jump_iff : i.flow a = .jump t ↔ i = .sys t ∨ i = .jump t := by
  cases i <;> simp [flow, isSkip, Word.skipAt]

@[simp]
theorem flow_eq_call_iff : i.flow a = .call t ↔ i = .call t := by
  cases i <;> simp [flow, isSkip, Word.skipAt]

@[simp]
theorem flow_eq_indirect_iff : i.flow a = .indirect ↔ ∃ t, i = .jumpPlusV0 t := by
  cases i <;> simp [flow, isSkip, Word.skipAt]

theorem flow_eq_skipAt_iff : i.flow a = Word.skipAt a ↔ i.isSkip = true := by
  cases i <;> simp [flow, isSkip, Word.skipAt]

theorem flow_eq_next_iff :
    i.flow a = .next ↔
      ¬ (i = .ret ∨ (∃ t, i = .sys t ∨ i = .jump t ∨ i = .call t ∨ i = .jumpPlusV0 t) ∨
        i.isSkip = true) := by
  cases i <;> simp [flow, isSkip, Word.skipAt]

end Instruction

namespace Word

variable {v w : Word} {a : Address} {i : Instruction}

/-- A skip goes on at the second or at the first word behind it. -/
theorem skipAt_eq (a : Address) : skipAt a = .skip (a + 4) (a + 2) := by
  have hnext : next (next a) = a + 4 := UInt16.add_assoc a 2 2
  rw [skipAt, hnext]
  rfl

/-- In family E the words that do not decode are no skips. -/
theorem byte_ne_of_decodeKeypad? {b : UInt8} {x : VReg} (h : decodeKeypad? b x = none) :
    ¬ (b = 0x9E ∨ b = 0xA1) := by
  rintro (rfl | rfl) <;> cases h

/-- **A word that does not decode runs on.** -/
theorem flow_of_decode?_eq_none (h : w.decode? = none) : w.flow a = .next := by
  unfold decode? at h
  unfold flow
  dsimp only at h
  -- only families 8, E and F have words that do not decode
  split at h
  case h_9 hf =>
    rw [hf]
    rfl
  case h_15 hf =>
    rw [hf]
    exact if_neg (byte_ne_of_decodeKeypad? h)
  case h_16 => split <;> first | contradiction | rfl
  all_goals cases h

theorem flow_congr (h : v.decode? = w.decode?) : v.flow a = w.flow a := by
  cases hw : w.decode? with
  | none => rw [flow_of_decode?_eq_none (h.trans hw), flow_of_decode?_eq_none hw]
  | some i => rw [flow_of_decode? (h.trans hw), flow_of_decode? hw]

end Word

/-- What the flow at `a` says of an instruction, for each form that a flow can have. -/
structure Flow.Describes (f : Flow) (i : Instruction) (a : Address) : Prop where
  ret_iff : f = .ret ↔ i = .ret
  jump_iff : ∀ t, f = .jump t ↔ i = .sys t ∨ i = .jump t
  call_iff : ∀ t, f = .call t ↔ i = .call t
  indirect_iff : f = .indirect ↔ ∃ t, i = .jumpPlusV0 t
  skip_iff : f = .skip (a + 4) (a + 2) ↔ i.isSkip = true
  /-- There are no other skips. -/
  skip_arms : ∀ taken passed, f = .skip taken passed → taken = a + 4 ∧ passed = a + 2
  next_iff : f = .next ↔
    ¬ (i = .ret ∨ (∃ t, i = .sys t ∨ i = .jump t ∨ i = .call t ∨ i = .jumpPlusV0 t) ∨
      i.isSkip = true)

theorem Instruction.flow_describes (i : Instruction) (a : Address) : (i.flow a).Describes i a where
  ret_iff := flow_eq_ret_iff
  jump_iff _ := flow_eq_jump_iff
  call_iff _ := flow_eq_call_iff
  indirect_iff := flow_eq_indirect_iff
  skip_iff := by rw [← Word.skipAt_eq, flow_eq_skipAt_iff]
  skip_arms taken passed h := by
    have hskip : i.flow a = Word.skipAt a := flow_eq_skipAt_iff.mpr (isSkip_of_flow h)
    rw [h, Word.skipAt_eq] at hskip
    exact Flow.skip.inj hskip
  next_iff := flow_eq_next_iff

/--
**Flow and decoding never disagree.**

At every address, wrapping around included, a word that does not decode runs on, and the flow of any other
is the one that its instruction asks for. So the successors hang on nothing else in the word.
-/
theorem Word.flow_describes_decode? (w : Word) (a : Address) :
    (w.decode? = none → w.flow a = .next) ∧
      (∀ i, w.decode? = some i → (w.flow a).Describes i a) ∧
      ∀ v : Word, v.decode? = w.decode? → v.successors a = w.successors a := by
  refine ⟨flow_of_decode?_eq_none, ?_, ?_⟩
  · intro i hi
    rw [flow_of_decode? hi]
    exact i.flow_describes a
  · intro v hv
    unfold successors
    rw [flow_congr hv]

/-! ## Running on -/

namespace Flow

/-- Whether control may run on to the next word. -/
def runsOn : Flow → Bool
  | next | call _ | skip .. => true
  | _ => false

end Flow

namespace Word

variable {w : Word} {a t : Address}

/-- A skip goes to the second or to the first word behind it. -/
theorem flow_eq_skip {taken passed : Address} (h : w.flow a = .skip taken passed) :
    taken = next (next a) ∧ passed = next a := by
  unfold flow skipAt at h
  split at h
  case h_1 =>
    split at h
    · cases h
    · split at h <;> cases h
  case h_4 | h_5 | h_6 | h_7 =>
    cases h
    exact ⟨rfl, rfl⟩
  case h_9 =>
    split at h
    · cases h
      exact ⟨rfl, rfl⟩
    · cases h
  all_goals cases h

/-- **All the ways there are.** -/
@[grind =]
theorem mem_successors_iff :
    t ∈ w.successors a ↔
      w.flow a = .jump t ∨ w.flow a = .call t ∨ (∃ passed, w.flow a = .skip t passed) ∨
        ((w.flow a).runsOn = true ∧ t = next a) := by
  unfold successors
  cases hf : w.flow a with
  | skip taken passed =>
    obtain ⟨-, rfl⟩ := flow_eq_skip hf
    simp [Flow.runsOn, eq_comm]
  | _ => simp [Flow.runsOn, eq_comm]

end Word

end Chip8
