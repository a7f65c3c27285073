import Chip8.Json.Flow
import Chip8.Json.Instruction
import Chip8.Json.Token
import Chip8.Proofs.Json.Members

/-!
# Instructions, flows and tokens as JSON

An instruction and a flow are read from a tag and from numbers, each under a key of its own
(`Instruction.tagged_toJson`, `Flow.tagged_toJson`); a token is read from its three members. So what was written
is read back, whatever else stands in the object and in whatever order (`Json.codecs_faithful`).
-/

namespace Chip8

open Json

variable {ms : List (String × Json)} {key : String}

/-! ## Members read as numbers -/

theorem Json.required?_uint8?_eq_some_iff {b : UInt8} :
    required? ms key >>= uint8? = some b ↔ required? ms key = some (nat b.toNat) := by
  simp only [Option.bind_eq_bind, Option.bind_eq_some_iff, uint8?_eq_some_iff, exists_eq_right]

theorem Json.required?_uint16?_eq_some_iff {a : UInt16} :
    required? ms key >>= uint16? = some a ↔ required? ms key = some (nat a.toNat) := by
  simp only [Option.bind_eq_bind, Option.bind_eq_some_iff, uint16?_eq_some_iff, exists_eq_right]

theorem VReg.mk_eq_iff {index : UInt8} {r : VReg} : VReg.mk index = r ↔ index = r.index := by
  constructor
  · rintro rfl
    rfl
  · rintro rfl
    rfl

/-! ## Instructions -/

namespace Instruction

variable {i : Instruction}

/-- The kind of an instruction is the one that was asked for, and a tag that names no kind gives none. -/
theorem tag_of_ofMembers? {tag : String} (h : ofMembers? tag ms = some i) : i.tag = tag := by
  unfold ofMembers? at h
  split at h
  all_goals
    simp only [Option.map_eq_map, Option.map_eq_some_iff, map_seq_eq_some_iff,
      map_seq_seq_eq_some_iff] at h
    grind [Instruction.tag]

/-- **An instruction is read from just its operands.** -/
theorem ofMembers?_tag_eq_some_iff :
    ofMembers? i.tag ms = some i ↔
      ∀ operand ∈ i.operands, required? ms operand.1 = some (nat operand.2) := by
  cases i <;> dsimp only [Instruction.tag, ofMembers?, operands] <;>
    simp only [Option.map_eq_map, Option.map_eq_some_iff, map_seq_eq_some_iff,
      map_seq_seq_eq_some_iff, required?_uint8?_eq_some_iff, required?_uint16?_eq_some_iff] <;>
    simp [VReg.mk_eq_iff]

/-- An instruction is written with a tag and numbers, and read from these. -/
theorem tagged_toJson : Tagged "op" Instruction.tag operands toJson ofJson? := by
  have hbyte : ∀ b : UInt8, b.toNat < UInt16.size := fun b => b.toNat_lt.trans (by decide)
  have haddr : ∀ a : Address, a.toNat < UInt16.size := fun a => a.toNat_lt
  refine .of_ofMembers? (fun _ => rfl) (fun _ => rfl) (fun i => ?_) (fun i => ?_)
    (fun _ _ _ => tag_of_ofMembers?) fun _ _ => ofMembers?_tag_eq_some_iff
  · cases i <;> simp [operands]
  · cases i <;> simp only [operands, List.forall_mem_cons, List.not_mem_nil, false_implies,
      implies_true, hbyte, haddr, and_self]

end Instruction

/-! ## Flows -/

namespace Flow

variable {f : Flow}

/-- The name of what happens. -/
def tag : Flow → String
  | next => "none"
  | jump _ => "unconditional"
  | call _ => "call"
  | ret => "return"
  | indirect => "indirect"
  | skip _ _ => "conditional_pair"

/-- The targets with their names, in the order in which they are written. -/
def targets : Flow → List (String × Nat)
  | next | ret | indirect => []
  | jump t | call t => [("target", t.toNat)]
  | skip taken passed => [("true_target", taken.toNat), ("false_target", passed.toNat)]

theorem tag_of_ofMembers? {tag : String} (h : ofMembers? tag ms = some f) : f.tag = tag := by
  unfold ofMembers? at h
  split at h
  all_goals
    simp only [Option.map_eq_map, Option.map_eq_some_iff, map_seq_eq_some_iff] at h
    grind [Flow.tag]

/-- **A flow is read from just its targets.** -/
theorem ofMembers?_tag_eq_some_iff :
    ofMembers? f.tag ms = some f ↔
      ∀ target ∈ f.targets, required? ms target.1 = some (nat target.2) := by
  cases f <;> dsimp only [Flow.tag, ofMembers?, targets] <;>
    simp only [Option.map_eq_map, Option.map_eq_some_iff, map_seq_eq_some_iff,
      required?_uint16?_eq_some_iff] <;>
    simp

/-- A flow is written with a tag and numbers, and read from these. -/
theorem tagged_toJson : Tagged "kind" Flow.tag targets toJson ofJson? := by
  have haddr : ∀ a : Address, a.toNat < UInt16.size := fun a => a.toNat_lt
  refine .of_ofMembers? (fun _ => rfl) (fun f => ?_) (fun f => ?_) (fun f => ?_)
    (fun _ _ _ => tag_of_ofMembers?) fun _ _ => ofMembers?_tag_eq_some_iff
  · cases f <;> rfl
  · cases f <;> simp [targets]
  · cases f <;> simp only [targets, List.forall_mem_cons, List.not_mem_nil, false_implies,
      implies_true, haddr, and_self]

end Flow

/-! ## Tokens -/

namespace Token

/-- Whether a token may have a member with this key. -/
def HasMember (key : String) : Prop := key ∈ ["kind", "text", "value"]

instance (key : String) : Decidable (HasMember key) :=
  inferInstanceAs (Decidable (key ∈ ["kind", "text", "value"]))

theorem Kind.ofJson?_name (k : Kind) : Kind.ofJson? (Json.text k.name) = some k := by
  cases k <;> rfl

/-- A token is read from its members. -/
theorem ofJson?_record (ms : List (String × Json)) :
    ofJson? (record ms) = do
      let kind ← required? ms "kind" >>= Kind.ofJson?
      let text ← required? ms "text" >>= text?
      let value ← valueOfJson? ((← optional? ms "value").getD .null)
      return ⟨kind, text, value⟩ := by
  show ((record ms).members? >>= _) = _
  rw [members?_record]
  rfl

theorem ofJson?_toJson (t : Token) : ofJson? t.toJson = some t := by
  obtain ⟨kind, text, value⟩ := t
  rw [toJson, ofJson?_record]
  cases value with
  | none =>
    show (Kind.ofJson? (Json.text kind.name) >>= _) = _
    rw [Kind.ofJson?_name]
    rfl
  | some n =>
    have hn : (nat n.toNat).uint16? = some n := uint16?_eq_some_iff.mpr rfl
    show (Kind.ofJson? (Json.text kind.name) >>= fun kind =>
      some <$> (nat n.toNat).uint16? >>= fun value => some (Token.mk kind text value)) = _
    rw [Kind.ofJson?_name, hn]
    rfl

theorem writable_toJson (t : Token) : Writable t.toJson := by
  obtain ⟨kind, text, value⟩ := t
  cases value with
  | none => exact writable_record ⟨.text _, .text _⟩
  | some n => exact writable_record ⟨.text _, .text _, writable_nat n.toNat_lt⟩

theorem ofJson?_loosened (v v' : Json) (h : Loosens (fun _ => HasMember) v v') :
    ofJson? v' = ofJson? v := by
  cases h with
  | refl => rfl
  | record hext =>
    have hkind := hext.required?_eq (show HasMember "kind" by decide)
    have htext := hext.required?_eq (show HasMember "text" by decide)
    have hvalue := hext.optional?_eq (show HasMember "value" by decide)
    rw [ofJson?_record, ofJson?_record, hkind, htext, hvalue]

/-- A list of tokens is read back, also if its items say more than they have to. -/
theorem faithful_listOf :
    Json.Faithful (listOf toJson) listOfJson? (LoosensItems (Loosens fun _ => HasMember)) := by
  refine .of_writable (fun ts => writable_listOf fun t _ => t.writable_toJson)
    (mapM_map_of_left_inverse ofJson?_toJson) fun v v' h => ?_
  cases h with
  | refl => rfl
  | list h => exact mapM_congr_of_forall₂ ofJson?_loosened h

end Token

/-! ## All of them -/

/--
**Instructions, flows and lists of tokens are read back as they were written.**

This is so for any operands: also for a register with an index above 15 and for an address above the memory. It
does not matter in which order the members of an object come, nor what other members it has. No two values are
written the same.
-/
theorem Json.codecs_faithful :
    Faithful Instruction.toJson Instruction.ofJson? (Loosens (Owns "op" Instruction.toJson)) ∧
      Faithful Flow.toJson Flow.ofJson? (Loosens (Owns "kind" Flow.toJson)) ∧
      Faithful (listOf Token.toJson) Token.listOfJson?
        (LoosensItems (Loosens fun _ => Token.HasMember)) :=
  ⟨Instruction.tagged_toJson.faithful, Flow.tagged_toJson.faithful, Token.faithful_listOf⟩

/-- An instruction with a register that does not exist, and with a comment in front. -/
theorem Json.codecs_faithful_comment :
    Instruction.ofJson? (record [("comment", .null), ("n", nat 15), ("y", nat 2), ("x", nat 26),
      ("op", text "draw")]) = some (.draw ⟨26⟩ ⟨2⟩ 15) := by
  have h := codecs_faithful.1
  refine (h.read?_loosened (Instruction.toJson (.draw ⟨26⟩ ⟨2⟩ 15)) _ ?_).trans (h.read?_write _)
  refine .record ⟨[("comment", .null)], ?_, List.reverse_perm
    [("op", text "draw"), ("x", nat 26), ("y", nat 2), ("n", nat 15), ("comment", .null)]⟩
  intro m hm
  rw [List.mem_singleton.mp hm, Instruction.tagged_toJson.owns_iff, not_or, not_exists]
  refine ⟨by decide, fun i hi => ?_⟩
  cases i <;> simp [Instruction.operands] at hi

end Chip8
