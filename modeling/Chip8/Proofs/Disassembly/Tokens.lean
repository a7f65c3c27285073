import Chip8.Proofs.Disassembly
import Chip8.Proofs.Flow
import Chip8.Proofs.Numeral

/-!
# Tokens

A token that shows a number carries it, and then it carries the number that is read from its text
(`Token.Faithful`). In front of the tokens of an instruction stands its mnemonic, which is the only one
(`Token.Led`). So a viewer can trust the tokens alone: where the flow of a word goes to a known target, its
tokens have a single address, and this is the target (`Disassembly.tokens_faithful`).
-/

namespace Chip8

namespace Token

/-- Whether tokens of a kind show a number. -/
def Kind.showsNumber : Kind → Bool
  | integer | possibleAddress | hexDumpByte => true
  | instruction | text | register | operandSeparator => false

/-- A token that carries a number just if it shows one, and then the same. -/
structure Faithful (t : Token) : Prop where
  carries_iff : t.value.isSome = true ↔ t.kind.showsNumber = true
  reads : ∀ n, t.value = some n → Numeral.readAddress t.text = .ok n

/-- Tokens with one mnemonic, which stands in front. -/
def Led (ts : List Token) : Prop :=
  ∃ t rest, ts = t :: rest ∧ t.kind = .instruction ∧ ∀ u ∈ rest, u.kind ≠ .instruction

/-! ## Single tokens -/

theorem Faithful.of_none {t : Token} (hvalue : t.value = none) (hkind : t.kind.showsNumber = false) :
    t.Faithful where
  carries_iff := by simp [hvalue, hkind]
  reads n h := by
    rw [hvalue] at h
    cases h

theorem faithful_number {kind : Kind} (h : kind.showsNumber = true) (n : UInt16) :
    (number kind n).Faithful where
  carries_iff := by simp [number, h]
  reads m hm := by
    rw [← Option.some.inj hm]
    exact Numeral.readAddress_hexPadded 1 n

/-- What can stand behind a mnemonic. -/
structure Trails (t : Token) : Prop where
  faithful : t.Faithful
  kind_ne : t.kind ≠ .instruction

theorem trails_plain (s : String) : (plain s).Trails := ⟨.of_none rfl rfl, nofun⟩

theorem trails_separator (s : String) : (separator s).Trails := ⟨.of_none rfl rfl, nofun⟩

theorem trails_register (r : Register) : (register r).Trails := ⟨.of_none rfl rfl, nofun⟩

theorem trails_number {kind : Kind} (h : kind.showsNumber = true) (n : UInt16) :
    (number kind n).Trails where
  faithful := faithful_number h n
  kind_ne he := by
    rw [show kind = .instruction from he] at h
    cases h

/-! ## Mnemonics with what trails them -/

variable {ts : List Token}

theorem led_of_trails (s : String) (h : ∀ t ∈ ts, t.Trails) : Led (mnemonic s :: ts) :=
  ⟨mnemonic s, ts, rfl, rfl, fun t ht => (h t ht).kind_ne⟩

theorem faithful_of_trails (s : String) (h : ∀ t ∈ ts, t.Trails) :
    ∀ t ∈ mnemonic s :: ts, t.Faithful := by
  intro t ht
  rcases List.mem_cons.mp ht with rfl | ht
  · exact .of_none rfl rfl
  · exact (h t ht).faithful

end Token

open Token

namespace Disassembly

theorem trails_rawTokens (hi lo : UInt8) : ∀ t ∈ (rawTokens hi lo).tail, t.Trails := by
  have hbyte : ∀ n, (number .hexDumpByte n).Trails := trails_number rfl
  simp [rawTokens, trails_plain, trails_separator, hbyte]

end Disassembly

/-- Behind the mnemonic of an instruction stand operands and what separates them. -/
theorem Instruction.exists_tokens_trail (i : Instruction) :
    ∃ ts, i.tokens = .mnemonic i.mnemonic :: ts ∧ ∀ t ∈ ts, t.Trails := by
  obtain ⟨ts, hts⟩ := i.exists_tokens_eq
  refine ⟨ts, hts, ?_⟩
  have hinteger : ∀ n, (number .integer n).Trails := trails_number rfl
  have haddress : ∀ n, (number .possibleAddress n).Trails := trails_number rfl
  rw [show ts = i.tokens.tail by rw [hts]; rfl]
  cases i <;>
    simp [tokens, Disassembly.withOperands, Disassembly.vreg, Disassembly.immediate, Disassembly.address,
      trails_plain, trails_separator, trails_register, hinteger, haddress]

/-! ## Addresses -/

/-- The tokens that a viewer can follow. -/
def Token.addresses (ts : List Token) : List Token := ts.filter (·.kind = .possibleAddress)

theorem Flow.target?_eq_some_iff {f : Flow} {t : Address} :
    f.target? = some t ↔ f = .jump t ∨ f = .call t := by
  cases f <;> simp [target?]

theorem Word.address_of_target {w : Word} {a t : Address} (h : (w.flow a).target? = some t) :
    ∃ i, w.decode? = some i ∧ ∃ link, addresses i.tokens = [link] ∧ link.value = some t := by
  cases hi : w.decode? with
  | none =>
    rw [flow_of_decode?_eq_none hi] at h
    cases h
  | some i =>
    rw [flow_of_decode? hi, Flow.target?_eq_some_iff, Instruction.flow_eq_jump_iff,
      Instruction.flow_eq_call_iff] at h
    refine ⟨i, rfl, Disassembly.address t, ?_, rfl⟩
    rcases h with (rfl | rfl) | rfl <;> rfl

/--
**Tokens can be trusted.**

Every token of an instruction and of bytes to emit carries the number that it shows, and none if it shows
none, and only the first one is a mnemonic. If a jump or a call goes to a known target, the word decodes,
and the one address among its tokens is the target.
-/
theorem Disassembly.tokens_faithful :
    (∀ i : Instruction, (∀ t ∈ i.tokens, t.Faithful) ∧ Led i.tokens) ∧
      (∀ hi lo : UInt8, (∀ t ∈ rawTokens hi lo, t.Faithful) ∧ Led (rawTokens hi lo)) ∧
      ∀ (w : Word) (a t : Address), (w.flow a).target? = some t →
        ∃ i, w.decode? = some i ∧ ∃ link, addresses i.tokens = [link] ∧ link.value = some t := by
  refine ⟨fun i => ?_, fun hi lo => ?_, fun w a t h => Word.address_of_target h⟩
  · obtain ⟨ts, hts, htrail⟩ := i.exists_tokens_trail
    rw [hts]
    exact ⟨faithful_of_trails i.mnemonic htrail, led_of_trails i.mnemonic htrail⟩
  · have htrail := trails_rawTokens hi lo
    exact ⟨faithful_of_trails "_emit" htrail, led_of_trails "_emit" htrail⟩

/-- A call and its target. -/
theorem Disassembly.tokens_faithful_call :
    (Word.flow 0x2ABC 0x200).target? = some 0xABC ∧
      ∃ i, Word.decode? 0x2ABC = some i ∧
        ∃ link, addresses i.tokens = [link] ∧ link.value = some 0xABC :=
  ⟨rfl, tokens_faithful.2.2 0x2ABC 0x200 0xABC rfl⟩

end Chip8
