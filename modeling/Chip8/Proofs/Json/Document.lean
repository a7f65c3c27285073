import Chip8.Json.Parser
import Chip8.Proofs.Json.Lexeme

/-!
# Reading what was written: documents

The machine that reads a document takes one step for each lexeme (`Json.run_append`). A value takes it from
any state in which a value may come to the one behind that value (`Json.run_write`), so what was written is
read back, in either layout (`Json.parse?_compact`, `Json.parse?_pretty`).
-/

namespace Chip8.Json

variable {s : State} {outer : List Frame} {v : Json} {c : Char} {ws cs rest : List Char}

/-! ## The machine -/

/-- The state to which a text leads. -/
def run (s : State) (cs : List Char) : Option State := do
  (← lexemes? cs).foldlM step? s

theorem parse?_eq (document : String) :
    parse? document =
      run (.value []) document.toList >>= fun
        | .after v [] => some v
        | _ => none := by
  unfold parse? run
  cases lexemes? document.toList <;> rfl

theorem run_nil (s : State) : run s [] = some s := by
  simp [run, lexemes?]

/-- **Each lexeme takes one step.** -/
theorem run_append {l : Lexeme} (h : lexemes? (cs ++ rest) = (l :: ·) <$> lexemes? rest) :
    run s (cs ++ rest) = step? s l >>= fun t => run t rest := by
  unfold run
  rw [h]
  cases lexemes? rest with
  | some ls => rfl
  | none => cases step? s l <;> rfl

/-- A step that is known is taken. -/
theorem run_append_of_step {l : Lexeme} {t : State}
    (h : lexemes? (cs ++ rest) = (l :: ·) <$> lexemes? rest) (hstep : step? s l = some t) :
    run s (cs ++ rest) = run t rest := by
  rw [run_append h, hstep]
  rfl

theorem run_punctuation {p : Lexeme} {t : State} (h : punctuation? c = some p)
    (hstep : step? s p = some t) : run s (c :: rest) = run t rest := by
  rw [← List.singleton_append]
  exact run_append_of_step (lexemes?_punctuation h) hstep

/-- Space takes no step. -/
theorem run_space (h : ∀ c ∈ ws, isSpace c = true) : run s (ws ++ rest) = run s rest := by
  rw [run, lexemes?_append_of_isSpace h, run]

/-! ## Layouts -/

/-- A character with nothing but space behind it. -/
def IsSpaced (c : Char) (s : String) : Prop :=
  ∃ ws, s.toList = c :: ws ∧ ∀ d ∈ ws, isSpace d = true

/-- A layout that puts nothing but space around items, and one comma between two. -/
structure Layout.Plain (l : Layout) : Prop where
  first : ∀ c ∈ l.first.toList, isSpace c = true
  between : IsSpaced ',' l.between
  last : ∀ c ∈ l.last.toList, isSpace c = true

theorem isSpace_of_mem_newLine {depth : Nat} : ∀ c ∈ (Layout.newLine depth).toList, isSpace c = true := by
  intro c hc
  rw [Layout.newLine, String.toList_ofList, List.mem_cons] at hc
  rcases hc with rfl | hc
  · rfl
  · rw [List.eq_of_mem_replicate hc]
    rfl

theorem Layout.compact_plain : Layout.compact.Plain where
  first := fun _ hc => absurd hc List.not_mem_nil
  between := ⟨[], rfl, fun _ hd => absurd hd List.not_mem_nil⟩
  last := fun _ hc => absurd hc List.not_mem_nil

theorem Layout.indented_plain (depth : Nat) : (Layout.indented depth).Plain where
  first := isSpace_of_mem_newLine
  between := ⟨(newLine (depth + 1)).toList, String.toList_append, isSpace_of_mem_newLine⟩
  last := isSpace_of_mem_newLine

theorem stops_nil : Stops [] := nofun

theorem stops_cons (hc : isAtomChar c = false) : Stops (c :: cs) := by
  rintro d ds heq
  obtain ⟨rfl, -⟩ := List.cons.inj heq
  exact hc

/-- Space is no more of an atom. -/
theorem stops_append_of_isSpace (hws : ∀ d ∈ ws, isSpace d = true) (hrest : Stops rest) :
    Stops (ws ++ rest) := by
  cases ws with
  | nil => exact hrest
  | cons w ws =>
    refine stops_cons (Bool.eq_false_iff.mpr ?_)
    intro hatom
    have hspace := hws w List.mem_cons_self
    rw [(isAtomChar_excludes hatom).1] at hspace
    cases hspace

/-! ## Between brackets -/

section Items

variable {α : Type} {l : Layout} {text : α → String} {before : List α → State → Prop}
  {behind : List α → α → State}

/--
Items with a separator between them. In a state `before done` an item may come behind those of `done`, and
`behind done x` is the state behind the item `x`.
-/
theorem run_intercalate (hl : l.Plain)
    (hcomma : ∀ done x, ∃ t, step? (behind done x) .comma = some t ∧ before (done ++ [x]) t)
    {xs : List α} (hne : xs ≠ [])
    (hitem : ∀ x ∈ xs, ∀ done s rest, before done s → Stops rest →
      run s ((text x).toList ++ rest) = run (behind done x) rest)
    {done : List α} (hs : before done s) (hrest : Stops rest) :
    ∃ done' x, done' ++ [x] = done ++ xs ∧
      run s ((l.between.intercalate (xs.map text)).toList ++ rest) = run (behind done' x) rest := by
  obtain ⟨ws, hbetween, hws⟩ := hl.between
  rw [String.toList_intercalate]
  induction xs generalizing done s with
  | nil => exact absurd rfl hne
  | cons x xs ih =>
    have hx := hitem x List.mem_cons_self done s
    cases xs with
    | nil => exact ⟨done, x, rfl, by simpa using hx rest hs hrest⟩
    | cons y ys =>
      obtain ⟨t, hstep, ht⟩ := hcomma done x
      obtain ⟨done', z, hdone, hrun⟩ := ih (List.cons_ne_nil y ys)
        (fun u hu => hitem u (List.mem_cons_of_mem x hu)) ht
      refine ⟨done', z, by simpa using hdone, ?_⟩
      rw [hbetween] at hrun ⊢
      simp only [List.map_cons, List.intercalate_cons_cons, List.append_assoc, List.cons_append] at hrun ⊢
      rw [hx _ hs (stops_cons rfl), run_punctuation rfl hstep, run_space hws]
      exact hrun

/-- A text that is one character of punctuation. -/
def IsPunctuation (s : String) (p : Lexeme) : Prop := ∃ c, s.toList = [c] ∧ punctuation? c = some p

/-- **Items between brackets**, each of which takes the machine to the state behind it. -/
theorem run_enclose (hl : l.Plain) {opening closing : String} {o p : Lexeme} {start : State}
    {whole : List α → Json} (hopening : IsPunctuation opening o) (hclosing : IsPunctuation closing p)
    (hstart : step? s o = some start) (hbefore : before [] start)
    (hempty : step? start p = some (.after (whole []) outer))
    (hcomma : ∀ done x, ∃ t, step? (behind done x) .comma = some t ∧ before (done ++ [x]) t)
    (hclose : ∀ done x, step? (behind done x) p = some (.after (whole (done ++ [x])) outer))
    {xs : List α}
    (hitem : ∀ x ∈ xs, ∀ done s rest, before done s → Stops rest →
      run s ((text x).toList ++ rest) = run (behind done x) rest) :
    run s ((l.enclose opening closing (xs.map text)).toList ++ rest) =
      run (.after (whole xs) outer) rest := by
  obtain ⟨a, ha, hopening⟩ := hopening
  obtain ⟨b, hb, hclosing⟩ := hclosing
  rcases xs with - | ⟨x, xs⟩
  · simp only [List.map_nil, Layout.enclose, String.toList_append, ha, hb, List.cons_append,
      List.nil_append]
    rw [run_punctuation hopening hstart, run_punctuation hclosing hempty]
  · have hatom : isAtomChar b = false := by
      rw [Bool.eq_false_iff]
      intro hatom
      rw [(isAtomChar_excludes hatom).2.2] at hclosing
      cases hclosing
    have hstops : Stops (l.last.toList ++ b :: rest) :=
      stops_append_of_isSpace hl.last (stops_cons hatom)
    obtain ⟨done, y, hdone, hrun⟩ :=
      run_intercalate hl hcomma (List.cons_ne_nil x xs) hitem hbefore hstops
    rw [List.nil_append] at hdone
    simp only [List.map_cons, Layout.enclose, String.toList_append, ha, hb, List.append_assoc,
      List.cons_append, List.nil_append] at hrun ⊢
    rw [run_punctuation hopening hstart, run_space hl.first, hrun, run_space hl.last,
      run_punctuation hclosing (hclose done y), hdone]

end Items

/-! ## Values -/

namespace State

/-- A state in which a value comes next, inside of `outer`. -/
inductive Awaits : State → List Frame → Prop
  | value (outer : List Frame) : Awaits (.value outer) outer
  | first (outer : List Frame) : Awaits (.listStart outer) (.list [] :: outer)

theorem Awaits.step? {l : Lexeme} (h : s.Awaits outer) (hl : l ≠ .closeList) :
    Json.step? s l = beginValue? outer l := by
  cases h with
  | value => rfl
  | first => cases l <;> first | rfl | exact absurd rfl hl

/-- The state behind the item `v`, which stands behind those of `done`. -/
def behindItem (outer : List Frame) (done : List Json) (v : Json) : State :=
  .after v (.list done.reverse :: outer)

theorem behindItem_comma (outer : List Frame) (done : List Json) (v : Json) :
    ∃ t, Json.step? (behindItem outer done v) .comma = some t ∧
      t.Awaits (.list (done ++ [v]).reverse :: outer) := by
  rw [List.reverse_concat]
  exact ⟨_, rfl, .value _⟩

theorem behindItem_close (outer : List Frame) (done : List Json) (v : Json) :
    Json.step? (behindItem outer done v) .closeList = some (.after (.list (done ++ [v])) outer) := by
  simp [behindItem, Json.step?]

/-- Members as the machine holds them. -/
def held (ms : List (String × Json)) : List (Text × Json) := (ms.map fun (k, v) => (some k, v)).reverse

/-- A state in which a key comes next, behind the members `done`. -/
def AwaitsKey (outer : List Frame) (done : List (String × Json)) (t : State) : Prop :=
  ∀ k, Json.step? t (.text k) = some (.colon (held done) k outer)

/-- The state behind the member `m`, which stands behind those of `done`. -/
def behindMember (outer : List Frame) (done : List (String × Json)) (m : String × Json) : State :=
  .after m.2 (.object (held done) (some m.1) :: outer)

theorem behindMember_comma (outer : List Frame) (done : List (String × Json)) (m : String × Json) :
    ∃ t, Json.step? (behindMember outer done m) .comma = some t ∧ t.AwaitsKey outer (done ++ [m]) := by
  refine ⟨_, rfl, fun k => ?_⟩
  simp [Json.step?, held]

theorem behindMember_close (outer : List Frame) (done : List (String × Json)) (m : String × Json) :
    Json.step? (behindMember outer done m) .closeObject =
      some (.after (.record (done ++ [m])) outer) := by
  simp [behindMember, Json.step?, held, record]

end State

/-- The values that are read back: no number is too long, and no half of a surrogate pair is alone. -/
inductive Writable : Json → Prop
  | null : Writable .null
  | bool (b : Bool) : Writable (.bool b)
  | int {n : Int} (h : (Nat.toDigits 10 n.natAbs).length ≤ maxIntDigits) : Writable (.int n)
  | text (t : String) : Writable (.text t)
  | list {vs : List Json} (h : ∀ v ∈ vs, Writable v) : Writable (.list vs)
  | record {ms : List (String × Json)} (h : ∀ m ∈ ms, Writable m.2) : Writable (.record ms)

section Values

variable {layout : Nat → Layout} {colon : String}

theorem writeItems_eq_map (depth : Nat) (vs : List Json) :
    writeItems layout colon depth vs = vs.map (write layout colon depth) := by
  induction vs with
  | nil => rfl
  | cons v vs ih => rw [writeItems, ih, List.map_cons]

theorem writeMembers_eq_map (depth : Nat) (ms : List (String × Json)) :
    writeMembers layout colon depth (ms.map fun (k, v) => (some k, v)) =
      ms.map fun (k, v) => quote k ++ colon ++ write layout colon depth v := by
  induction ms with
  | nil => rfl
  | cons m ms ih =>
    rw [List.map_cons, writeMembers, ih, List.map_cons]
    rfl

/-- **A value takes the machine to the state behind it.** -/
theorem run_write (hlayout : ∀ depth, (layout depth).Plain) (hcolon : IsSpaced ':' colon)
    (hv : Writable v) (depth : Nat) (hs : s.Awaits outer) (hrest : Stops rest) :
    run s ((write layout colon depth v).toList ++ rest) = run (.after v outer) rest := by
  induction hv generalizing depth s outer rest with
  | null => exact run_append_of_step (lexemes?_null hrest) (hs.step? nofun)
  | bool b => exact run_append_of_step (lexemes?_bool b hrest) (hs.step? nofun)
  | int h => exact run_append_of_step (lexemes?_int h hrest) (hs.step? nofun)
  | text t => exact run_append_of_step (lexemes?_quote t rest) (hs.step? nofun)
  | list h ih =>
    have hstart : step? s .openList = some (.listStart outer) := hs.step? nofun
    rw [write, writeItems_eq_map]
    exact run_enclose (hlayout depth) ⟨_, rfl, rfl⟩ ⟨_, rfl, rfl⟩ hstart (.first outer) rfl
      (State.behindItem_comma outer) (State.behindItem_close outer)
      fun v hv done t rest ht hrest => ih v hv (depth + 1) ht hrest
  | record h ih =>
    have hstart : step? s .openObject = some (.objectStart outer) := hs.step? nofun
    have hfirst : State.AwaitsKey outer [] (.objectStart outer) := fun _ => rfl
    obtain ⟨ws, hcolon, hws⟩ := hcolon
    rw [record, write, writeMembers_eq_map]
    refine run_enclose (hlayout depth) ⟨_, rfl, rfl⟩ ⟨_, rfl, rfl⟩ hstart hfirst rfl
      (State.behindMember_comma outer) (State.behindMember_close outer)
      fun (k, v) hm done t rest ht hrest => ?_
    -- a key, the colon, and the value
    simp only [String.toList_append, hcolon, List.append_assoc, List.cons_append]
    rw [run_append_of_step (lexemes?_quote k _) (ht (some k)), run_punctuation rfl rfl, run_space hws,
      ih (k, v) hm (depth + 1) (.value _) hrest]
    rfl

/-- Space behind a document does not count. -/
theorem parse?_write (hlayout : ∀ depth, (layout depth).Plain) (hcolon : IsSpaced ':' colon)
    (hv : Writable v) (space : String) (hspace : ∀ c ∈ space.toList, isSpace c = true) :
    parse? (write layout colon 0 v ++ space) = some v := by
  have hstops : Stops (space.toList ++ []) := stops_append_of_isSpace hspace stops_nil
  rw [parse?_eq, String.toList_append, ← List.append_nil space.toList,
    run_write hlayout hcolon hv 0 (.value []) hstops, run_space hspace, run_nil]
  rfl

end Values

/-- **What is written without space is read back.** -/
theorem parse?_compact (hv : Writable v) : parse? v.compact = some v := by
  have hcolon : IsSpaced ':' ":" := ⟨[], rfl, nofun⟩
  have h := parse?_write (fun _ => Layout.compact_plain) hcolon hv "" (by simp)
  rwa [String.append_empty] at h

/-- **What is written line by line is read back**, with or without an end of the last line. -/
theorem parse?_pretty (hv : Writable v) :
    parse? v.pretty = some v ∧ parse? (v.pretty ++ "\n") = some v := by
  have hcolon : IsSpaced ':' ": " := ⟨[' '], rfl, by simp [isSpace]⟩
  have h := parse?_write Layout.indented_plain hcolon hv
  constructor
  · have hempty := h "" (by simp)
    rwa [String.append_empty] at hempty
  · exact h "\n" (by simp [isSpace])

end Chip8.Json
