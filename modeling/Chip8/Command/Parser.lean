import Chip8.Command.Basic
import Chip8.Command.Options

/-!
# Reading command lines

The grammar of each command, and the invocation that a whole command line stands for. Options about the
file come before the subcommand, on either side of the file.
-/

namespace Chip8.Invocation

open Options

/-- Reads an address and stores it. -/
def withAddress {σ : Type} (set : Address → σ → σ) (arg : String) (settings : σ) : Option σ :=
  (set · settings) <$> (Numeral.readAddress arg).toOption

/-- Reads a size and stores it. -/
def withSize {σ : Type} (set : Nat → σ → σ) (arg : String) (settings : σ) : Option σ :=
  (set · settings) <$> (Numeral.readSize arg).toOption

/-- Stores any text. -/
def withText {σ : Type} (set : String → σ → σ) (arg : String) (settings : σ) : Option σ :=
  some (set arg settings)

/-- Reads the name of a format. -/
def format? : String → Option ReportFormat
  | "text" => some .text
  | "json" => some .json
  | _ => none

/-! ## Subcommands -/

/-- `detect`: the limits that the file has to satisfy. -/
def detectGrammar : Grammar Probe.Limits where
  options :=
    [("max-size", .one (withSize fun n l => { l with maxSize := n })),
      ("probe", .one (withSize fun n l => { l with words := n }))]

/-- `range`: where the listing starts and ends, and how it looks. -/
def rangeGrammar : Grammar RangeRequest where
  options :=
    [("show-bytes", .flag fun r => { r with showBytes := true }),
      ("out", .one (withText fun s r => { r with out := some s }))]
  positionals :=
    [withAddress fun a r => { r with start := some a },
      withAddress fun a r => { r with stop := some a }]

/-- `analyze`: where the walk starts and how far it goes, labels, and the form of the report. -/
def analyzeGrammar : Grammar AnalyzeRequest where
  options :=
    [("entry", .many fun args r => do
        let entries ← args.mapM fun arg => (Numeral.readAddress arg).toOption
        return { r with entries := r.entries ++ entries }),
      ("max-instr", .one (withSize fun n r => { r with budget := n })),
      ("format", .one fun s r => (fun f => { r with format := f }) <$> format? s),
      ("listing", .flag fun r => { r with listing := true }),
      ("show-bytes", .flag fun r => { r with showBytes := true }),
      ("labels-in", .one (withText fun s r => { r with labelsIn := some s })),
      ("labels-out", .one (withText fun s r => { r with labelsOut := some s })),
      ("out", .one (withText fun s r => { r with out := some s }))]

/-- A command without options. -/
def plainGrammar : Grammar Unit where
  options := []

/-- The subcommands. -/
def commandNames : List String :=
  ["detect", "sections", "range", "analyze", "opcodes", "arch", "help"]

/-- Help may be asked for about one subcommand. -/
def helpStop : List String → Stop
  | [] => .help
  | [name] => if name ∈ commandNames then .help else .misuse
  | _ => .misuse

/-- The command that a subcommand and its arguments stand for. -/
def readCommand (name : String) (args : List String) : Except Stop Command :=
  match name with
  | "detect" => (fun o => .detect o.settings) <$> detectGrammar.take {} args
  | "sections" => (fun _ => .sections) <$> plainGrammar.take () args
  | "range" => (fun o => .range o.settings) <$> rangeGrammar.take {} args
  | "analyze" => (fun o => .analyze o.settings) <$> analyzeGrammar.take {} args
  | "opcodes" => (fun _ => .opcodes) <$> plainGrammar.take () args
  | "arch" => (fun _ => .architecture) <$> plainGrammar.take () args
  | "help" => .error (helpStop args)
  | _ => .error .misuse

/-! ## Whole command lines -/

/-- What stands before the subcommand. -/
structure Preamble where
  path : Option String := none
  base : Address := Machine.loadAddress
  cut : Cut := {}

/-- The file, and options about which part of it is the program. -/
def preambleGrammar : Grammar Preamble where
  options :=
    [("base", .one (withAddress fun a p => { p with base := a })),
      ("skip", .one (withSize fun n p => { p with cut.skip := n })),
      ("len", .one (withSize fun n p => { p with cut.length := some n }))]
  positionals := [withText fun s p => { p with path := some s }]
  subcommands := commandNames
  hasVersion := true

/-- Reads a command line. That the file is missing is found out last. -/
def read (args : List String) : Except Stop Invocation := do
  let ⟨preamble, subcommand⟩ ← preambleGrammar.take {} args
  match subcommand with
  | none => .error .misuse
  | some (name, args) =>
    let command ← readCommand name args
    match preamble.path with
    | none => .error .misuse
    | some path => return ⟨⟨path, preamble.base, preamble.cut⟩, command⟩

end Chip8.Invocation
