/-!
# Options

Command lines of options, positional arguments and subcommands, described by a grammar. Arguments are
taken from left to right, and the first that does not fit, or that asks for help, decides.

* An option is `--name`, and takes no value, one, or as many as follow. One value may also be attached,
  as in `--name=value`. A value does not begin with a dash, unless it is a dash alone.
* An option may be given once, unless it takes many values.
* Behind `--` all arguments are positional.
* Where no value is expected, the name of a subcommand is always the subcommand, which takes the rest.
-/

namespace Chip8.Options

/-- Why a command line is not carried out. -/
inductive Stop where
  | help
  | version
  | misuse
  deriving DecidableEq, Repr

/-- What an option does to the settings `σ`. A value that is refused gives `none`. -/
inductive Effect (σ : Type) where
  | flag (set : σ → σ)
  | one (set : String → σ → Option σ)
  | many (set : List String → σ → Option σ)

/-- Whether an option may be given again. -/
def Effect.repeats {σ : Type} : Effect σ → Bool
  | many _ => true
  | _ => false

/-- The command lines of one command. -/
structure Grammar (σ : Type) where
  /-- The options, by name without dashes. -/
  options : List (String × Effect σ)
  /-- What each positional argument does. -/
  positionals : List (String → σ → Option σ) := []
  subcommands : List String := []
  hasVersion : Bool := false

/-- Settings, and the subcommand with the arguments that are left for it. -/
structure Outcome (σ : Type) where
  settings : σ
  subcommand : Option (String × List String)

/-- Whether an argument can be the value of an option. -/
def isValue (arg : String) : Bool := arg == "-" || !arg.startsWith "-"

/-- The name of a long option, and the value that is attached to it. -/
def splitAttached (arg : String) : String × Option String :=
  let cs := arg.toList.drop 2
  match cs.dropWhile (· != '=') with
  | [] => (String.ofList cs, none)
  | _ :: value => (String.ofList (cs.takeWhile (· != '=')), some (String.ofList value))

/-- The built-in option that an argument asks for, if it is one. -/
def builtin? (hasVersion : Bool) (arg : String) : Option Stop :=
  if arg = "--help" ∨ arg.startsWith "-h" then some .help
  else if hasVersion ∧ (arg = "--version" ∨ arg.startsWith "-V") then some .version
  else none

/-- Takes positional arguments. -/
def takePositionals {σ : Type} : List (String → σ → Option σ) → List String → σ → Except Stop σ
  | _, [], settings => .ok settings
  | [], _ :: _, _ => .error .misuse
  | set :: sets, arg :: args, settings =>
    match set arg settings with
    | some settings => takePositionals sets args settings
    | none => .error .misuse

/-- The settings behind an option with these values. -/
def apply {σ : Type} (effect : Effect σ) (values : List String) (settings : σ) : Except Stop σ :=
  match effect, values with
  | .flag set, [] => .ok (set settings)
  | .one set, [v] => (set v settings).elim (.error .misuse) .ok
  | .many set, v :: vs => (set (v :: vs) settings).elim (.error .misuse) .ok
  | _, _ => .error .misuse

/-- How many of the arguments behind an option are its values. -/
def valueCount {σ : Type} (effect : Effect σ) (args : List String) : Nat :=
  match effect with
  | .flag _ => 0
  | .one _ => ((args.take 1).takeWhile isValue).length
  | .many _ => (args.takeWhile isValue).length

/-- Takes the arguments from left to right. `given` are the options that were given before. -/
def scan {σ : Type} (g : Grammar σ) (sets : List (String → σ → Option σ)) (given : List String)
    (settings : σ) : List String → Except Stop (Outcome σ)
  | [] => .ok ⟨settings, none⟩
  | arg :: args =>
    if arg = "--" then
      (⟨·, none⟩) <$> takePositionals sets args settings
    else if isValue arg then
      if arg ∈ g.subcommands then .ok ⟨settings, some (arg, args)⟩
      else
        match sets with
        | [] => .error .misuse
        | set :: sets =>
          match set arg settings with
          | some settings => scan g sets given settings args
          | none => .error .misuse
    else
      match builtin? g.hasVersion arg with
      | some stop => .error stop
      | none =>
        if ¬ arg.startsWith "--" then .error .misuse
        else
          let (name, attached) := splitAttached arg
          match g.options.lookup name with
          | none => .error .misuse
          | some effect =>
            if name ∈ given ∧ ¬ effect.repeats then .error .misuse
            else
              let count := if attached.isSome then 0 else valueCount effect args
              match apply effect (attached.toList ++ args.take count) settings with
              | .error stop => .error stop
              | .ok settings => scan g sets (name :: given) settings (args.drop count)
termination_by args => args.length
decreasing_by all_goals grind

/-- Takes a command line, from settings that hold the defaults. -/
def Grammar.take {σ : Type} (g : Grammar σ) (settings : σ) (args : List String) :
    Except Stop (Outcome σ) :=
  scan g g.positionals [] settings args

end Chip8.Options
