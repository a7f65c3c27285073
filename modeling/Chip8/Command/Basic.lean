import Chip8.Image.Basic
import Chip8.Probe

/-!
# Commands

What a person can ask for: a file and the part of it that is the program, and what to do with it.
-/

namespace Chip8

/-- A file, the part of it that is the program, and where that is mapped. -/
structure ProgramFile where
  path : String
  base : Address := Machine.loadAddress
  cut : Cut := {}
  deriving DecidableEq, Repr

/-- The form of a report. -/
inductive ReportFormat where
  | text
  | json
  deriving DecidableEq, Repr

/-- A listing of the words between two addresses; the whole program if none is given. -/
structure RangeRequest where
  start : Option Address := none
  stop : Option Address := none
  showBytes : Bool := false
  out : Option String := none
  deriving DecidableEq, Repr

/-- A walk of the code with a report. Without entries the walk starts where the program does. -/
structure AnalyzeRequest where
  entries : List Address := []
  budget : Nat := 4096
  format : ReportFormat := .text
  listing : Bool := false
  showBytes : Bool := false
  labelsIn : Option String := none
  labelsOut : Option String := none
  out : Option String := none
  deriving DecidableEq, Repr

/-- What to do. -/
inductive Command where
  | detect (limits : Probe.Limits)
  | sections
  | range (request : RangeRequest)
  | analyze (request : AnalyzeRequest)
  | opcodes
  | architecture
  deriving DecidableEq, Repr

/-- A whole command line. -/
structure Invocation where
  file : ProgramFile
  command : Command
  deriving DecidableEq, Repr

end Chip8
