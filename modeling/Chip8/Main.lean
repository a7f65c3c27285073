import Chip8.Command.Run

/-!
# The command line

Reads the arguments, carries out the command on the files of the system, and prints. All that is decided
is decided elsewhere.
-/

namespace Chip8.Main

/-- Whether a code of the system, which may come with either sign, is the code `n`. -/
def isCode (n code : UInt32) : Bool := code == n || code == 0 - n

/-- The fault behind an error of the system. -/
def faultOf : IO.Error → FileFault
  | .noFileOrDirectory .. => .notFound
  | .inappropriateType _ code _ => if isCode 20 code then .notDirectory else .isDirectory
  | .invalidArgument _ code details =>
    if isCode 36 code then .nameTooLong else .other details
  | e => .other (toString e)

instance : FileStore IO where
  read path := do
    match ← (IO.FS.readBinFile path).toBaseIO with
    | .ok bytes => return .ok bytes.data
    | .error e => return .error (faultOf e)
  write path content := do
    match ← (IO.FS.writeBinFile path ⟨content⟩).toBaseIO with
    | .ok () => return .ok ()
    | .error e => return .error (faultOf e)

/-- How the program is called. -/
def usage : String :=
  "Usage: chip8 [--base ADDR] [--skip N] [--len N] ROMFILE COMMAND

Commands:
  detect   [--max-size N] [--probe N]
  sections
  range    [START] [END] [--show-bytes] [--out FILE]
  analyze  [--entry ADDR...] [--max-instr N] [--format text|json] [--listing]
           [--show-bytes] [--labels-in FILE] [--labels-out FILE] [--out FILE]
  opcodes
  arch
"

/-- Prints a result, and gives the exit code. -/
def conclude (result : Result) : IO UInt32 := do
  IO.print result.output
  if let some failure := result.failure then
    IO.eprintln ("Error: " ++ failure.message)
  return result.exitCode.toUInt32

end Chip8.Main

open Chip8 in
/-- Carries out the command line. -/
def main (args : List String) : IO UInt32 := do
  match Invocation.read args with
  | .ok invocation => Main.conclude (← invocation.run)
  | .error .help => IO.print Main.usage; return 0
  | .error .version => IO.println "chip8 0.1.0"; return 0
  | .error .misuse => IO.eprint Main.usage; return 2
