import Chip8.Image.Access
import Chip8.Machine

/-!
# Images

An image is memory as far as it is known: segments of bytes at addresses, and the address where the
program starts. Segments may overlap, and then the first one in the list counts; they may also leave
gaps or reach beyond the addresses there are. Loading a file maps part of it, the payload, as one
segment, which has to fit into the 4 KiB memory.
-/

namespace Chip8

/-- A piece of memory. -/
structure Segment where
  name : String
  base : Address
  bytes : Bytes
  access : Access
  deriving DecidableEq

namespace Segment

/-- The first address behind the segment, which may be too large for an address. -/
def stop (s : Segment) : Nat := s.base.toNat + s.bytes.size

/-- Whether the segment covers an address. -/
def contains (s : Segment) (a : Address) : Bool :=
  decide (s.base ≤ a ∧ a.toNat < s.stop)

end Segment

/-- Segments of memory and the address where the program starts. -/
structure Image where
  segments : List Segment
  entry : Address
  deriving DecidableEq

namespace Image

/-! ## Reading -/

/-- Whether some segment covers an address. -/
def maps (img : Image) (a : Address) : Bool := img.segments.any (·.contains a)

/-- The byte at an address. -/
def byte? (img : Image) (a : Address) : Option UInt8 := do
  let s ← img.segments.find? (·.contains a)
  s.bytes[a.toNat - s.base.toNat]?

/-- The word at an address. No word starts at the last address there is. -/
def word? (img : Image) (a : Address) : Option Word :=
  if a.toNat + 1 < UInt16.size then do
    let hi ← img.byte? a
    let lo ← img.byte? (a + 1)
    return Word.ofBytes hi lo
  else none

/-! ## Loading -/

/-- A program that does not fit between its base and the end of memory. -/
structure Misfit where
  size : Nat
  base : Address
  deriving DecidableEq, Repr

/-- What is said about a program that does not fit. -/
def Misfit.message (e : Misfit) : String :=
  "ROM of " ++ Numeral.hex e.size ++ " bytes at " ++ Numeral.hexPadded 3 e.base.toNat ++
    " runs past the 12-bit address space"

/-- The image of a program at `base`: one segment with all rights, which starts at its first byte. -/
def ofProgram (program : Bytes) (base : Address) : Except Misfit Image :=
  if base.toNat + program.size ≤ Machine.memorySize then
    .ok ⟨[⟨"ROM Data", base, program, .all⟩], base⟩
  else .error ⟨program.size, base⟩

end Image

/-! ## Payloads -/

/-- Which part of a file is the program: `skip` bytes are left out, and `length` taken, or the rest. -/
structure Cut where
  skip : Nat := 0
  length : Option Nat := none
  deriving DecidableEq, Repr

/-- Why a file has no such part. -/
inductive Cut.Fault where
  | skipTooLarge
  | lengthTooLarge
  deriving DecidableEq, Repr

/-- What is said about a file that is too short. -/
def Cut.Fault.message : Cut.Fault → String
  | skipTooLarge => "--skip exceeds file size"
  | lengthTooLarge => "--len exceeds remaining file size after skip"

/-- The part of a file that is the program. -/
def Cut.payload (c : Cut) (file : Bytes) : Except Cut.Fault Bytes :=
  if file.size < c.skip then .error .skipTooLarge
  else
    match c.length with
    | none => .ok (file.extract c.skip)
    | some n =>
      if file.size - c.skip < n then .error .lengthTooLarge
      else .ok (file.extract c.skip (c.skip + n))

/-- Why a file cannot be loaded. -/
inductive LoadFault where
  | cut (fault : Cut.Fault)
  | misfit (fault : Image.Misfit)
  deriving DecidableEq, Repr

/-- What is said about a file that cannot be loaded. -/
def LoadFault.message : LoadFault → String
  | cut e => e.message
  | misfit e => e.message

/-- The image of the part of a file that is the program. -/
def Image.load (file : Bytes) (c : Cut) (base : Address) : Except LoadFault Image := do
  let program ← (c.payload file).mapError .cut
  (ofProgram program base).mapError .misfit

end Chip8
