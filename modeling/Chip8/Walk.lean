import Chip8.AddressSet
import Chip8.Decode
import Chip8.Flow
import Chip8.Image.Basic

/-!
# Walking the code

A walk goes in rounds. The first round are the entries, and each further round the targets found in the
round before, in the order in which they were found. Every address is handled once: either its word
decodes, and the address is a site, or it does not, and the address is data. Addresses without a word are
passed over. Only decoded words count against the budget, and the walk stops in front of the address at
which it runs out.

The walk knows the addresses of the 4 KiB memory. Reaching an instruction above is a fault; it takes an
image that is no loaded program.

The walk ends without the budget: `AddressSet.room` of the handled addresses falls with each address
that is handled, and what is left to look at shrinks with each that is not.
-/

namespace Chip8

/-! ## Edges -/

namespace Edge

/-- How control goes along an edge. -/
inductive Kind where
  | fallthrough
  | branch
  | condBranch
  | call
  deriving DecidableEq, Repr

/-- The short name of a kind of edge. -/
def Kind.tag : Kind → String
  | fallthrough => "ft"
  | branch => "br"
  | condBranch => "cbr"
  | call => "call"

end Edge

/-- A way that control may go. -/
structure Edge where
  source : Address
  target : Address
  kind : Edge.Kind
  deriving DecidableEq, Repr

/-! ## Sites -/

/-- A decoded word and its address. -/
structure Site where
  address : Address
  word : Word
  deriving DecidableEq, Repr

namespace Site

/-- The flow at a site. -/
def flow (s : Site) : Flow := s.word.flow s.address

/-- The edge that runs on to `a`, which is there only if `a` is mapped. -/
def runOn (img : Image) (s : Site) (a : Address) : List Edge :=
  if img.maps a then [⟨s.address, a, .fallthrough⟩] else []

/-- The edges that leave a site. Targets of jumps, calls and taken skips may be unmapped. -/
def edges (img : Image) (s : Site) : List Edge :=
  match s.flow with
  | .next => s.runOn img (Word.next s.address)
  | .jump t => [⟨s.address, t, .branch⟩]
  | .call t => ⟨s.address, t, .call⟩ :: s.runOn img (Word.next s.address)
  | .skip taken passed => ⟨s.address, taken, .condBranch⟩ :: s.runOn img passed
  | .ret | .indirect => []

end Site

/-! ## The walk -/

/-- What a walk has found. -/
structure Walk where
  /-- The sites, the latest first. -/
  sites : List Site
  /-- The addresses of words that do not decode, the latest first. -/
  data : List Address
  /-- The addresses of both. -/
  handled : AddressSet

namespace Walk

/-- A walk that has found nothing yet. -/
def start : Walk := ⟨[], [], ∅⟩

/-- Adds a site. -/
def addSite (w : Walk) (s : Site) : Walk :=
  { w with sites := s :: w.sites, handled := w.handled.insert s.address }

/-- Adds an address whose word does not decode. -/
def addData (w : Walk) (a : Address) : Walk :=
  { w with data := a :: w.data, handled := w.handled.insert a }

/-- An instruction outside the memory. -/
inductive Fault where
  | outsideMemory (address : Address)
  deriving DecidableEq, Repr

/-- What is said about an instruction outside the memory. -/
def Fault.message : Fault → String
  | outsideMemory a =>
    "instruction at " ++ Numeral.address a ++ " lies outside the 12-bit address space"

/--
Walks on from `w` over the rest of a round, and then over the targets that it has found so far, the latest
of which stands first in `found`.
-/
def run (img : Image) (budget : Nat) (round found : List Address) (w : Walk) :
    Except Fault Walk :=
  match round, budget with
  | [], _ =>
    match found with
    | [] => .ok w
    | t :: ts => run img budget (t :: ts).reverse [] w
  | _ :: _, 0 => .ok w
  | a :: round, budget + 1 =>
    if a ∈ w.handled then run img (budget + 1) round found w
    else
      match img.word? a with
      | none => run img (budget + 1) round found w
      | some word =>
        if word.decode?.isNone then run img (budget + 1) round found (w.addData a)
        else if Machine.memorySize ≤ a.toNat then .error (.outsideMemory a)
        else
          let site : Site := ⟨a, word⟩
          let targets := (site.edges img).map Edge.target
          run img budget round (targets.reverse ++ found) (w.addSite site)
termination_by (w.handled.room, 2 * found.length + round.length)
decreasing_by
  · exact .right _ (by simp)
  · exact .right _ (by simp)
  · exact .right _ (by simp)
  · exact .left _ _ (AddressSet.room_insert_lt ‹_›)
  · exact .left _ _ (AddressSet.room_insert_lt ‹_›)

end Walk

/-- Walks the code of an image from the entries, in their order, with a budget of instructions. -/
def Image.walk (img : Image) (entries : List Address) (budget : Nat) : Except Walk.Fault Walk :=
  Walk.run img budget entries [] .start

end Chip8
