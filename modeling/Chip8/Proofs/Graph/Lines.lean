import Chip8.Command.Report
import Chip8.Proofs.Graph.Blocks
import Chip8.Proofs.Listing
import Mathlib.Data.List.Basic

/-!
# The lines of blocks

A report shows code twice: block by block, or as one listing in ascending order. Both show the same lines
(`Graph.lines_perm_listing`), because the blocks divide the visited addresses among them and a word stands at
each of these. It is an instruction, so no line shows bytes to emit.
-/

namespace Chip8

/-! ## Lines for instructions -/

namespace Line

variable {a : Address} {w : Word} {showBytes : Bool}

/-- What a line shows of a word: what stands behind the address, and behind the bytes if they are shown. -/
def text (showBytes : Bool) (line : String) : List Char :=
  (body line).drop (if showBytes then 8 else 0)

/-- Whether a line shows bytes to emit, and no instruction. -/
def isRaw (showBytes : Bool) (line : String) : Bool :=
  "_emit ".toList.isPrefixOf (text showBytes line)

@[simp]
theorem text_word :
    text showBytes (Numeral.address a ++ ": " ++ w.shown showBytes) = w.text.toList := by
  rw [text, body_at]
  cases showBytes with
  | false =>
    have hshown : w.shown false = w.text := String.empty_append
    rw [hshown]
    rfl
  | true =>
    have hhi := Word.length_hexDigits_byte w.highByte
    have hlo := Word.length_hexDigits_byte w.lowByte
    have hfront : ((w.shown true).toList.drop 2).drop 1 =
        (Numeral.hexDigits 2 w.lowByte.toNat).toList ++ ("   " ++ w.text).toList := by
      rw [w.toList_shown_true, List.drop_left' hhi]
      rfl
    have hsplit : (w.shown true).toList.drop 8 = ((((w.shown true).toList.drop 2).drop 1).drop 2).drop 3 := by
      simp only [List.drop_drop]
    show (w.shown true).toList.drop 8 = _
    rw [hsplit, hfront, List.drop_left' hlo, String.toList_append]
    rfl

/-- Bytes to emit are shown exactly for words that do not decode. -/
@[simp]
theorem isRaw_word :
    isRaw showBytes (Numeral.address a ++ ": " ++ w.shown showBytes) = w.decode?.isNone := by
  rw [isRaw, text_word]
  cases hd : w.decode? with
  | none =>
    rw [Word.text, Word.tokens, hd]
    simp [Disassembly.rawTokens, Token.toList_render_cons, Token.mnemonic, Token.plain]
  | some i =>
    obtain ⟨c, cs, hcs, hc⟩ := i.text_head
    rw [Word.text_of_decode? hd, hcs]
    have hne : ('_' == c) = false := by
      rw [beq_eq_false_iff_ne]
      rintro rfl
      cases hc
    show (('_' == c) && _) = false
    rw [hne, Bool.false_and]

end Line

namespace Image

variable {img : Image} {showBytes : Bool} {a : Address} {l : List Address}

theorem line?_eq_lineAt (h : ∃ w, img.word? a = some w) :
    img.line? showBytes a = some (img.lineAt showBytes a) := by
  obtain ⟨w, hw⟩ := h
  rw [lineAt_of_word hw, line?_eq, hw]
  rfl

/-- Where words stand at all addresses of a list, each of them has a line. -/
theorem filterMap_line? (h : ∀ a ∈ l, ∃ w, img.word? a = some w) :
    l.filterMap (img.line? showBytes) = l.map (img.lineAt showBytes) := by
  rw [← List.filterMap_eq_map]
  exact List.filterMap_congr fun a ha => line?_eq_lineAt (h a ha)

/-- Lines at different addresses differ. -/
theorem nodup_map_lineAt (h : l.Nodup) : (l.map (img.lineAt showBytes)).Nodup := by
  refine List.Pairwise.map (img.lineAt showBytes) (fun x y hne hline => hne ?_) h
  have haddress : Line.address? (img.lineAt showBytes x) = Line.address? (img.lineAt showBytes y) := by
    rw [hline]
  simpa using haddress

end Image

/-! ## Lines of a listing -/

namespace Report

/-- The line for an instruction that a line of a report shows: what is indented by two blanks. -/
def indented? (line : String) : Option String :=
  match line.toList with
  | ' ' :: ' ' :: cs => some (String.ofList cs)
  | _ => none

@[simp]
theorem indented?_indent (line : String) : indented? ("  " ++ line) = some line := by
  have hline : ("  " ++ line).toList = ' ' :: ' ' :: line.toList := by
    rw [String.toList_append]
    rfl
  simp [indented?, hline]

/-- A line with a label starts with its address. -/
@[simp]
theorem indented?_label (a : Address) (name : String) :
    indented? (Numeral.address a ++ " <" ++ name ++ ">:") = none := by
  have hline : ∃ cs, (Numeral.address a ++ " <" ++ name ++ ">:").toList = '0' :: cs := by
    simp only [String.toList_append, Numeral.toList_address]
    exact ⟨_, rfl⟩
  obtain ⟨cs, hcs⟩ := hline
  simp [indented?, hcs]

/-- The listing of a report shows the lines of the visited addresses. -/
theorem filterMap_indented?_listingLines (r : Report) (showBytes : Bool) :
    (r.listingLines showBytes).filterMap indented? =
      r.analysis.visited.toList.filterMap (r.image.line? showBytes) := by
  have hhead : indented? "" = none ∧ indented? "Listing (analyzed PCs):" = none := by decide
  have hinstruction : ∀ a, (r.instructionLines showBytes a).filterMap indented? =
      (r.image.line? showBytes a).toList := by
    intro a
    unfold instructionLines
    cases r.labels[a]? <;> cases r.image.line? showBytes a <;> simp
  rw [listingLines, List.filterMap_cons_none hhead.1, List.filterMap_cons_none hhead.2,
    List.filterMap_flatMap]
  simp only [hinstruction, List.filterMap_eq_flatMap_toList]

end Report

/-! ## Lines of blocks -/

namespace Analysis

variable {a : Analysis} {img : Image} {entries seeds : List Address} {b : Block} {showBytes : Bool}

section Traces

variable (h : a.Traces img entries)
include h

theorem Traces.exists_word? {x : Address} (hx : x ∈ a.visited) : ∃ w, img.word? x = some w := by
  obtain ⟨w, hw, -⟩ := h.word x hx
  exact ⟨w, hw⟩

/-- A block has a line for each of its instructions. -/
theorem Traces.lines_eq (hb : b ∈ a.blocks (a.starts seeds)) :
    b.lines img showBytes = b.addresses.map (img.lineAt showBytes) := by
  refine Image.filterMap_line? fun x hx => h.exists_word? ?_
  exact (h.swept hb).visited x (Block.mem_addresses_iff.mp hx)

theorem Traces.isRaw_lineAt {x : Address} (hx : x ∈ a.visited) :
    Line.isRaw showBytes (img.lineAt showBytes x) = false := by
  obtain ⟨w, hw, hd⟩ := h.word x hx
  simpa [Image.lineAt_of_word hw] using hd

end Traces

end Analysis

namespace Graph

open Analysis

variable {program : Bytes} {base : Address} {img : Image}

/-- The blocks of the graph list the code, and so does the listing of a report. -/
structure Lists (g : Graph) (img : Image) (a : Analysis) (showBytes : Bool) : Prop where
  length : ∀ b ∈ g.blocks, (b.lines img showBytes).length = (b.stop.toNat - b.start.toNat) / 2
  line : ∀ b ∈ g.blocks, ∀ i < (b.stop.toNat - b.start.toNat) / 2,
    (b.lines img showBytes)[i]? = img.line? showBytes (b.start + UInt16.ofNat (2 * i))
  decoded : ∀ b ∈ g.blocks, ∀ line ∈ b.lines img showBytes, Line.isRaw showBytes line = false
  perm : (g.blocks.flatMap (Block.lines img showBytes)).Perm
    (a.visited.toList.filterMap (img.line? showBytes))
  count : (g.blocks.flatMap (Block.lines img showBytes)).length = a.visited.size
  nodup : (g.blocks.flatMap (Block.lines img showBytes)).Nodup
  listing : ∀ seeds labels,
    (Report.listingLines ⟨img, seeds, a, g, labels⟩ showBytes).filterMap Report.indented? =
      a.visited.toList.filterMap (img.line? showBytes)

/-- **Blocks and listing show the same lines**, for any budget and any seeds among which the entries are. -/
theorem lines_perm_listing (himg : Image.ofProgram program base = .ok img) (entries : List Address)
    (budget : Nat) {seeds : List Address} (hseeds : ∀ e ∈ entries, e ∈ seeds) (showBytes : Bool) :
    ∃ a, img.analyze entries budget = .ok a ∧ (ofAnalysis a seeds).Lists img a showBytes := by
  obtain ⟨a, ha⟩ := Image.exists_analyze himg entries budget
  have h := Image.traces_of_analyze ha
  -- both are made of the lines at the visited addresses
  have hlisting : a.visited.toList.filterMap (img.line? showBytes) =
      a.visited.toList.map (img.lineAt showBytes) :=
    Image.filterMap_line? fun x hx => h.exists_word? (Std.ExtTreeSet.mem_toList.mp hx)
  have hblocks : (ofAnalysis a seeds).blocks.flatMap (Block.lines img showBytes) =
      ((a.blocks (a.starts seeds)).flatMap Block.addresses).map (img.lineAt showBytes) := by
    rw [List.map_flatMap]
    exact List.flatMap_congr fun b hb => h.lines_eq hb
  have hperm := h.addresses_perm_visited hseeds
  refine ⟨a, ha, ?_⟩
  constructor
  case length =>
    intro b hb
    rw [h.lines_eq hb, List.length_map, (h.swept hb).length_addresses]
  case line =>
    intro b hb i hi
    have hlt : i < b.addresses.length := by rwa [(h.swept hb).length_addresses]
    have haddress : b.addresses[i]? = some (b.start + UInt16.ofNat (2 * i)) := by
      rw [List.getElem?_eq_getElem hlt]
      simp [Block.addresses]
    have hmem := (h.swept hb).visited _
      (Block.mem_addresses_iff.mp (List.mem_of_getElem? haddress))
    rw [h.lines_eq hb, List.getElem?_map, haddress, Image.line?_eq_lineAt (h.exists_word? hmem)]
    rfl
  case decoded =>
    intro b hb line hline
    rw [h.lines_eq hb] at hline
    obtain ⟨x, hx, rfl⟩ := List.mem_map.mp hline
    exact h.isRaw_lineAt ((h.swept hb).visited x (Block.mem_addresses_iff.mp hx))
  case perm =>
    rw [hblocks, hlisting]
    exact hperm.map _
  case count =>
    rw [hblocks, List.length_map, hperm.length_eq, Std.ExtTreeSet.length_toList]
  case nodup =>
    rw [hblocks]
    exact Image.nodup_map_lineAt (hperm.nodup_iff.mpr (AddressSet.nodup_toList _))
  case listing =>
    intro seeds labels
    exact Report.filterMap_indented?_listingLines _ showBytes

/-- Two streams of instructions that overlap, one byte apart, listed with their bytes. -/
theorem lines_perm_listing_overlapping :
    ∃ img, Image.ofProgram #[0x60, 0x61, 0x62, 0x63, 0x64, 0x65, 0x00, 0xEE] 0x200 = .ok img ∧
      (∀ e ∈ [(0x200 : Address), 0x201], e ∈ [(0x200 : Address), 0x201]) ∧
      ∃ a, img.analyze [0x200, 0x201] 5 = .ok a ∧
        (ofAnalysis a [0x200, 0x201]).Lists img a true := by
  have himg :
      Image.ofProgram #[0x60, 0x61, 0x62, 0x63, 0x64, 0x65, 0x00, 0xEE] 0x200 = .ok _ := rfl
  have hseeds : ∀ e ∈ [(0x200 : Address), 0x201], e ∈ [(0x200 : Address), 0x201] := fun _ he => he
  exact ⟨_, himg, hseeds, lines_perm_listing himg _ 5 hseeds true⟩

end Graph

end Chip8
