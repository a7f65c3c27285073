import Chip8.Image.Basic
import Chip8.Proofs.Word

/-!
# Reading from segments

The segments of an image may be empty, overlap, leave gaps and reach beyond the last address. A byte is that
of the first segment in the list that covers the address (`Image.byte?_of_firstCovers`), so segments that are
added behind the others change nothing that could be read before (`Image.byte?_extend`). A word is two bytes,
whichever segments they are from.

Addresses have 16 bits, and the end of a segment has 32. For a segment that leaves room for its base these are
enough: its end is exact, and the distance from its base is an index of its bytes.
-/

namespace Chip8

/-! ## One segment -/

namespace Segment

variable {s : Segment} {a : Address}

/-- The address is that of a byte of the segment. -/
def Covers (s : Segment) (a : Address) : Prop :=
  s.base.toNat ≤ a.toNat ∧ a.toNat < s.base.toNat + s.bytes.size

/-- The first address behind the segment, in 32 bits. -/
def stop32 (s : Segment) : UInt32 := s.base.toUInt32 + UInt32.ofNat s.bytes.size

theorem contains_iff : s.contains a = true ↔ s.base.toNat ≤ a.toNat ∧ a.toNat < s.stop := by
  simp [contains, UInt16.le_iff_toNat_le]

@[simp]
theorem contains_iff_covers : s.contains a = true ↔ s.Covers a := contains_iff

/-- The end is exact if there is room for the base. -/
theorem toNat_stop32 (hsize : s.bytes.size < 2 ^ 32 - 2 ^ 16) : s.stop32.toNat = s.stop := by
  have hbase := s.base.toNat_lt
  have hbytes : (UInt32.ofNat s.bytes.size).toNat = s.bytes.size :=
    UInt32.toNat_ofNat_of_lt' (show s.bytes.size < 2 ^ 32 by omega)
  rw [stop32, UInt32.toNat_add, hbytes, UInt16.toNat_toUInt32, stop]
  exact Nat.mod_eq_of_lt (by omega)

/-- Whether an address is covered can be decided in 32 bits. -/
theorem contains_iff_stop32 (hsize : s.bytes.size < 2 ^ 32 - 2 ^ 16) :
    s.contains a = true ↔ s.base.toUInt32 ≤ a.toUInt32 ∧ a.toUInt32 < s.stop32 := by
  rw [contains_iff, UInt32.le_iff_toNat_le, UInt32.lt_iff_toNat_lt, toNat_stop32 hsize,
    UInt16.toNat_toUInt32, UInt16.toNat_toUInt32]

/-- The distance from the base does not wrap, and is an index. -/
theorem Covers.index_lt (h : s.Covers a) : (a - s.base).toNat < s.bytes.size := by
  obtain ⟨hle, hlt⟩ := h
  rw [UInt16.toNat_sub_of_le _ _ (UInt16.le_iff_toNat_le.mpr hle)]
  omega

end Segment

/-! ## Any image -/

namespace Image

variable {img : Image} {a : Address} {s : Segment} {b : UInt8} {w : Word}

/-- The segment is the first in the list that covers the address. -/
def FirstCovers (img : Image) (a : Address) (s : Segment) : Prop :=
  ∃ before after, img.segments = before ++ s :: after ∧ s.Covers a ∧ ∀ r ∈ before, ¬ r.Covers a

/-- The image with more segments, behind those that it has. -/
def extend (img : Image) (more : List Segment) : Image :=
  { img with segments := img.segments ++ more }

theorem find?_contains_eq_some_iff :
    img.segments.find? (·.contains a) = some s ↔ img.FirstCovers a s := by
  have hnot : ∀ r : Segment, (!r.contains a) = true ↔ ¬ r.Covers a := fun r => by
    rw [Bool.not_eq_true', ← Bool.not_eq_true, Segment.contains_iff_covers]
  simp only [List.find?_eq_some_iff_append, Segment.contains_iff_covers, hnot]
  constructor
  · rintro ⟨hcovers, before, after, hsplit, hbefore⟩
    exact ⟨before, after, hsplit, hcovers, hbefore⟩
  · rintro ⟨before, after, hsplit, hcovers, hbefore⟩
    exact ⟨hcovers, before, after, hsplit, hbefore⟩

theorem find?_contains_eq_none_iff :
    img.segments.find? (·.contains a) = none ↔ ∀ s ∈ img.segments, ¬ s.Covers a := by
  simp only [List.find?_eq_none, Segment.contains_iff_covers]

/-- **A byte is read from the first segment that covers its address**, at an index of that segment. -/
theorem byte?_of_firstCovers (h : img.FirstCovers a s) :
    ∃ _ : (a - s.base).toNat < s.bytes.size, img.byte? a = some s.bytes[(a - s.base).toNat] := by
  have hfind := find?_contains_eq_some_iff.mpr h
  obtain ⟨before, after, -, hcovers, -⟩ := h
  have hindex : (a - s.base).toNat = a.toNat - s.base.toNat :=
    UInt16.toNat_sub_of_le _ _ (UInt16.le_iff_toNat_le.mpr hcovers.1)
  refine ⟨hcovers.index_lt, ?_⟩
  rw [byte?, hfind, Option.bind_eq_bind, Option.bind_some, ← hindex]
  exact Array.getElem?_eq_getElem hcovers.index_lt

theorem byte?_eq_none_iff : img.byte? a = none ↔ ∀ s ∈ img.segments, ¬ s.Covers a := by
  rw [← find?_contains_eq_none_iff]
  cases hfind : img.segments.find? (·.contains a) with
  | some s =>
    obtain ⟨_, hbyte⟩ := byte?_of_firstCovers (find?_contains_eq_some_iff.mp hfind)
    rw [hbyte]
    exact ⟨nofun, nofun⟩
  | none =>
    rw [byte?, hfind]
    exact ⟨fun _ => rfl, fun _ => rfl⟩

/-- An address is mapped if there is a byte to read. -/
theorem maps_iff_exists_byte? : img.maps a = true ↔ ∃ b, img.byte? a = some b := by
  rw [← Option.ne_none_iff_exists', Ne, byte?_eq_none_iff, maps, List.any_eq_true]
  simp only [Segment.contains_iff_covers, Classical.not_forall, Classical.not_not, exists_prop]

theorem maps_of_byte? (h : img.byte? a = some b) : img.maps a = true :=
  maps_iff_exists_byte?.mpr ⟨b, h⟩

theorem bytes_of_word? (h : img.word? a = some w) :
    a.toNat + 1 < UInt16.size ∧ ∃ hi lo, img.byte? a = some hi ∧ img.byte? (a + 1) = some lo ∧
      w = Word.ofBytes hi lo := by
  unfold word? at h
  split at h
  · next hlt =>
    obtain ⟨hi, hhi, h⟩ := Option.bind_eq_some_iff.mp h
    obtain ⟨lo, hlo, h⟩ := Option.bind_eq_some_iff.mp h
    exact ⟨hlt, hi, lo, hhi, hlo, (Option.some.inj h).symm⟩
  · cases h

theorem maps_of_word? (h : img.word? a = some w) : img.maps a = true := by
  obtain ⟨-, hi, lo, hhi, -, -⟩ := bytes_of_word? h
  exact maps_of_byte? hhi

/-- A word is two bytes, the high one first. None starts at the last address. -/
theorem word?_eq_some_iff :
    img.word? a = some w ↔
      a < 0xFFFF ∧ ∃ hi lo, img.byte? a = some hi ∧ img.byte? (a + 1) = some lo ∧
        w.toNat = 256 * hi.toNat + lo.toNat := by
  have hlast : a < 0xFFFF ↔ a.toNat + 1 < UInt16.size := by
    rw [UInt16.lt_iff_toNat_lt]
    exact Nat.succ_lt_succ_iff.symm
  rw [hlast]
  simp only [← Word.eq_ofBytes_iff]
  constructor
  · exact bytes_of_word?
  · rintro ⟨hlt, hi, lo, hhi, hlo, rfl⟩
    rw [word?, if_pos hlt, hhi, hlo]
    rfl

/-! ## More segments -/

/-- What was the first segment at an address stays it when others are added behind. -/
theorem FirstCovers.extend (h : img.FirstCovers a s) (more : List Segment) :
    (img.extend more).FirstCovers a s := by
  obtain ⟨before, after, hsplit, hcovers, hbefore⟩ := h
  refine ⟨before, after ++ more, ?_, hcovers, hbefore⟩
  rw [Image.extend, hsplit, List.append_assoc, List.cons_append]

/-- **A byte that can be read stays when segments are added.** -/
theorem byte?_extend (h : img.byte? a = some b) (more : List Segment) :
    (img.extend more).byte? a = some b := by
  cases hfind : img.segments.find? (·.contains a) with
  | none =>
    rw [byte?, hfind] at h
    cases h
  | some s =>
    have hfirst := find?_contains_eq_some_iff.mp hfind
    obtain ⟨_, hbyte⟩ := byte?_of_firstCovers hfirst
    obtain ⟨_, hbyte'⟩ := byte?_of_firstCovers (hfirst.extend more)
    rw [hbyte', ← hbyte, h]

/-- **A word that can be read stays when segments are added.** -/
theorem word?_extend (h : img.word? a = some w) (more : List Segment) :
    (img.extend more).word? a = some w := by
  obtain ⟨hlast, hi, lo, hhi, hlo, hw⟩ := word?_eq_some_iff.mp h
  exact word?_eq_some_iff.mpr ⟨hlast, hi, lo, byte?_extend hhi more, byte?_extend hlo more, hw⟩

/--
**Whatever the segments are, the first that covers an address is read**, at an index that it has.

It is found in 32 bits, and if there is none, the address is not mapped. A word is the two bytes at its address
and at the next. What can be read stays when segments are added behind the others.
-/
theorem reads_first_segment (img : Image)
    (hsize : ∀ s ∈ img.segments, s.bytes.size < 2 ^ 32 - 2 ^ 16) (a : Address) :
    (∀ s ∈ img.segments,
        (s.contains a = true ↔ s.base.toUInt32 ≤ a.toUInt32 ∧ a.toUInt32 < s.stop32) ∧
          (s.contains a = true ↔ s.Covers a)) ∧
      (∀ s, img.FirstCovers a s →
        ∃ _ : (a - s.base).toNat < s.bytes.size, img.byte? a = some s.bytes[(a - s.base).toNat]) ∧
      (img.byte? a = none ↔ ∀ s ∈ img.segments, ¬ s.Covers a) ∧
      (img.maps a = true ↔ ∃ b, img.byte? a = some b) ∧
      (∀ w, img.word? a = some w ↔
        a < 0xFFFF ∧ ∃ hi lo, img.byte? a = some hi ∧ img.byte? (a + 1) = some lo ∧
          w.toNat = 256 * hi.toNat + lo.toNat) ∧
      ∀ more, (∀ b, img.byte? a = some b → (img.extend more).byte? a = some b) ∧
        ∀ w, img.word? a = some w → (img.extend more).word? a = some w := by
  refine ⟨fun s hs => ⟨Segment.contains_iff_stop32 (hsize s hs), Segment.contains_iff_covers⟩,
    fun s => byte?_of_firstCovers, byte?_eq_none_iff, maps_iff_exists_byte?,
    fun w => word?_eq_some_iff, fun more => ⟨fun b h => byte?_extend h more, fun w h => ?_⟩⟩
  exact word?_extend h more

/-- A word of two segments, behind an empty one and in front of one that covers it too, and one at the end. -/
theorem reads_first_segment_overlapping :
    ∃ img : Image, img.segments =
        [⟨"empty", 0x200, #[], .all⟩, ⟨"high", 0x201, #[0x34, 0x56], .all⟩,
          ⟨"low", 0x200, #[0x12, 0xFF, 0xFF], .all⟩, ⟨"end", 0xFFFF, #[0xAA, 0xBB], .all⟩] ∧
      (∀ s ∈ img.segments, s.bytes.size < 2 ^ 32 - 2 ^ 16) ∧
      img.word? 0x200 = some 0x1234 ∧
      (img.extend [⟨"more", 0x200, #[0x00, 0xE0], .all⟩]).word? 0x200 = some 0x1234 ∧
      img.byte? 0xFFFF = some 0xAA ∧ img.word? 0xFFFF ≠ some 0xAABB := by
  let img : Image :=
    ⟨[⟨"empty", 0x200, #[], .all⟩, ⟨"high", 0x201, #[0x34, 0x56], .all⟩,
      ⟨"low", 0x200, #[0x12, 0xFF, 0xFF], .all⟩, ⟨"end", 0xFFFF, #[0xAA, 0xBB], .all⟩], 0x200⟩
  have hsize : ∀ s ∈ img.segments, s.bytes.size < 2 ^ 32 - 2 ^ 16 := by simp [img]
  obtain ⟨-, -, -, -, hword, hmore⟩ := reads_first_segment img hsize 0x200
  obtain ⟨-, hfirst, -, -, hlast, -⟩ := reads_first_segment img hsize 0xFFFF
  have h0x200 := (hword 0x1234).mpr ⟨by decide, 0x12, 0x34, rfl, rfl, rfl⟩
  obtain ⟨_, hend⟩ := hfirst ⟨"end", 0xFFFF, #[0xAA, 0xBB], .all⟩
    ⟨[_, _, _], [], rfl, by simp [Segment.Covers], by simp [Segment.Covers]⟩
  exact ⟨img, rfl, hsize, h0x200, (hmore _).2 _ h0x200, hend,
    fun h => absurd ((hlast 0xAABB).mp h).1 (by decide)⟩

end Image

end Chip8
