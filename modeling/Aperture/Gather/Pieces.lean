import Aperture.Gather.Basic
import Mathlib.Algebra.Ring.Nat

namespace Aperture

/-- Bytes from `start` on, as numbers; unlike a run it may end at the top of the address space or
beyond. -/
structure Stretch where
  start : Nat
  length : Nat
deriving DecidableEq

namespace Stretch

def stop (s : Stretch) : Nat := s.start + s.length

def bytes (s : Stretch) : List Nat := List.range' s.start s.length

/-- A multiple of `unit` lies inside, after the first byte. -/
def Crosses (s : Stretch) (unit : Nat) : Prop := ∃ k, s.start < k * unit ∧ k * unit < s.stop

/-- Cut at each multiple of `unit`; nothing is cut when `unit` is zero. -/
def cut (unit : Nat) (s : Stretch) : List Stretch :=
  if s.length = 0 then []
  else if unit = 0 then [s]
  else
    let room := unit - s.start % unit
    if s.length ≤ room then [s]
    else ⟨s.start, room⟩ :: cut unit ⟨s.start + room, s.length - room⟩
termination_by s.length
decreasing_by
  have := Nat.mod_lt s.start (Nat.pos_of_ne_zero ‹unit ≠ 0›)
  omega

/-- Cut into parts of `size` bytes, with the rest at the end. -/
def chop (size : Nat) (hpos : 0 < size) (s : Stretch) : List Stretch :=
  if s.length = 0 then []
  else if s.length ≤ size then [s]
  else ⟨s.start, size⟩ :: chop size hpos ⟨s.start + size, s.length - size⟩
termination_by s.length
decreasing_by omega

end Stretch

def Run.stretch {s : Space} (r : Run s) : Stretch := ⟨r.addr.word.toNat, r.length.toNat⟩

namespace SegmentRules

/-- `last` and the piece after it may be one segment. -/
def Joins (rules : SegmentRules) (last piece : Stretch) : Prop :=
  last.stop = piece.start ∧
    (rules.boundary.toNat = 0 ∨
      last.start / rules.boundary.toNat = piece.start / rules.boundary.toNat) ∧
    last.length + piece.length ≤ rules.maxLength.toNat

instance (rules : SegmentRules) (last piece : Stretch) : Decidable (rules.Joins last piece) :=
  inferInstanceAs (Decidable (_ ∧ _ ∧ _))

/-- The segments, newest first, after a piece that crosses no boundary. -/
def addPiece (rules : SegmentRules) (built : List Stretch) (piece : Stretch) : List Stretch :=
  let opened := (piece.chop rules.maxLength.toNat rules.maxLength_pos).reverse
  match built with
  | [] => opened
  | last :: older =>
    if rules.Joins last piece then ⟨last.start, last.length + piece.length⟩ :: older
    else opened ++ last :: older

def addRange (rules : SegmentRules) (built : List Stretch) (range : Stretch) : List Stretch :=
  (range.cut rules.boundary.toNat).foldl rules.addPiece built

/-- The segments of some ranges, in order, however many they are. -/
def segmentsOf (rules : SegmentRules) (ranges : List Stretch) : List Stretch :=
  (ranges.foldl rules.addRange []).reverse

/-- Some range ends with the last byte of the address space, and the segments up to there are not
too many. -/
def Overruns (rules : SegmentRules) (ranges : List Stretch) : Prop :=
  ∃ before r after, ranges = before ++ r :: after ∧ r.stop = 2 ^ 64 ∧
    (rules.segmentsOf (before ++ [r])).length ≤ rules.maxCount.toNat

end SegmentRules

end Aperture
