import Aperture.Gather.Pieces

namespace Aperture

namespace Stretch

/-- What comes before the next multiple of `unit` that is an address, or the whole stretch if no
such multiple comes first. -/
def firstPiece (unit : Nat) (s : Stretch) : Stretch :=
  let next := (s.start / unit + 1) * unit
  if unit = 0 ∨ 2 ^ 64 ≤ next then s else ⟨s.start, min s.length (next - s.start)⟩

/-- The stretches, none of them empty, follow one another from the first number up to the second. -/
def Tiles : Nat → Nat → List Stretch → Prop
  | start, stop, [] => start = stop
  | start, stop, s :: rest => s.start = start ∧ 0 < s.length ∧ Tiles s.stop stop rest

end Stretch

namespace SegmentRules

/-- The largest segment length never ends a segment: a boundary comes first, or there is none and
the length may be all that a word can tell. -/
def Roomy (rules : SegmentRules) : Prop :=
  (rules.boundary ≠ 0 ∧ rules.boundary ≤ rules.maxLength) ∨
    (rules.boundary = 0 ∧ rules.maxLength = 0xffffffffffffffff)

instance (rules : SegmentRules) : Decidable rules.Roomy :=
  inferInstanceAs (Decidable (_ ∨ _))

end SegmentRules

/-- Goes on after an append that is done; what a refused one leaves is left. -/
def GatherList.andThen (next : GatherList → Checked (GatherList × Option Refusal)) :
    GatherList × Option Refusal → Checked (GatherList × Option Refusal)
  | (g, none) => next g
  | (g, some reason) => .ok (g, some reason)

end Aperture
