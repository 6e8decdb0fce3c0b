import Aperture.Bytes
import Aperture.Gather.Pieces
import Aperture.Layout
import Aperture.Tag.Basic

namespace Aperture

namespace Run

/-- The bytes go on past the last address of the space. -/
def Wraps {s : Space} (r : Run s) : Prop := 2 ^ 64 < r.stretch.stop

/-- The run holds an address of a page that is not mapped, or wraps. -/
def IsUnbacked (r : Run .virt) (v : VirtSpace) : Prop :=
  r.Wraps ∨ ∃ a : VirtAddr, a.word.toNat ∈ r.bytes ∧ v.lookup a.pageBase = none

end Run

namespace Payload

/-- The number of bytes, whether or not it fits in a word. -/
def size : Payload → Nat
  | linear _ length _ => length.toNat
  | chain pieces _ | scatter pieces _ => (pieces.map (·.length.toNat)).sum
  | raw runs => (runs.map (·.length.toNat)).sum

/-- The length is zero, above the limit, or not a word. -/
def BadLength (p : Payload) (limit : Word) : Prop :=
  p.size = 0 ∨ limit.toNat < p.size ∨ 2 ^ 64 ≤ p.size

/-- A scatter list that the kernel's space does not hold. -/
def IsForeign : Payload → Prop
  | scatter _ space => space.isKernel = false
  | _ => False

/-- Some piece that is not empty has a page that is not mapped, or wraps. -/
def IsUnbacked : Payload → Prop
  | linear base length space => Run.IsUnbacked ⟨base, length⟩ space
  | chain pieces space | scatter pieces space => ∃ r ∈ pieces, r.IsUnbacked space
  | raw runs => ∃ r ∈ runs, r.Wraps

end Payload

/-- The mapping can hold the payload, wherever it is put in the aperture. -/
structure Mapping.Admits (m : Mapping) (p : Payload) : Prop where
  length : ¬ p.BadLength m.limits.maxSize
  reach : ¬ p.IsForeign
  backed : ¬ p.IsUnbacked
  few : p.frames.length ≤ m.frames.capacity

/-- Where the runs that are not empty are on the bus when their frames have the pages of the
block. -/
def Block.stretches (b : Block) (runs : List (Run .phys)) : List Stretch :=
  (b.ranges (Run.frames runs) runs).map Run.stretch

/-- The bus addresses of the bytes of the runs, in order, however the runs are cut. -/
def Block.busBytes (b : Block) (runs : List (Run .phys)) : List Nat :=
  (b.stretches runs).flatMap Stretch.bytes

/-- The boundary for the loads of a mapping, when an allocation was recorded. -/
def Recorded.boundaryFor (r : Recorded) (m : Mapping) : Word :=
  if r.boundary = 0 then m.limits.boundary else r.boundary

/-- The block and the segments keep the limits of the mapping and what was recorded. -/
structure Loaded.Keeps (l : Loaded) (m : Mapping) (r : Recorded) : Prop where
  aligned : max (max r.alignment.toNat m.alignment.toNat) pageSize ∣ l.block.start.toNat
  /-- A block larger than the boundary may cross it. -/
  uncrossed : r.boundaryFor m ≠ 0 → l.block.size ≤ r.boundaryFor m →
    ¬ (⟨l.block.start.toNat, l.block.size.toNat⟩ : Stretch).Crosses (r.boundaryFor m).toNat
  low : m.limits.traits.low → ∃ last, l.block.last = .ok last ∧ last ≤ Tag.lowWindowEnd
  few : l.segments.segments.length ≤ m.limits.maxSegments.toNat
  short : ∀ s ∈ l.segments.segments,
    0 < s.length.toNat ∧ s.length.toNat ≤ m.limits.maxLength.toNat
  /-- Segments never cross the boundary, even where the block does. -/
  cut : r.boundaryFor m ≠ 0 → ∀ s ∈ l.segments.segments,
    ¬ s.stretch.Crosses (r.boundaryFor m).toNat

namespace Tag

/-- The aperture has room for a block of `n` pages at `start` that keeps all limits. -/
structure Offers (t : Tag) (m : Mapping) (n : Nat) (start : Word) : Prop where
  aligned : max (max t.recorded.alignment.toNat m.alignment.toNat) pageSize ∣ start.toNat
  above : t.pool.first.toNat ≤ start.toNat
  below : start.toNat + n * pageSize ≤ t.pool.last.toNat + 1
  low : m.limits.traits.low → start.toNat + n * pageSize ≤ lowWindowEnd.toNat + 1
  free : ∀ b ∈ t.pool.blocks,
    start.toNat + n * pageSize ≤ b.start.toNat ∨ b.stop ≤ start.toNat
  uncrossed : t.boundaryFor m ≠ 0 → n * pageSize ≤ (t.boundaryFor m).toNat →
    ¬ (⟨start.toNat, n * pageSize⟩ : Stretch).Crosses (t.boundaryFor m).toNat

/-- The block of `n` pages is the first there is room for. -/
structure FirstOffer (t : Tag) (m : Mapping) (n : Nat) (b : Block) : Prop where
  size : b.size.toNat = n * pageSize
  offered : t.Offers m n b.start
  least : ∀ start, t.Offers m n start → b.start.toNat ≤ start.toNat

def rulesFor (t : Tag) (m : Mapping) : SegmentRules :=
  if h : (t.boundaryFor m).IsBoundary then
    { m.segments.rules with boundary := t.boundaryFor m, isBoundary := h }
  else m.segments.rules

/-- The segments that the merge rule makes of a payload in the block. -/
def segmentsIn (t : Tag) (m : Mapping) (p : Payload) (b : Block) : List Stretch :=
  (t.rulesFor m).segmentsOf (b.stretches (t.memory.resolve p).runs)

open Classical in
/-- What a load should come to, in the order in which its reasons to refuse take precedence. -/
noncomputable def verdict (t : Tag) (m : Mapping) (p : Payload) : Except Refusal Unit :=
  if p.BadLength m.limits.maxSize then .error .invalid
  else if p.IsForeign then .error .unsupported
  else if p.IsUnbacked then .error .invalid
  else if m.frames.capacity < p.frames.length then .error .tooManyFrames
  else if ¬ ∃ start, t.Offers m p.frames.length start then .error .spaceExhausted
  else if ∃ b, t.FirstOffer m p.frames.length b ∧
      m.limits.maxSegments.toNat < (t.segmentsIn m p b).length then .error .tooManySegments
  else .ok ()

end Tag

end Aperture
