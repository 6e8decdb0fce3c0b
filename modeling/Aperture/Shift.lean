import Aperture.Admission
import Aperture.Tag.Load

namespace Aperture

def Stretch.shift (k : Nat) (s : Stretch) : Stretch := ⟨s.start + k, s.length⟩

def SegmentRules.unbounded (rules : SegmentRules) : SegmentRules :=
  { rules with boundary := 0, isBoundary := .inl rfl }

/-- Where the runs that are not empty are when their frames lie side by side from zero on. -/
def Run.offsets (runs : List (Run .phys)) : List Stretch :=
  (runs.filter fun r => !r.isEmpty).map fun r =>
    ⟨(frames runs).idxOf r.addr.pageNo * pageSize + r.addr.pageOffset, r.length.toNat⟩

namespace Tag

/-- The segments of a payload in a mapping, apart from any block and any boundary. -/
def segmentsApart (t : Tag) (m : Mapping) (p : Payload) : List Stretch :=
  (t.rulesFor m).unbounded.segmentsOf (Run.offsets p.resolve.runs)

/-- The boundary need not cut anything in a block of `n` pages: there is none, or it is at least as
long as the block. -/
def Spares (t : Tag) (m : Mapping) (n : Nat) : Prop :=
  t.boundaryFor m = 0 ∨ n * pageSize ≤ (t.boundaryFor m).toNat

instance (t : Tag) (m : Mapping) (n : Nat) : Decidable (t.Spares m n) :=
  inferInstanceAs (Decidable (_ ∨ _))

/-- The block that a load of the payload is given, if the load comes that far. -/
def blockFor (t : Tag) (m : Mapping) (p : Payload) : Checked (Option Block) :=
  match p.length? with
  | none => .ok none
  | some length =>
    if length = 0 ∨ m.limits.maxSize < length then .ok none
    else match (t.memory.resolve p).failure with
      | some _ => .ok none
      | none => do
        match ← m.frames.record (t.memory.resolve p).runs with
        | .error _ => return none
        | .ok frames =>
          let size ← frames.byteSize
          match ← t.pool.reserve ⟨size, t.alignmentFor m, t.boundaryFor m, t.windowFor m⟩ with
          | .error _ => return none
          | .ok (block, _) => return some block

end Tag

end Aperture
