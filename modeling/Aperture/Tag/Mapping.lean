import Aperture.Gather.Basic
import Aperture.HostMemory
import Aperture.Traits

namespace Aperture

/-- Limits of a mapping, well-formed or not. -/
structure Limits where
  maxSize : Word
  maxSegments : Word
  maxLength : Word
  /-- A power of two that no segment crosses, or zero. -/
  boundary : Word
  traits : Traits

namespace Limits

/-- Some payload can be loaded under the limits. -/
def WellFormed (l : Limits) : Prop :=
  l.maxSize ≠ 0 ∧ l.maxSegments ≠ 0 ∧ l.maxLength ≠ 0 ∧ l.boundary.IsBoundary

instance (l : Limits) : Decidable l.WellFormed :=
  inferInstanceAs (Decidable (_ ∧ _ ∧ _ ∧ _))

def validate (l : Limits) : Except Refusal Unit :=
  if l.WellFormed then .ok () else .error .invalid

end Limits

structure Loaded where
  shape : Shape
  length : Word
  owner : Option Nat
  base : Option VirtAddr
  /-- The aperture space that the frames are bound in. -/
  block : Block
  frames : FrameSet
  /-- The payload as physical runs. -/
  runs : List (Run .phys)
  segments : GatherList

def Loaded.ofPayload (p : Payload) (length : Word) (block : Block) (frames : FrameSet)
    (runs : List (Run .phys)) (segments : GatherList) : Loaded where
  shape := p.shape
  length := length
  owner := p.space?.map (·.id)
  base := p.base?
  block := block
  frames := frames
  runs := runs
  segments := segments

structure Mapping where
  limits : Limits
  /-- The alignment asked for, a page to begin with. -/
  alignment : Word
  /-- An empty set of the capacity the mapping is made with. -/
  frames : FrameSet
  /-- An empty list under the limits the mapping is made with. -/
  segments : GatherList
  loaded : Option Loaded

namespace Mapping

/-- A mapping with nothing loaded, if the storage for it can be had. -/
def new (storage : Storage) (l : Limits) : Except Refusal Mapping := do
  l.validate
  HostMemory.checkStorage storage l.maxSize
  let segments ← GatherList.new storage l.maxSegments l.maxLength l.boundary
  let frames := FrameSet.ofCapacity (FrameSet.capacityFor l.maxSize)
  return ⟨l, .ofNat 64 pageSize, frames, segments, none⟩

def isLoaded (m : Mapping) : Bool := m.loaded.isSome

def length (m : Mapping) : Word := (m.loaded.map (·.length)).getD 0

/-- Asks for an alignment; one below a page changes nothing. -/
def setAlignment (m : Mapping) (alignment : Word) : Except Refusal Mapping :=
  if ¬ alignment.IsPowerOfTwo then .error .invalid
  else if alignment.toNat < pageSize then .ok m
  else .ok { m with alignment := alignment }

end Mapping

end Aperture
