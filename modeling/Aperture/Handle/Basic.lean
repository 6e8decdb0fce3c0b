import Aperture.Frames.History
import Aperture.Tag.Basic

namespace Aperture

inductive Stage where
  /-- Without a payload, a block or anything bound. -/
  | created
  | loaded
deriving DecidableEq

/-- A mapping as memory has it: one record whose fields are set by a load, one after the other, and
cleared again. -/
structure Handle where
  limits : Limits
  alignment : Word
  stage : Stage
  /-- Allocated once, and never wiped. -/
  arena : Arena
  runs : List (Run .phys)
  segments : GatherList
  /-- The aperture space that is held. -/
  block : Option Block
  shape : Shape
  base : Option VirtAddr
  owner : Option Nat
  length : Word

namespace Handle

/-- A handle for payloads under the limits, with a list that is to hold their runs. -/
def ofLimits (storage : Storage) (l : Limits) (runs : List (Run .phys)) :
    Except Refusal Handle := do
  l.validate
  let segments ← GatherList.new storage l.maxSegments l.maxLength l.boundary
  return {
    limits := l
    alignment := .ofNat 64 pageSize
    stage := .created
    arena := .ofCapacity (FrameSet.capacityFor l.maxSize)
    runs := runs
    segments := segments
    block := none
    shape := .unbound
    base := none
    owner := none
    length := 0 }

/-- The limits are validated before any storage is asked for, and again with it. -/
def new (storage : Storage) (l : Limits) : Except Refusal Handle := do
  l.validate
  HostMemory.checkStorage storage l.maxSize
  ofLimits storage l []

def isLoaded (h : Handle) : Bool := h.stage == .loaded

/-- Forgets what a load has left. What is bound, and the block, are to be given back before. -/
def reset (h : Handle) : Handle :=
  { h with
    arena := h.arena.clear
    runs := []
    segments := h.segments.clear
    block := none
    shape := .unbound
    base := none
    owner := none
    length := 0
    stage := .created }

/-- Asks for an alignment; one below a page changes nothing. -/
def setAlignment (h : Handle) (alignment : Word) : Except Refusal Handle :=
  if ¬ alignment.IsPowerOfTwo then .error .invalid
  else if alignment.toNat < pageSize then .ok h
  else .ok { h with alignment := alignment }

/-- What is noted when a handle is dropped: a block that it holds is lost. -/
def dropped (h : Handle) : List Event :=
  match h.block with
  | none => []
  | some block => [.notice (.dropped block.size block.start)]

/-- Nothing of a payload is there to be seen. The boundary for segments is left over from the last
load that came that far. -/
structure IsIdle (h : Handle) : Prop where
  stage : h.stage = .created
  runs : h.runs = []
  segments : h.segments.newestFirst = []
  block : h.block = none
  shape : h.shape = .unbound
  base : h.base = none
  owner : h.owner = none
  length : h.length = 0
  size : h.arena.size = 0
  unbound : h.arena.base = none

/-- The handle is as `h` is, to all who look at it or load it again. What is left over in the arena,
and the boundary for segments, are not to be seen: a load clears the one and sets the other. -/
structure LooksAs (h' h : Handle) : Prop where
  limits : h'.limits = h.limits
  alignment : h'.alignment = h.alignment
  stage : h'.stage = h.stage
  capacity : h'.arena.slots.size = h.arena.slots.size
  live : h'.arena.live = h.arena.live
  find : ∀ f, h'.arena.find? f = h.arena.find? f
  bound : h'.arena.base = h.arena.base
  runs : h'.runs = h.runs
  segments : h'.segments.segments = h.segments.segments
  maxCount : h'.segments.rules.maxCount = h.segments.rules.maxCount
  maxLength : h'.segments.rules.maxLength = h.segments.rules.maxLength
  block : h'.block = h.block
  shape : h'.shape = h.shape
  base : h'.base = h.base
  owner : h'.owner = h.owner
  length : h'.length = h.length

end Handle

end Aperture
