import Aperture.Payload.Resolve
import Std.Data.TreeMap

namespace Aperture

structure FrameSlot where
  frame : FrameNo
  page : Option (PageNo .bus)
deriving DecidableEq

structure FrameSet where
  /-- How many distinct frames can be recorded. -/
  capacity : Nat
  /-- In the order of first insertion. -/
  slots : Array FrameSlot
  /-- Where the slot of a frame is, by the number of the frame. -/
  slotOf : Std.TreeMap Word Nat
  base : Option (PageNo .bus)

namespace FrameSet

/-- Slots beyond the pages of the largest payload, for payloads in pieces that straddle pages. -/
def slack : Nat := 4

def minCapacity : Nat := 16

def ofCapacity (capacity : Nat) : FrameSet := ⟨capacity, #[], ∅, none⟩

def capacityFor (maxSize : Word) : Nat :=
  max ((maxSize.toNat + (pageSize - 1)) / pageSize + slack) minCapacity

def size (s : FrameSet) : Nat := s.slots.size

def isEmpty (s : FrameSet) : Bool := s.size == 0

def isBound (s : FrameSet) : Bool := s.base.isSome

def byteSize (s : FrameSet) : Checked Word :=
  Word.times (.ofNat 64 s.size) pageSize

def clear (s : FrameSet) : FrameSet := ofCapacity s.capacity

def find? (s : FrameSet) (frame : FrameNo) : Option FrameSlot := do
  s.slots[← s.slotOf[frame.word]?]?

def contains (s : FrameSet) (a : PhysAddr) : Bool :=
  (s.find? a.pageNo).isSome

def add (s : FrameSet) (frame : FrameNo) : FrameSet :=
  let slotOf := s.slotOf.insert frame.word s.size
  { s with slots := s.slots.push ⟨frame, none⟩, slotOf := slotOf }

/-- Records the frame that holds `a`; a frame recorded before changes nothing. -/
@[inline] def insert (s : FrameSet) (a : PhysAddr) : Except Refusal FrameSet :=
  if s.contains a then .ok s
  else if s.capacity ≤ s.size then .error .tooManyFrames
  else .ok (s.add a.pageNo)

def assignFrom (page : PageNo .bus) (i : Nat) : List FrameSlot → Checked (List FrameSlot)
  | [] => .ok []
  | slot :: rest => do
    let own ← page.plus i
    let assigned ← assignFrom page (i + 1) rest
    return { slot with page := some own } :: assigned

/-- Gives the recorded frames consecutive pages from `page` on, in order of insertion. -/
def assign (s : FrameSet) (page : PageNo .bus) : Checked FrameSet := do
  let slots ← assignFrom page 0 s.slots.toList
  return { s with slots := slots.toArray, base := some page }

def busAddr? (s : FrameSet) (a : PhysAddr) : Checked (Option BusAddr) :=
  match (s.find? a.pageNo).bind (·.page) with
  | none => .ok none
  | some page => do
    let start ← page.start
    let bus ← start.plus a.pageOffset
    return some bus

/-- The recorded frames' starts and the starts of their pages, in order of insertion. -/
def pages (s : FrameSet) : Checked (List (PhysAddr × Option BusAddr)) :=
  s.slots.toList.mapM fun slot => do
    let phys ← slot.frame.start
    match slot.page with
    | none => return (phys, none)
    | some page => return (phys, some (← page.start))

/-- Records the frames of all runs that are not empty. -/
def record (s : FrameSet) : List (Run .phys) → Checked (Except Declined FrameSet)
  | [] => .ok (.ok s)
  | r :: rest =>
    if r.isEmpty then s.record rest
    else do
      let reach ← r.length.plus r.addr.pageOffset
      if pageSize < reach.toNat then
        throw (.runCrossesPage r.length.toNat r.addr.word.toNat)
      match s.insert r.addr with
      | .error reason =>
        return .error ⟨reason, some (.recordFull r.addr.pageBase s.capacity)⟩
      | .ok grown => grown.record rest

end FrameSet

end Aperture
