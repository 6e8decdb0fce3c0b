import Aperture.Frames.Touched

namespace Aperture

structure Arena where
  slots : Array FrameSlot
  /-- Positions of slots, sorted by the frames of the slots. -/
  order : Array Nat
  size : Nat
  base : Option (PageNo .bus)

namespace Arena

/-- The slots in use, in order of insertion. -/
def live (a : Arena) : List FrameSlot := a.slots.toList.take a.size

/-- Forgets what is recorded; what the arrays hold stays there. -/
def clear (a : Arena) : Arena := { a with size := 0, base := none }

/-- The frame at a place of the sorted order. -/
def frameAt? (a : Arena) (place : Nat) : Option FrameNo := do
  let slot ← a.slots[← a.order[place]?]?
  return slot.frame

def isBelow (a : Arena) (f : FrameNo) (place : Nat) : Bool :=
  (a.frameAt? place).any (·.word < f.word)

/-- The first place from `lo` on and before `hi` whose frame is not below `f`, by binary search. -/
def search (a : Arena) (f : FrameNo) (lo hi : Nat) : Nat :=
  if lo < hi then
    let middle := (lo + hi) / 2
    if a.isBelow f middle then a.search f (middle + 1) hi else a.search f lo middle
  else lo
termination_by hi - lo

/-- Where `f` is in the sorted order, or belongs. -/
def place (a : Arena) (f : FrameNo) : Nat := a.search f 0 a.size

def contains (a : Arena) (f : FrameNo) : Bool :=
  decide (a.place f < a.size) && a.frameAt? (a.place f) == some f

def before (a : Arena) (f : FrameNo) : List Nat := a.order.toList.take (a.place f)

def after (a : Arena) (f : FrameNo) : List Nat :=
  (a.order.toList.drop (a.place f)).take (a.size - a.place f)

/-- Fills the next slot, and moves the places from that of the frame on up by one. -/
def add (a : Arena) (f : FrameNo) : Arena where
  slots := a.slots.setIfInBounds a.size ⟨f, none⟩
  order := (a.before f ++ a.size :: (a.after f ++ a.order.toList.drop (a.size + 1))).toArray
  size := a.size + 1
  base := a.base

def insert (a : Arena) (f : FrameNo) : Except Refusal Arena :=
  if a.contains f then .ok a
  else if a.slots.size ≤ a.size then .error .tooManyFrames
  else .ok (a.add f)

/-- Records the frames of all runs that are not empty. -/
def record (a : Arena) (runs : List (Run .phys)) : Except Refusal Arena :=
  (Run.pageNos runs).foldlM insert a

/-- Gives the live slots consecutive pages from `page` on. -/
def assign (a : Arena) (page : PageNo .bus) : Checked Arena := do
  let live ← FrameSet.assignFrom page 0 a.live
  return { a with slots := (live ++ a.slots.toList.drop a.size).toArray, base := some page }

def byteSize (a : Arena) : Checked Word :=
  Word.times (.ofNat 64 a.size) pageSize

def find? (a : Arena) (f : FrameNo) : Option FrameSlot :=
  if a.contains f then do a.slots[← a.order[a.place f]?]? else none

end Arena

end Aperture
