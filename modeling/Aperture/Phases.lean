namespace Aperture

structure Phases where
  preRead : Bool := false
  preWrite : Bool := false
  postRead : Bool := false
  postWrite : Bool := false
deriving DecidableEq

namespace Phases

def empty : Phases := {}

def union (p q : Phases) : Phases where
  preRead := p.preRead || q.preRead
  preWrite := p.preWrite || q.preWrite
  postRead := p.postRead || q.postRead
  postWrite := p.postWrite || q.postWrite

def intersects (p q : Phases) : Bool :=
  (p.preRead && q.preRead) || (p.preWrite && q.preWrite) ||
    (p.postRead && q.postRead) || (p.postWrite && q.postWrite)

def isPre (p : Phases) : Bool := p.preRead || p.preWrite

def isPost (p : Phases) : Bool := p.postRead || p.postWrite

/-- Caches have to be flushed: always, unless all that happened is that the device has read. -/
def needsFlush (p : Phases) : Bool := p.preRead || p.preWrite || p.postRead

def toBits (p : Phases) : Nat :=
  p.preRead.toNat + 2 * p.preWrite.toNat + 4 * p.postRead.toNat + 8 * p.postWrite.toNat

def describe (p : Phases) : String :=
  "SyncOps(" ++ toString p.toBits ++ ")"

end Phases

end Aperture
