import Aperture.Run

namespace Aperture

inductive CacheCall where
  | fence
  | virtual (r : Run .virt)
  | page (a : PhysAddr)
  | all
deriving DecidableEq

/-- A processor's caches; physical memory is reached through a linear map at `directMap`. -/
structure LineCache where
  directMap : VirtAddr

namespace LineCache

def lineSize : Nat := 64

/-- Cache lines that follow one another. -/
structure Lines where
  first : VirtAddr
  count : Nat

namespace Lines

def none : Lines := ⟨default, 0⟩

def toList (l : Lines) : List VirtAddr :=
  (List.range l.count).map fun i => ⟨.ofNat 64 (l.first.word.toNat + i * lineSize)⟩

end Lines

/-- The lines flushed for a virtual range: those that start before its end, from the one that holds
its first byte on. The step past the last of them has to stay inside the address space. -/
def flushVirtual (r : Run .virt) : Checked Lines :=
  if r.length = 0 then .ok .none
  else do
    let first ← r.addr.alignDown (.ofNat 64 lineSize)
    let stop ← r.stop
    let count := (stop.word.toNat - first.word.toNat + (lineSize - 1)) / lineSize
    let _ ← first.plus (count * lineSize)
    return ⟨first, count⟩

def flushPage (c : LineCache) (a : PhysAddr) : Checked Lines := do
  let start ← c.directMap.plus a.pageBase.word.toNat
  flushVirtual ⟨start, .ofNat 64 pageSize⟩

/-- The lines flushed by a call; a flush of everything names none. -/
def perform (c : LineCache) : CacheCall → Checked Lines
  | .virtual r => flushVirtual r
  | .page a => c.flushPage a
  | .fence | .all => .ok .none

end LineCache

/-- What stands behind the calls of a synchronisation. -/
inductive Cache where
  /-- Calls are written down; the line size is only told. -/
  | recorded (lineSize : Word)
  /-- Calls are carried out line by line. -/
  | lines (cache : LineCache)

namespace Cache

def lineSize : Cache → Word
  | recorded n => n
  | lines _ => .ofNat 64 LineCache.lineSize

/-- Carries out some calls, and gives back those that are written down. -/
def perform (c : Cache) (calls : List CacheCall) : Checked (List CacheCall) :=
  match c with
  | recorded _ => .ok calls
  | lines cache => do
    let _ ← calls.mapM cache.perform
    return []

end Cache

end Aperture
