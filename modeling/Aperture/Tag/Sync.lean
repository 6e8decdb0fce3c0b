import Aperture.Phases
import Aperture.Tag.Basic

namespace Aperture

/-- The calls of a synchronisation, and what comes of it. -/
structure SyncPlan where
  calls : List CacheCall
  result : Except Declined Unit

namespace SyncPlan

def refuse (notice : Notice) : SyncPlan := ⟨[], .error ⟨.invalid, some notice⟩⟩

def nothing : SyncPlan := ⟨[], .ok ()⟩

/-- Flushes the pages from `a` on, one for each page of the payload in `[offset, stop)`. The step
past the last page has to stay inside the address space. -/
def linearFlushes (stop : Nat) (a : VirtAddr) (offset : Nat) : Checked (List CacheCall) :=
  if offset < stop then do
    let next ← a.plus pageSize
    let rest ← linearFlushes stop next (offset + pageSize)
    return .virtual ⟨a, .ofNat 64 pageSize⟩ :: rest
  else .ok []
termination_by stop - offset
decreasing_by
  unfold pageSize
  omega

/-- Flushes the pages of the runs that reach into `[start, stop)` of the payload, where the first
of them begins at `offset`; a page that was flushed just before is not flushed again. -/
def runFlushes (start stop : Nat) (offset : Word) (last : Option PhysAddr) :
    List (Run .phys) → Checked (List CacheCall)
  | [] => .ok []
  | r :: rest => do
    let next ← offset.plus r.length.toNat
    let page := r.addr.pageBase
    let inside := start < next.toNat ∧ offset.toNat < stop ∧ last ≠ some page
    let last := if start < next.toNat ∧ offset.toNat < stop then some page else last
    let calls : List CacheCall := if inside then [.page page] else []
    if stop ≤ next.toNat then return calls
    else return calls ++ (← runFlushes start stop next last rest)

def pageCeiling (w : Word) : Checked Word :=
  if w.toNat % pageSize = 0 then .ok w else w.plus (pageSize - w.toNat % pageSize)

/-- Flushes the pages that hold the bytes `[offset, offset + length)` of a payload with the base and
the runs. -/
def flushesOf (shape : Shape) (base : Option VirtAddr) (runs : List (Run .phys))
    (offset length : Word) : Checked SyncPlan := do
  let stop ← pageCeiling (← offset.plus length.toNat)
  let start := offset.clearLow (.ofNat 64 pageSize)
  match shape, base with
  | .linear, some base => do
    let first ← base.plus start.toNat
    let calls ← linearFlushes stop.toNat first start.toNat
    return ⟨.fence :: calls ++ [.fence], .ok ()⟩
  | .raw, _ => do
    let calls ← runFlushes start.toNat stop.toNat 0 none runs
    return ⟨.fence :: calls ++ [.fence], .ok ()⟩
  | shape, _ => return ⟨[.fence, .fence], .error ⟨.unsupported, some (.cannotFlush shape)⟩⟩

def flushes (l : Loaded) (offset length : Word) : Checked SyncPlan :=
  flushesOf l.shape l.base l.runs offset length

end SyncPlan

namespace Mapping

/-- What a synchronisation of `length` bytes at `offset` does with caches of the given line size. -/
def syncPlan (m : Mapping) (lineSize offset length : Word) (phases : Phases) : Checked SyncPlan :=
  if phases.isPre && phases.isPost then .ok (.refuse (.mixedPhases phases.describe))
  else match m.loaded with
    | none => .ok (.refuse (.badOffset offset 0))
    | some l =>
      if l.length ≤ offset then .ok (.refuse (.badOffset offset l.length))
      else if length = 0 ∨ l.length.toNat - offset.toNat < length.toNat then
        .ok (.refuse (.badSpan length offset))
      else if m.limits.traits.coherent then .ok .nothing
      else if ¬ phases.needsFlush then .ok .nothing
      else if lineSize = 0 then .ok ⟨[.all], .ok ()⟩
      else SyncPlan.flushes l offset length

end Mapping

/-- Makes the calls of a synchronisation, and tells what comes of it. -/
def Cache.follow (cache : Cache) (plan : SyncPlan) :
    Checked (Except Refusal Unit × List Event) := do
  let calls ← cache.perform plan.calls
  let events := calls.map Event.cache
  match plan.result with
  | .ok () => return (.ok (), events)
  | .error d => return (.error d.reason, events ++ d.notices.map .notice)

/-- Synchronises part of a loaded payload; without caches there is nothing to do. -/
def Tag.sync (t : Tag) (m : Mapping) (offset length : Word) (phases : Phases) :
    Checked (Except Refusal Unit × List Event) :=
  match t.cache with
  | none => .ok (.ok (), [])
  | some cache => do
    let plan ← m.syncPlan cache.lineSize offset length phases
    cache.follow plan

end Aperture
