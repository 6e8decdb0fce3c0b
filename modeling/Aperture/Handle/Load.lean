import Aperture.Handle.Basic

namespace Aperture

namespace Arena

/-- The frames that have a page, as pairs of the page's and the frame's start. -/
def bound (a : Arena) : Checked (List (BusAddr × PhysAddr)) := do
  return (← a.pages).filterMap fun (phys, bus) => bus.map (·, phys)

def bindCalls (a : Arena) (traits : Traits) : Checked (List TableCall) := do
  return (← a.bound).map (fun (bus, phys) => .bind bus phys traits) ++ [.flush]

def unbindCalls (a : Arena) : Checked (List TableCall) := do
  return (← a.bound).map (fun (bus, _) => .unbind bus) ++ [.flush]

/-- Records the frames of the runs that are not empty, up to the first that there is no room for. -/
def recordRuns (a : Arena) : List (Run .phys) → Checked (Arena × Option Declined)
  | [] => .ok (a, none)
  | r :: rest =>
    if r.isEmpty then a.recordRuns rest
    else do
      let reach ← r.length.plus r.addr.pageOffset
      if pageSize < reach.toNat then
        throw (.runCrossesPage r.length.toNat r.addr.word.toNat)
      match a.insert r.addr.pageNo with
      | .error reason =>
        return (a, some ⟨reason, some (.recordFull r.addr.pageBase a.slots.size)⟩)
      | .ok grown => grown.recordRuns rest

end Arena

/-- Appends the bus ranges of the runs that are not empty, up to the first that cannot be. What was
appended before stays. -/
def GatherList.gather (g : GatherList) (a : Arena) :
    List (Run .phys) → Checked (GatherList × Option Declined)
  | [] => .ok (g, none)
  | r :: rest =>
    if r.isEmpty then g.gather a rest
    else do
      match ← a.busAddr? r.addr with
      | none => return (g, some ⟨.invalid, some (.neverBound r.addr)⟩)
      | some bus =>
        match ← g.append ⟨bus, r.length⟩ with
        | (grown, some reason) => return (grown, some ⟨reason, none⟩)
        | (grown, none) => grown.gather a rest

/-- An operation on a handle under way: the tag, the handle and what was done so far. -/
structure Work where
  tag : Tag
  handle : Handle
  events : List Event

namespace Work

def note (k : Work) (notices : List Notice) : Work :=
  { k with events := k.events ++ notices.map .notice }

def call (k : Work) (calls : List TableCall) : Work :=
  { k with events := k.events ++ calls.map .table }

def setHandle (k : Work) (h : Handle) : Work := { k with handle := h }

def clearArena (k : Work) : Work := k.setHandle { k.handle with arena := k.handle.arena.clear }

def clearRuns (k : Work) : Work := k.setHandle { k.handle with runs := [] }

def boundary (k : Work) : Word :=
  if k.tag.recorded.boundary = 0 then k.handle.limits.boundary else k.tag.recorded.boundary

def alignment (k : Work) : Word :=
  (k.tag.recorded.alignment.larger k.handle.alignment).larger (.ofNat 64 pageSize)

def window (k : Work) : Option (Word × Word) :=
  if k.handle.limits.traits.low then some (k.tag.pool.first, Tag.lowWindowEnd) else none

def release (k : Work) (block : Block) : Work :=
  match k.tag.pool.release block with
  | .ok pool => { k with tag := { k.tag with pool := pool } }
  | .error _ => k.note [.blockLost k.tag.name block.size]

/-- Unbinds what is recorded, gives back the block if there is one, and drops the segments. -/
def unmap (k : Work) : Checked Work := do
  let calls ← k.handle.arena.unbindCalls
  let k := (k.call calls).clearArena
  let k := match k.handle.block with
    | none => k
    | some block => (k.setHandle { k.handle with block := none }).release block
  return k.setHandle { k.handle with segments := k.handle.segments.clear }

/-- Appends the runs of the payload to those that the handle holds, and tells what went wrong. -/
def resolve (k : Work) (p : Payload) : Work × Option Declined :=
  let host := k.tag.memory.host
  let found := host.resolver.resolveOnto host.storage k.handle.runs p
  (k.setHandle { k.handle with runs := found.runs }, found.failure)

def record (k : Work) : Checked (Work × Option Declined) := do
  let (arena, declined) ← k.handle.arena.recordRuns k.handle.runs
  return (k.setHandle { k.handle with arena := arena }, declined)

/-- Gives what is recorded the pages of a block, and binds these. -/
def bind (k : Work) (block : Block) : Checked Work := do
  let arena ← k.handle.arena.assign (Addr.pageNo ⟨block.start⟩)
  let calls ← arena.bindCalls k.handle.limits.traits
  return (k.setHandle { k.handle with arena := arena, block := some block }).call calls

def gather (k : Work) (boundary : Word) : Checked (Work × Option Declined) := do
  let empty ← k.handle.segments.reset boundary
  let (segments, declined) ← empty.gather k.handle.arena k.handle.runs
  return (k.setHandle { k.handle with segments := segments }, declined)

/-- Binds what is recorded in a block that was reserved for it, and gathers the runs into segments.
When these run out, the handle is unmapped again. -/
def bindRuns (k : Work) (block : Block) (boundary : Word) :
    Checked (Work × Except Refusal Unit) := do
  let k ← k.bind block
  match ← k.gather boundary with
  | (k, some d) => return (← (k.note d.notices).unmap, .error d.reason)
  | (k, none) => return (k, .ok ())

/-- Records the handle's runs and maps them in a block of aperture. A record that is full, or that
there is no block for, is cleared. -/
def mapRuns (k : Work) : Checked (Work × Except Refusal Unit) := do
  match ← k.clearArena.record with
  | (k, some d) => return ((k.note d.notices).clearArena, .error d.reason)
  | (k, none) =>
    let boundary := k.boundary
    let alignment := k.alignment
    let size ← k.handle.arena.byteSize
    match ← k.tag.pool.reserve ⟨size, alignment, boundary, k.window⟩ with
    | .error reason =>
      let k := k.note [.noBlock k.tag.name size alignment boundary]
      return (k.clearArena, .error reason)
    | .ok (block, pool) => bindRuns { k with tag := { k.tag with pool := pool } } block boundary

/-- Says what is loaded, in the fields that tell of the payload. -/
def settle (k : Work) (p : Payload) (length : Word) : Work :=
  k.setHandle { k.handle with
    shape := p.shape
    owner := p.space?.map (·.id)
    base := p.base?
    length := length
    stage := .loaded }

/-- Loads a payload into a handle that is not loaded. When resolving it or mapping its runs fails,
the runs are cleared. -/
def load (k : Work) (p : Payload) : Checked (Work × Except Refusal Unit) :=
  if k.handle.isLoaded then .error (.alreadyLoaded k.tag.name)
  else match p.length? with
    | none => .ok (k.note [.lengthOverflows k.tag.name], .error .invalid)
    | some length =>
      if length = 0 ∨ k.handle.limits.maxSize < length then
        .ok (k.note [.badLength k.tag.name length k.handle.limits.maxSize], .error .invalid)
      else do
        let (k, result) ← match k.resolve p with
          | (k, some d) => Except.ok (k.note d.notices, .error d.reason)
          | (k, none) => k.mapRuns
        match result with
        | .error reason => return (k.clearRuns, .error reason)
        | .ok () =>
          let k := k.settle p length
          return (k.note [.loaded k.tag.name p.describe k.handle.segments.count], .ok ())

def unload (k : Work) : Checked Work :=
  if k.handle.isLoaded then do
    let k ← k.unmap
    return k.setHandle k.clearRuns.handle.reset
  else .ok (k.note [.notLoaded k.tag.name])

/-- Ends a handle, which is unloaded first if it holds a payload; what is left of it is dropped. -/
def destroy (k : Work) : Checked (Tag × List Event) := do
  let k ← if k.handle.isLoaded then k.unload else Except.ok k
  return (k.tag, k.events ++ k.clearRuns.handle.dropped)

end Work

end Aperture
