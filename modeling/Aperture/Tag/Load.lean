import Aperture.Tag.Basic

namespace Aperture

namespace FrameSet

def bound (s : FrameSet) : Checked (List (BusAddr × PhysAddr)) := do
  return (← s.pages).filterMap fun (phys, bus) => bus.map (·, phys)

def bindCalls (s : FrameSet) (traits : Traits) : Checked (List TableCall) := do
  return (← s.bound).map (fun (bus, phys) => .bind bus phys traits) ++ [.flush]

def unbindCalls (s : FrameSet) : Checked (List TableCall) := do
  return (← s.bound).map (fun (bus, _) => .unbind bus) ++ [.flush]

end FrameSet

namespace Tag

structure Outcome where
  tag : Tag
  mapping : Mapping
  result : Except Refusal Unit
  events : List Event

def declined (t : Tag) (m : Mapping) (d : Declined) : Outcome :=
  ⟨t, m, .error d.reason, d.notices.map .notice⟩

def unmap (t : Tag) (frames : FrameSet) (block : Block) : Checked (Tag × List Event) := do
  let calls ← frames.unbindCalls
  let events := calls.map Event.table
  match t.pool.release block with
  | .ok pool => return ({ t with pool := pool }, events)
  | .error _ => return (t, events ++ [.notice (.blockLost t.name block.size)])

/-- Binds frames in a block reserved for them and gathers the runs into segments. -/
def bindRuns (t : Tag) (m : Mapping) (p : Payload) (length : Word) (runs : List (Run .phys))
    (frames : FrameSet) (block : Block) : Checked Outcome := do
  let frames ← frames.assign (Addr.pageNo ⟨block.start⟩)
  let calls ← frames.bindCalls m.limits.traits
  let binds := calls.map Event.table
  let segments ← m.segments.reset (t.boundaryFor m)
  match ← segments.appendRuns frames runs with
  | .error d =>
    let (undone, unbinds) ← t.unmap frames block
    return ⟨undone, m, .error d.reason, binds ++ d.notices.map .notice ++ unbinds⟩
  | .ok segments =>
    let l : Loaded := .ofPayload p length block frames runs segments
    let note := Notice.loaded t.name p.describe segments.count
    return ⟨t, { m with loaded := some l }, .ok (), binds ++ [.notice note]⟩

def mapRuns (t : Tag) (m : Mapping) (p : Payload) (length : Word) (runs : List (Run .phys)) :
    Checked Outcome := do
  match ← m.frames.record runs with
  | .error d => return t.declined m d
  | .ok frames =>
    let size ← frames.byteSize
    let alignment := t.alignmentFor m
    let boundary := t.boundaryFor m
    match ← t.pool.reserve ⟨size, alignment, boundary, t.windowFor m⟩ with
    | .error reason =>
      return t.declined m ⟨reason, some (.noBlock t.name size alignment boundary)⟩
    | .ok (block, pool) => bindRuns { t with pool := pool } m p length runs frames block

/-- Loads a payload into a mapping that holds none. -/
def load (t : Tag) (m : Mapping) (p : Payload) : Checked Outcome :=
  if m.isLoaded then .error (.alreadyLoaded t.name)
  else match p.length? with
    | none => .ok (t.declined m ⟨.invalid, some (.lengthOverflows t.name)⟩)
    | some length =>
      if length = 0 ∨ m.limits.maxSize < length then
        .ok (t.declined m ⟨.invalid, some (.badLength t.name length m.limits.maxSize)⟩)
      else
        let resolution := t.memory.resolve p
        match resolution.failure with
        | some d => .ok (t.declined m d)
        | none => t.mapRuns m p length resolution.runs

def unload (t : Tag) (m : Mapping) : Checked (Tag × Mapping × List Event) :=
  match m.loaded with
  | none => .ok (t, m, [.notice (.notLoaded t.name)])
  | some l => do
    let (t, events) ← t.unmap l.frames l.block
    return (t, { m with loaded := none }, events)

def destroy (t : Tag) (m : Mapping) : Checked (Tag × List Event) :=
  if m.isLoaded then do
    let (t, _, events) ← t.unload m
    return (t, events)
  else .ok (t, [])

end Tag

end Aperture
