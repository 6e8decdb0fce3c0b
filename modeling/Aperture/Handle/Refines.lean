import Aperture.Handle.Bench
import Aperture.Proofs.Handle.Arena
import Aperture.Proofs.Tag.Load

namespace Aperture

namespace Handle

/-- What a load has set in a handle, field by field, with the frames in its arena. -/
structure HasLoaded (h : Handle) (l : Loaded) : Prop where
  stage : h.stage = .loaded
  runs : h.runs = l.runs
  segments : h.segments = l.segments
  block : h.block = some l.block
  shape : h.shape = l.shape
  base : h.base = l.base
  owner : h.owner = l.owner
  length : h.length = l.length
  frames : h.arena.Holds l.frames
  wellFormed : l.frames.WellFormed

/-- The handle has the limits and the room of the mapping, and what the mapping has loaded. What the
arena held before, and the boundary of an earlier load, do not count. -/
structure Refines (h : Handle) (m : Mapping) : Prop where
  limits : h.limits = m.limits
  alignment : h.alignment = m.alignment
  blank : m.IsBlank
  room : h.arena.HasRoom m.frames.capacity
  maxCount : h.segments.rules.maxCount = m.segments.rules.maxCount
  maxLength : h.segments.rules.maxLength = m.segments.rules.maxLength
  idle : m.loaded = none → h.IsIdle
  loaded : ∀ l, m.loaded = some l → h.HasLoaded l

end Handle

namespace Bench

/-- The tag and the table of the session, and under each name a handle for its mapping. -/
structure Refines (b : Bench) (s : Session) : Prop where
  tag : b.tag = s.tag
  table : b.table = s.table
  handles : List.Forall₂ (fun x y => x.1 = y.1 ∧ x.2.Refines y.2) b.handles s.mappings

end Bench

end Aperture
