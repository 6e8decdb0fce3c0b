import Aperture.Pool.Basic
import Aperture.Resolver

namespace Aperture

/-- The storage for lists of runs and segments, and how payloads are resolved. -/
structure Host where
  storage : Storage
  resolver : Resolver

def Host.plain : Host := ⟨.ample, .direct⟩

structure HostMemory where
  /-- The physical memory that is handed out, if any. -/
  pool : Option Pool
  host : Host

namespace HostMemory

/-- Accepts a payload size whose runs can be stored, in the worst case one more than its pages. -/
def checkStorage (storage : Storage) (maxSize : Word) : Except Refusal Unit :=
  storage.ask ((maxSize.toNat + (pageSize - 1)) / pageSize + 1)

def resolve (m : HostMemory) (p : Payload) : Resolution :=
  m.host.resolver.resolve m.host.storage p

/-- Nothing is added to the payload's own resolution, and there is storage for all of it. -/
def Resolves (m : HostMemory) (p : Payload) : Prop := m.resolve p = p.resolve

instance (m : HostMemory) (p : Payload) : Decidable (m.Resolves p) :=
  inferInstanceAs (Decidable (_ = _))

/-- Hands out contiguous memory, in whole pages. -/
def alloc (m : HostMemory) (size alignment boundary : Word) :
    Checked (Except Declined (Run .phys × HostMemory)) :=
  match m.pool with
  | none => .ok (.error ⟨.outOfMemory, none⟩)
  | some pool => do
    let pages : Word := .ofNat 64 ((size.toNat + (pageSize - 1)) / pageSize)
    let size ← pages.times pageSize
    match ← pool.reserve ⟨size, alignment.larger 1, boundary, none⟩ with
    | .error .spaceExhausted => return .error ⟨.outOfMemory, some (.noMemory size)⟩
    | .error reason => return .error ⟨reason, none⟩
    | .ok (block, pool) => return .ok (⟨⟨block.start⟩, size⟩, { m with pool := some pool })

/-- Takes back memory exactly as it was handed out. -/
def free (m : HostMemory) (r : Run .phys) : Except Refusal HostMemory :=
  match m.pool with
  | none => .error .notFound
  | some pool =>
    match pool.release ⟨r.addr.word, r.length⟩ with
    | .error reason => .error reason
    | .ok pool => .ok { m with pool := some pool }

end HostMemory

end Aperture
