import Aperture.Bytes
import Aperture.Layout
import Aperture.Session

namespace Aperture

/-- How many pages `n` bytes take up when they begin at the start of a page. -/
def pagesFor (n : Nat) : Nat := (n + (pageSize - 1)) / pageSize

namespace CacheCall

/-- The call flushes a virtual range or a page, and nothing else. -/
inductive IsFlush : CacheCall → Prop
  | virtual (r : Run .virt) : IsFlush (.virtual r)
  | page (a : PhysAddr) : IsFlush (.page a)

def bytes : CacheCall → List Nat
  | .virtual r => r.bytes
  | .fence | .page _ | .all => []

end CacheCall

namespace Run

variable {s : Space}

def totalLength (runs : List (Run s)) : Nat := (runs.map (·.length.toNat)).sum

/-- The run is one of those that follow one another in a payload, the first of them at `offset`,
and it reaches into `[start, stop)` of the payload. An empty run does so between two bytes. -/
def Reaches (start stop offset : Nat) (runs : List (Run s)) (r : Run s) : Prop :=
  ∃ before after, runs = before ++ r :: after ∧
    start < offset + totalLength before + r.length.toNat ∧ offset + totalLength before < stop

/-- Some byte of the run is in the page of `n`. -/
def SharesPage (r : Run s) (n : Nat) : Prop := ∃ b ∈ r.bytes, b / pageSize = n / pageSize

end Run

namespace SyncPlan

/-- Where the part begins that is flushed: whole pages are counted from the first byte of the
payload on, wherever that is. -/
def start (offset : Word) : Nat := offset.toNat / pageSize * pageSize

def stop (offset length : Word) : Nat := pagesFor (offset.toNat + length.toNat) * pageSize

end SyncPlan

/-- A synchronisation of the mapping flushes no more than pages: the device does not snoop, more has
happened than that it has read, and there are lines to flush. -/
structure Mapping.FlushesPages (m : Mapping) (lineSize : Word) (phases : Phases) : Prop where
  watched : m.limits.traits.coherent = false
  needed : phases.needsFlush = true
  lines : lineSize ≠ 0

/-- With caches of that line size, a synchronisation in the session is done and makes these calls,
unless carrying one of them out faults by itself. -/
def Session.SyncMakes (s : Session) (t : Tag) (name : String) (lineSize offset length : Word)
    (phases : Phases) (calls : List CacheCall) : Prop :=
  ∀ cache written, t.cache = some cache → cache.lineSize = lineSize →
    cache.perform calls = .ok written →
    ∃ d, s.step (.act name (.sync offset length phases)) = .ok d ∧ d.reply = .done ∧
      Event.cacheCalls d.events = written

namespace Payload

/-- The byte `i` of the payload is flushed by the calls, at its virtual address or with its frame.
-/
def ReachedBy (p : Payload) (calls : List CacheCall) (i : Nat) : Prop :=
  match p with
  | linear base _ _ => ∃ r, .virtual r ∈ calls ∧ base.word.toNat + i ∈ r.bytes
  | raw _ => ∃ bytes n, p.bytes? = some bytes ∧ bytes[i]? = some n ∧
      .page (frameAt n).base ∈ calls
  | chain .. | scatter .. => False

end Payload

end Aperture
