import Aperture.Notice
import Aperture.Table.Call
import Aperture.Table.Entry

namespace Aperture

structure Table where
  /-- The bus address of the page that entry 0 is for. -/
  aperture : BusAddr
  /-- The entry of pages that are not in use. -/
  scribble : Entry
  entries : Array Entry
  /-- The position written last, which a flush reads back. -/
  latest : Nat

namespace Table

/-- A table over the given entries, which are left as they are. -/
def new (aperture : BusAddr) (scribblePage : PhysAddr) (entries : Array Entry) :
    Except Declined Table :=
  if aperture.pageOffset ≠ 0 then .error ⟨.invalid, none⟩
  else match Entry.ofPage? scribblePage false with
    | none => .error ⟨.invalid, some (.badScribble scribblePage)⟩
    | some scribble => .ok ⟨aperture, scribble, entries, 0⟩

def byteSize (t : Table) : Checked Word :=
  Word.times (.ofNat 64 t.entries.size) pageSize

/-- The position of the entry for `bus`, if it lies in the aperture. -/
def position? (t : Table) (bus : BusAddr) : Option Nat :=
  if bus.word < t.aperture.word then none
  else
    let i := (bus.word.toNat - t.aperture.word.toNat) / pageSize
    if i < t.entries.size then some i else none

/-- There is an entry for the page that starts at `bus`. -/
structure Covers (t : Table) (bus : BusAddr) : Prop where
  aligned : bus.pageOffset = 0
  above : t.aperture.word.toNat ≤ bus.word.toNat
  below : bus.word.toNat < t.aperture.word.toNat + t.entries.size * pageSize

def entryAt? (t : Table) (bus : BusAddr) : Option Entry := do
  t.entries[← t.position? bus]?

def write (t : Table) (i : Nat) (e : Entry) : Table :=
  { t with entries := t.entries.setIfInBounds i e, latest := i }

/-- Points every entry at the scribble page. -/
def scrub (t : Table) : Table :=
  (List.range t.entries.size).foldl (fun t i => t.write i t.scribble) t

def readBack? (t : Table) : Option Entry := t.entries[t.latest]?

/-- The position that a call writes and what it writes there; a call that cannot be honoured, and a
flush, write nothing. -/
def effect? (t : Table) : TableCall → Option (Nat × Entry)
  | .bind bus phys traits => do
    let i ← t.position? bus
    let e ← Entry.ofPage? phys traits.coherent
    return (i, e)
  | .unbind bus => (t.position? bus).map (·, t.scribble)
  | .flush => none

def apply (t : Table) (c : TableCall) : Table :=
  match t.effect? c with
  | some (i, e) => t.write i e
  | none => t

/-- What is noted about a call that cannot be honoured. -/
def complaint? (t : Table) : TableCall → Option Notice
  | .bind bus phys traits =>
    match t.position? bus, Entry.ofPage? phys traits.coherent with
    | none, _ => some (.bindOutside bus phys)
    | some _, none => some (.bindNotEncoded bus phys)
    | some _, some _ => none
  | .unbind bus => if (t.position? bus).isNone then some (.unbindOutside bus) else none
  | .flush => none

theorem position?_write (t : Table) (i : Nat) (e : Entry) (bus : BusAddr) :
    (t.write i e).position? bus = t.position? bus := by
  simp [position?, write]

end Table

end Aperture
