import Aperture.Table.Basic

namespace Aperture

namespace Addr

variable {s : Space}

/-- The address lies in the page that is `i` pages after the one at `first`. -/
def OnPage (a first : Addr s) (i : Nat) : Prop :=
  first.word.toNat + i * pageSize ≤ a.word.toNat ∧
    a.word.toNat < first.word.toNat + (i + 1) * pageSize

instance (a first : Addr s) (i : Nat) : Decidable (a.OnPage first i) :=
  inferInstanceAs (Decidable (_ ∧ _))

/-- The address is the start of a page that an entry can point at, which has 36 bits. -/
def IsEncodable (a : PhysAddr) : Prop :=
  a.pageOffset = 0 ∧ a.word.toNat < 0x1000000000

instance (a : PhysAddr) : Decidable a.IsEncodable :=
  inferInstanceAs (Decidable (_ ∧ _))

end Addr

namespace Table

inductive Call where
  | make (c : TableCall)
  | scrub
deriving DecidableEq

/-- What a call writes at position `i` of a table for the aperture, which may be of any size. -/
def Call.writes? (aperture : BusAddr) (scribble : Entry) (i : Nat) : Call → Option Entry
  | make (.bind bus phys traits) =>
    if bus.OnPage aperture i ∧ phys.IsEncodable then some (.encode phys traits.coherent) else none
  | make (.unbind bus) => if bus.OnPage aperture i then some scribble else none
  | make .flush => none
  | scrub => some scribble

/-- What is at position `i` after some calls, when `e` was there before: what was written last. -/
def lastWritten (aperture : BusAddr) (scribble : Entry) (i : Nat) (e : Entry) (cs : List Call) :
    Entry :=
  (cs.filterMap (Call.writes? aperture scribble i)).getLastD e

def carryOut (t : Table) : Call → Table
  | .make c => t.apply c
  | .scrub => t.scrub

def runAll (t : Table) (cs : List Call) : Table :=
  cs.foldl carryOut t

end Table

end Aperture
