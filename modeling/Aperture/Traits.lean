namespace Aperture

structure Traits where
  /-- The device sees what the processor's caches hold. -/
  coherent : Bool := false
  /-- The block lies within the first 24 bits of the bus. -/
  low : Bool := false
deriving DecidableEq

namespace Traits

/-- Bit 0 is `coherent` and bit 1 is `low`; other bits are dropped. -/
def ofBits (n : Nat) : Traits :=
  { coherent := n.testBit 0, low := n.testBit 1 }

def toBits (t : Traits) : Nat :=
  t.coherent.toNat + 2 * t.low.toNat

def union (t u : Traits) : Traits :=
  { coherent := t.coherent || u.coherent, low := t.low || u.low }

def contains (t u : Traits) : Bool :=
  (!u.coherent || t.coherent) && (!u.low || t.low)

def describe (t : Traits) : String :=
  "MapFlags(" ++ toString t.toBits ++ ")"

end Traits

end Aperture
