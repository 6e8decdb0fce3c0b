import Aperture.Run

namespace Aperture

structure Entry where
  bits : BitVec 32
deriving DecidableEq

namespace Entry

/-- Pages below 2 to this power can be encoded. -/
def addressBits : Nat := 36

def validBit : BitVec 32 := 1

/-- Both bits are set for snooped accesses. -/
def cacheMask : BitVec 32 := 0b11 <<< 1

/-- The bits 32 to 35 of an address. -/
def highMask : BitVec 32 := 0xf0

/-- The bits 12 to 31 of an address, which keep their places. -/
def lowMask : BitVec 32 := 0xfffff000

def encode (a : PhysAddr) (coherent : Bool) : Entry :=
  let low := a.word.setWidth 32 &&& lowMask
  let high := (a.word >>> 28).setWidth 32 &&& highMask
  let cache := if coherent then cacheMask else 0
  ⟨low ||| high ||| cache ||| validBit⟩

/-- The entry of `a`, which has to be the start of a page that can be encoded. -/
def ofPage? (a : PhysAddr) (coherent : Bool) : Option Entry :=
  if a.pageOffset = 0 ∧ a.word >>> addressBits = 0 then some (encode a coherent) else none

def isValid (e : Entry) : Bool := e.bits &&& validBit != 0

def isSnooped (e : Entry) : Bool := e.bits &&& cacheMask == cacheMask

/-- The word is an entry as the table has them: the valid bit is set, both cache bits are set or
neither is, and the reserved bits 3 and 8 to 11 are zero. -/
structure InFormat (e : Entry) : Prop where
  valid : e.bits.extractLsb' 0 1 = 1
  cache : e.bits.extractLsb' 1 2 = 0 ∨ e.bits.extractLsb' 1 2 = 3
  reserved : e.bits.extractLsb' 3 1 = 0 ∧ e.bits.extractLsb' 8 4 = 0

/-- The page that a valid entry points at. -/
def address? (e : Entry) : Option PhysAddr :=
  if e.isValid then
    let low := (e.bits &&& lowMask).setWidth 64
    let high := (e.bits &&& highMask).setWidth 64 <<< 28
    some ⟨high ||| low⟩
  else none

end Entry

end Aperture
