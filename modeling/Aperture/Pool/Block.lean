import Aperture.Word.Basic

namespace Aperture

structure Block where
  start : Word
  size : Word
deriving DecidableEq

namespace Block

/-- The last address of the block; an empty block has none. -/
def last (b : Block) : Checked Word := do
  let rest ← b.size.minus 1
  b.start.plus rest.toNat

def overlaps (b c : Block) : Checked Bool := do
  if b.start ≤ (← c.last) then return c.start ≤ (← b.last) else return false

def contains (b : Block) (address : Word) : Checked Bool := do
  if b.start ≤ address then return address ≤ (← b.last) else return false

end Block

end Aperture
