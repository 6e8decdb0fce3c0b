import Aperture.Bytes

namespace Aperture

/-- Where a walk from `a` on comes into the page of `b`. -/
def Addr.arrival {s : Space} (a b : Addr s) : Addr s := ⟨a.word.larger b.pageBase.word⟩

/-- Where a walk from `a` on finds the byte at `n`. -/
def VirtSpace.placeFrom? (v : VirtSpace) (a : VirtAddr) (n : Nat) : Option Nat :=
  if h : n < 2 ^ 64 then
    let b := a.arrival ⟨.ofNatLT n h⟩
    (v.lookup b).map fun p => p.word.toNat + (n - b.word.toNat)
  else none

/-- Where a byte of physical memory is: at its own address, if there is such an address. -/
def physPlace? (n : Nat) : Option Nat := if n < 2 ^ 64 then some n else none

namespace Run

/-- Where the bytes of a virtual run are found, in order. -/
def places (r : Run .virt) (v : VirtSpace) : List (Option Nat) :=
  r.bytes.map (v.placeFrom? r.addr)

end Run

namespace Payload

/-- Where the bytes of a payload are found, in order; one that is nowhere has no place. -/
def places : Payload → List (Option Nat)
  | linear base length space => Run.places ⟨base, length⟩ space
  | chain pieces space | scatter pieces space => pieces.flatMap (·.places space)
  | raw runs => runs.flatMap fun r => r.bytes.map physPlace?

def KeepsOffsets (p : Payload) : Prop := ∀ v, p.space? = some v → v.KeepsOffsets

def trimmed : Payload → Payload
  | linear base length space => linear base length space
  | chain pieces space => chain (pieces.filter (!·.isEmpty)) space
  | scatter pieces space => scatter (pieces.filter (!·.isEmpty)) space
  | raw runs => raw (runs.filter (!·.isEmpty))

end Payload

end Aperture
