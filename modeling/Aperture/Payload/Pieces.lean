import Aperture.Admission
import Aperture.Synced

namespace Aperture

namespace Payload

/-- The lengths of the pieces of a payload; one that is virtually contiguous is in one piece. -/
def pieceLengths : Payload → List Nat
  | linear _ length _ => [length.toNat]
  | chain pieces _ | scatter pieces _ => pieces.map (·.length.toNat)
  | raw runs => runs.map (·.length.toNat)

def pieceCount (p : Payload) : Nat := p.pieceLengths.countP (0 < ·)

/-- The most frames that a payload of so many bytes in so many pieces touches, wherever the pieces
are. -/
def frameBound (p : Payload) : Nat := pagesFor p.size + 2 * p.pieceCount - 1

end Payload

end Aperture
