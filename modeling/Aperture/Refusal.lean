namespace Aperture

/-- Why a request is turned down. -/
inductive Refusal where
  /-- Storage, or a block of host memory, cannot be had. -/
  | outOfMemory
  /-- No free block of the aperture fits the request. -/
  | spaceExhausted
  /-- A payload needs more segments than its mapping allows. -/
  | tooManySegments
  /-- A payload touches more frames than its mapping can record. -/
  | tooManyFrames
  | invalid
  /-- The payload lives where it cannot be reached. -/
  | unsupported
  /-- What is handed back was never handed out. -/
  | notFound
deriving DecidableEq

namespace Refusal

def message : Refusal → String
  | outOfMemory => "out of memory"
  | spaceExhausted => "DVMA address space exhausted"
  | tooManySegments => "too many DMA segments"
  | tooManyFrames => "too many physical pages for mapping"
  | invalid => "invalid argument"
  | unsupported => "operation not supported"
  | notFound => "span not found"

/-- The closest POSIX error number. -/
def errno : Refusal → Nat
  | outOfMemory | spaceExhausted => 12
  | tooManySegments | tooManyFrames => 27
  | invalid => 22
  | unsupported => 45
  | notFound => 2

end Refusal

end Aperture
