import Aperture.ByteSize
import Aperture.Payload.Basic
import Aperture.Refusal

namespace Aperture

inductive Level where
  | error
  | warn
  | debug
  | trace
deriving DecidableEq

namespace Level

def name : Level → String
  | error => "error"
  | warn => "warn"
  | debug => "debug"
  | trace => "trace"

end Level

/-- One line of the log; `tag` is the name of the tag that writes it. -/
inductive Notice where
  | opened (tag : String) (size : Word) (start : BusAddr)
  | lengthOverflows (tag : String)
  | badLength (tag : String) (length limit : Word)
  | loaded (tag payload : String) (segments : Nat)
  | notLoaded (tag : String)
  | noBlock (tag : String) (size alignment boundary : Word)
  | blockLost (tag : String) (size : Word)
  | tornDown (tag : String) (outstanding : Word)
  | dropped (size start : Word)
  | recordFull (page : PhysAddr) (capacity : Nat)
  | neverBound (address : PhysAddr)
  | noPage (owner : Nat) (address : VirtAddr)
  | wrapsVirtual (owner : Nat) (base : VirtAddr)
  | wrapsPhysical (base : PhysAddr)
  | noMemory (size : Word)
  | badScribble (page : PhysAddr)
  | bindOutside (bus : BusAddr) (phys : PhysAddr)
  | bindNotEncoded (bus : BusAddr) (phys : PhysAddr)
  | unbindOutside (bus : BusAddr)
  | mixedPhases (phases : String)
  | badOffset (offset length : Word)
  | badSpan (length offset : Word)
  | cannotFlush (shape : Shape)
deriving DecidableEq

namespace Notice

def level : Notice → Level
  | loaded .. | notLoaded _ => .trace
  | blockLost .. | tornDown .. => .warn
  | dropped .. | neverBound _ | badScribble _ | bindOutside .. | bindNotEncoded .. | unbindOutside _
  | mixedPhases _ | badOffset .. | badSpan .. | cannotFlush _ => .error
  | opened .. | lengthOverflows _ | badLength .. | noBlock .. | recordFull .. | noPage ..
  | wrapsVirtual .. | wrapsPhysical _ | noMemory _ => .debug

def text : Notice → String
  | opened tag size start => s!"{tag}: {sizeText size} of DVMA space at {start}"
  | lengthOverflows tag => s!"{tag}: buffer length overflows"
  | badLength tag length limit =>
    s!"{tag}: cannot load {sizeText length} into a mapping of at most {sizeText limit}"
  | loaded tag payload segments => s!"{tag}: loaded {payload} in {segments} segments"
  | notLoaded tag => s!"{tag}: unload of a mapping that is not loaded"
  | noBlock tag size alignment boundary =>
    s!"{tag}: no {sizeText size} span (align {hex alignment.toNat}, " ++
      s!"boundary {hex boundary.toNat}) available"
  | blockLost tag size => s!"{tag}: {sizeText size} of DVMA space lost"
  | tornDown tag outstanding =>
    s!"{tag}: torn down with {sizeText outstanding} of DVMA space still loaded"
  | dropped size start =>
    s!"mapping dropped while loaded: {sizeText size} of DVMA space at {hex start.toNat} lost"
  | recordFull page capacity => s!"page {page} does not fit in a registry of {capacity} pages"
  | neverBound address => s!"physical address {address} was never bound"
  | noPage owner address =>
    s!"{VirtSpace.describeId owner}: no physical page behind {address}"
  | wrapsVirtual owner base =>
    s!"{VirtSpace.describeId owner}: buffer at {base} wraps the address space"
  | wrapsPhysical base => s!"segment at {base} wraps the physical address space"
  | noMemory size => s!"no {sizeText size} block of DMA memory available"
  | badScribble page => s!"gtt: scribble page {page} cannot be encoded"
  | bindOutside bus phys => s!"gtt: bind_page failed: ba {bus} outside aperture, pa {phys}"
  | bindNotEncoded bus phys => s!"gtt: bind_page failed: ba {bus}, pa {phys} cannot be encoded"
  | unbindOutside bus => s!"gtt: unbind_page failed: ba {bus} outside aperture"
  | mixedPhases phases => s!"sync: mixed PRE and POST operations {phases}"
  | badOffset offset length =>
    s!"sync: bad offset {hex offset.toNat} (size = {hex length.toNat})"
  | badSpan length offset =>
    s!"sync: bad length {hex length.toNat} at offset {hex offset.toNat}"
  | cannotFlush shape => s!"sync: cannot flush a {shape.name} buffer"

def line (n : Notice) : String := n.level.name ++ ": " ++ n.text

end Notice

/-- A request turned down, with what is noted about it. -/
structure Declined where
  reason : Refusal
  notice : Option Notice := none
deriving DecidableEq

namespace Declined

def notices (d : Declined) : List Notice := d.notice.toList

end Declined

end Aperture
