import Aperture.Traits
import Aperture.Run

namespace Aperture

inductive TableCall where
  /-- Points the aperture page at `bus` to the physical page at `phys`. -/
  | bind (bus : BusAddr) (phys : PhysAddr) (traits : Traits)
  | unbind (bus : BusAddr)
  /-- Drops what the device has cached of the table. -/
  | flush
deriving DecidableEq

def TableCall.bus? : TableCall → Option BusAddr
  | bind bus _ _ | unbind bus => some bus
  | flush => none

/-- What the device sees: the physical page behind each bus page that is bound. -/
abbrev Bindings := BusAddr → Option PhysAddr

namespace Bindings

def empty : Bindings := fun _ => none

def apply (b : Bindings) : TableCall → Bindings
  | .bind bus phys _ => fun a => if a = bus then some phys else b a
  | .unbind bus => fun a => if a = bus then none else b a
  | .flush => b

def applyAll (b : Bindings) (calls : List TableCall) : Bindings :=
  calls.foldl apply b

end Bindings

end Aperture
