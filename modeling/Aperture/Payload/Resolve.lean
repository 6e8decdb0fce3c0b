import Aperture.Notice
import Aperture.Storage

namespace Aperture

theorem Addr.pageOffset_lt {s : Space} (a : Addr s) : a.pageOffset < pageSize :=
  Nat.mod_lt _ (by decide)

/-- The runs found, and why there are no more if the payload could not be resolved to its end. -/
structure Resolution where
  runs : List (Run .phys)
  failure : Option Declined
deriving DecidableEq

namespace Resolution

def cons (r : Run .phys) (rest : Resolution) : Resolution :=
  { rest with runs := r :: rest.runs }

def after (r : Resolution) (out : List (Run .phys)) : Resolution := { r with runs := out ++ r.runs }

/-- The runs as far as they can be stored. -/
def storedIn (r : Resolution) (s : Storage) : Resolution :=
  if r.runs.length ≤ s.limit then r else ⟨r.runs.take s.limit, some ⟨.outOfMemory, none⟩⟩

/-- The resolutions of some pieces in order, up to the first that fails. What comes after that one
is not looked at. -/
def ofPieces {α : Type} (resolve : α → Resolution) : List α → Resolution
  | [] => ⟨[], none⟩
  | piece :: pieces =>
    let first := resolve piece
    match first.failure with
    | some _ => first
    | none =>
      let rest := ofPieces resolve pieces
      { rest with runs := first.runs ++ rest.runs }

/-- Cuts `remaining` bytes from `a` on at page boundaries and finds the memory behind each part.
`wraps` is the failure when the bytes go on past the last address. -/
def walk {s : Space} (find : Addr s → Except Declined PhysAddr) (wraps : Declined) (a : Addr s)
    (remaining : Nat) : Resolution :=
  if remaining = 0 then ⟨[], none⟩
  else
    let part := min remaining (pageSize - a.pageOffset)
    match find a with
    | .error d => ⟨[], some d⟩
    | .ok p =>
      let run : Run .phys := ⟨p, .ofNatLT part (by unfold part pageSize; omega)⟩
      if remaining ≤ part then ⟨[run], none⟩
      else match a.plus? part with
        | none => ⟨[run], some wraps⟩
        | some next => (walk find wraps next (remaining - part)).cons run
termination_by remaining
decreasing_by
  have := a.pageOffset_lt
  omega

end Resolution

namespace Run

def resolve (r : Run .virt) (space : VirtSpace) : Resolution :=
  Resolution.walk
    (fun a => match space.lookup a with
      | some p => .ok p
      | none => .error ⟨.invalid, some (.noPage space.id a)⟩)
    ⟨.invalid, some (.wrapsVirtual space.id r.addr)⟩ r.addr r.length.toNat

def split (r : Run .phys) : Resolution :=
  Resolution.walk .ok ⟨.invalid, some (.wrapsPhysical r.addr)⟩ r.addr r.length.toNat

end Run

namespace Payload

/-- The physical runs of a payload, in its order, where all of them can be stored. -/
def resolve : Payload → Resolution
  | linear base length space => Run.resolve ⟨base, length⟩ space
  | chain pieces space => .ofPieces (·.resolve space) pieces
  | scatter pieces space =>
    if space.isKernel then .ofPieces (·.resolve space) pieces
    else ⟨[], some ⟨.unsupported, none⟩⟩
  | raw runs => .ofPieces (·.split) runs

end Payload

end Aperture
