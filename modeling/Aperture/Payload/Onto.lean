import Aperture.Payload.Resolve
import Aperture.Word.Rounding

namespace Aperture

namespace Resolution

variable {s : Space}

/-- How many of `remaining` bytes from `a` on are in its page, and how many are left then. -/
def firstPart (a : Addr s) (remaining : Word) : Checked (Word × Word) := do
  let room ← Word.minus (.ofNat 64 pageSize) a.pageOffset
  let part := remaining.smaller room
  let rest ← remaining.minus part.toNat
  return (part, rest)

theorem firstPart_eq_ok {a : Addr s} {remaining part rest : Word}
    (h : firstPart a remaining = .ok (part, rest)) :
    part.toNat = min remaining.toNat (pageSize - a.pageOffset) ∧
      rest.toNat + part.toNat = remaining.toNat := by
  obtain ⟨room, hroom, h⟩ := Checked.bind_eq_ok.mp h
  obtain ⟨left, hleft, h⟩ := Checked.bind_eq_ok.mp h
  obtain ⟨rfl, rfl⟩ := Prod.mk.inj (Except.ok.inj h)
  have hoff := a.pageOffset_lt
  have hpage : room.toNat + a.pageOffset = pageSize := Word.minus_eq_ok_iff.mp hroom
  have hmin := Word.toNat_smaller remaining room
  exact ⟨by omega, Word.minus_eq_ok_iff.mp hleft⟩

theorem rest_lt {a : Addr s} {remaining part rest : Word}
    (h : firstPart a remaining = .ok (part, rest)) (hn : remaining ≠ 0) :
    rest.toNat < remaining.toNat := by
  obtain ⟨hpart, hrest⟩ := firstPart_eq_ok h
  have hoff := a.pageOffset_lt
  have hpos : remaining.toNat ≠ 0 := fun hz => hn (BitVec.eq_of_toNat_eq hz)
  omega

/-- Walks over `remaining` bytes from `a` on, and appends the memory behind each part. -/
def walkOnto (storage : Storage) (find : Addr s → Except Declined PhysAddr) (wraps : Declined)
    (out : List (Run .phys)) (a : Addr s) (remaining : Word) : Checked Resolution :=
  if _hn : remaining = 0 then .ok ⟨out, none⟩
  else
    match _hpart : firstPart a remaining with
    | .error f => .error f
    | .ok (part, rest) =>
      match find a with
      | .error d => .ok ⟨out, some d⟩
      | .ok p =>
        match storage.push out ⟨p, part⟩ with
        | .error reason => .ok ⟨out, some ⟨reason, none⟩⟩
        | .ok out =>
          if rest = 0 then .ok ⟨out, none⟩
          else match a.plus? part.toNat with
            | none => .ok ⟨out, some wraps⟩
            | some next => walkOnto storage find wraps out next rest
termination_by remaining.toNat
decreasing_by exact rest_lt _hpart _hn

/-- Appends the runs of some pieces in order, up to the first piece that fails. -/
def ofPiecesOnto {α : Type} (resolve : List (Run .phys) → α → Checked Resolution)
    (out : List (Run .phys)) : List α → Checked Resolution
  | [] => .ok ⟨out, none⟩
  | piece :: pieces => do
    let first ← resolve out piece
    match first.failure with
    | some _ => return first
    | none => ofPiecesOnto resolve first.runs pieces

end Resolution

namespace Run

def resolveOnto (storage : Storage) (space : VirtSpace) (out : List (Run .phys)) (r : Run .virt) :
    Checked Resolution :=
  Resolution.walkOnto storage
    (fun a => match space.lookup a with
      | some p => .ok p
      | none => .error ⟨.invalid, some (.noPage space.id a)⟩)
    ⟨.invalid, some (.wrapsVirtual space.id r.addr)⟩ out r.addr r.length

def splitOnto (storage : Storage) (out : List (Run .phys)) (r : Run .phys) : Checked Resolution :=
  Resolution.walkOnto storage .ok ⟨.invalid, some (.wrapsPhysical r.addr)⟩ out r.addr r.length

end Run

namespace Payload

/-- Appends the runs of a payload to those that a list holds already, as far as there is storage. -/
def resolveOnto (storage : Storage) (out : List (Run .phys)) : Payload → Checked Resolution
  | linear base length space => Run.resolveOnto storage space out ⟨base, length⟩
  | chain pieces space => Resolution.ofPiecesOnto (Run.resolveOnto storage space) out pieces
  | scatter pieces space =>
    if space.isKernel then Resolution.ofPiecesOnto (Run.resolveOnto storage space) out pieces
    else .ok ⟨out, some ⟨.unsupported, none⟩⟩
  | raw runs => Resolution.ofPiecesOnto (Run.splitOnto storage) out runs

end Payload

end Aperture
