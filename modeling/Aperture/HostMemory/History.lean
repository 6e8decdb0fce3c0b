import Aperture.Gather.Pieces
import Aperture.HostMemory
import Aperture.Synced

namespace Aperture

namespace HostMemory

inductive Call where
  | alloc (length alignment boundary : Word)
  | free (r : Run .phys)

inductive Outcome where
  | allocated (r : Run .phys)
  | freed (r : Run .phys)
  | refused (why : Refusal)
deriving DecidableEq

/-- What lives after an outcome, when `live` lived before it. -/
def Outcome.next (live : List (Run .phys)) : Outcome → List (Run .phys)
  | allocated r => r :: live
  | freed r => live.erase r
  | refused _ => live

def live (outcomes : List Outcome) : List (Run .phys) :=
  outcomes.foldl Outcome.next []

/-- Carries out a call. One that is refused leaves the memory as it is. -/
def carryOut (m : HostMemory) : Call → Checked (Outcome × HostMemory)
  | .alloc length alignment boundary => do
    match ← m.alloc length alignment boundary with
    | .ok (r, left) => return (.allocated r, left)
    | .error declined => return (.refused declined.reason, m)
  | .free r =>
    match m.free r with
    | .ok left => .ok (.freed r, left)
    | .error why => .ok (.refused why, m)

def runAll (m : HostMemory) : List Call → Checked (List Outcome × HostMemory)
  | [] => .ok ([], m)
  | c :: cs => do
    let first ← m.carryOut c
    let rest ← first.2.runAll cs
    return (first.1 :: rest.1, rest.2)

/-- What may be asked for: some bytes, at a multiple of a power of two or anywhere, and inside one
block of a power of two or not. -/
def Admits (length alignment boundary : Word) : Prop :=
  length ≠ 0 ∧ alignment.IsBoundary ∧ boundary.IsBoundary

instance (length alignment boundary : Word) : Decidable (Admits length alignment boundary) :=
  inferInstanceAs (Decidable (_ ∧ _ ∧ _))

def rounded (length : Word) : Nat := pagesFor length.toNat * pageSize

/-- Memory that is asked for could be at `start`: aligned, in the `size` bytes from `first`, beside
all that lives, and crossing no multiple of the boundary unless it is longer than that. -/
structure Place (first size : Word) (live : List (Run .phys)) (length alignment boundary : Word)
    (start : Nat) : Prop where
  aligned : max alignment.toNat pageSize ∣ start
  above : first.toNat ≤ start
  below : start + rounded length ≤ first.toNat + size.toNat
  apart : ∀ r ∈ live, start + rounded length ≤ r.addr.word.toNat ∨
    r.addr.word.toNat + r.length.toNat ≤ start
  uncrossed : rounded length ≤ boundary.toNat →
    ¬ (⟨start, rounded length⟩ : Stretch).Crosses boundary.toNat

end HostMemory

end Aperture
