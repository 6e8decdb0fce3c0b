import Aperture.Bisect
import Aperture.Gather.Pieces
import Aperture.Pool.Placement

namespace Aperture

namespace Pool

/-- A block at `start` would meet the request: it is aligned, lies in the pool and in the window
beside all that is handed out, and crosses no multiple of the boundary. -/
structure Suits (p : Pool) (r : Request) (start : Nat) : Prop where
  aligned : max r.alignment.toNat pageSize ∣ start
  above : p.first.toNat ≤ start
  below : start + r.size.toNat ≤ p.last.toNat + 1
  window : ∀ w, r.window = some w →
    w.1.toNat ≤ start ∧ start + r.size.toNat ≤ w.2.toNat + 1
  free : ∀ b ∈ p.blocks, start + r.size.toNat ≤ b.start.toNat ∨ b.stop ≤ start
  /-- A block larger than the boundary may cross it. -/
  uncrossed : r.size.toNat ≤ r.boundary.toNat →
    ¬ (⟨start, r.size.toNat⟩ : Stretch).Crosses r.boundary.toNat

/-- The place of the first block that does not start before `start`. -/
def place (p : Pool) (start : Word) : Nat :=
  bisect (fun i => p.blocks[i]?.any (·.start < start)) 0 p.blocks.length

/-- The pool with one block more, at its place. -/
def insertAt (p : Pool) (b : Block) : Pool :=
  { p with blocks := p.blocks.insertIdx (p.place b.start) b }

/-- Takes back what starts where the block starts, if it is as long. -/
def releaseAt (p : Pool) (b : Block) : Except Refusal Pool :=
  match p.blocks[p.place b.start]? with
  | none => .error .notFound
  | some c =>
    if c.start ≠ b.start then .error .notFound
    else if c.size ≠ b.size then .error .notFound
    else .ok { p with blocks := p.blocks.eraseIdx (p.place b.start) }

end Pool

end Aperture
