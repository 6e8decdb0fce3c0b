import Aperture.Pool.Basic

namespace Aperture

namespace Block

/-- The number after the last address. -/
def stop (b : Block) : Nat := b.start.toNat + b.size.toNat

def Disjoint (b c : Block) : Prop :=
  b.stop ≤ c.start.toNat ∨ c.stop ≤ b.start.toNat

end Block

/-- A block at `start` meets the request: it lies in `[lo, hi]` beside all other blocks, it is
aligned, and its first and last byte lie in one boundary block. -/
structure Fit.Allows (f : Fit) (lo hi : Word) (others : List Block) (start : Word) : Prop where
  aligned : f.unit.toNat ∣ start.toNat
  above : lo ≤ start
  below : start.toNat + f.size.toNat ≤ hi.toNat + 1
  free : ∀ b ∈ others, Block.Disjoint ⟨start, f.size⟩ b
  uncrossed : f.boundary ≠ 0 →
    start.toNat / f.boundary.toNat = (start.toNat + f.size.toNat - 1) / f.boundary.toNat

/-- Blocks are whole pages inside the pool, sorted, and do not overlap. -/
structure Pool.WellFormed (p : Pool) : Prop where
  sorted : p.blocks.Pairwise fun b c => b.stop ≤ c.start.toNat
  inside : ∀ b ∈ p.blocks, p.first ≤ b.start ∧ b.stop ≤ p.last.toNat + 1
  pages : ∀ b ∈ p.blocks, 0 < b.size.toNat ∧ pageSize ∣ b.size.toNat ∧ pageSize ∣ b.start.toNat

theorem Pool.new_eq_ok {first size : Word} {p : Pool} (h : Pool.new first size = .ok p) :
    p.first = first ∧ p.size = size ∧ p.blocks = [] := by
  unfold Pool.new at h
  split at h
  · split at h
    · obtain rfl := Except.ok.inj h
      exact ⟨rfl, rfl, rfl⟩
    · cases h
  · cases h

theorem Pool.blocks_new {first size : Word} {p : Pool} (h : Pool.new first size = .ok p) :
    p.blocks = [] := (Pool.new_eq_ok h).2.2

theorem Pool.wellFormed_new {first size : Word} {p : Pool} (h : Pool.new first size = .ok p) :
    p.WellFormed := by
  have hnone := Pool.blocks_new h
  constructor <;> simp [hnone]

end Aperture
