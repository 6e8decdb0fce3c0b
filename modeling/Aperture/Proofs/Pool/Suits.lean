import Aperture.Pool.Places
import Aperture.Proofs.Gather.Cutting
import Aperture.Proofs.Pool.FirstFit
import Mathlib.Order.Bounds.Basic

namespace Aperture

namespace Pool

variable {p : Pool} {r : Request}

theorem toNat_unit (r : Request) : r.fit.unit.toNat = max r.alignment.toNat pageSize :=
  Word.toNat_larger ..

/-- The range that is searched is where the pool and the window overlap. -/
theorem inside_iff (p : Pool) (r : Request) {s n : Nat} :
    ((p.first.larger (r.window.getD (p.first, p.last)).1).toNat ≤ s ∧
        s + n ≤ (p.last.smaller (r.window.getD (p.first, p.last)).2).toNat + 1) ↔
      p.first.toNat ≤ s ∧ s + n ≤ p.last.toNat + 1 ∧
        ∀ w, r.window = some w → w.1.toNat ≤ s ∧ s + n ≤ w.2.toNat + 1 := by
  rw [Word.toNat_larger, Word.toNat_smaller]
  cases r.window with
  | none =>
    simp only [Option.getD_none, reduceCtorEq, false_implies, implies_true, and_true]
    omega
  | some w =>
    simp only [Option.getD_some, Option.some.injEq, forall_eq']
    omega

theorem uncrossed_iff (hr : r.WellFormed) (s : Nat) :
    (r.fit.boundary ≠ 0 →
        s / r.fit.boundary.toNat = (s + r.size.toNat - 1) / r.fit.boundary.toNat) ↔
      (r.size.toNat ≤ r.boundary.toNat →
        ¬ (⟨s, r.size.toNat⟩ : Stretch).Crosses r.boundary.toNat) := by
  have hsize : 0 < r.size.toNat := hr.fit.size
  have hfit : r.fit.boundary = if r.size ≤ r.boundary then r.boundary else 0 := rfl
  rw [hfit, Stretch.not_crosses_iff (s := ⟨s, r.size.toNat⟩) hsize]
  by_cases hle : r.size ≤ r.boundary
  · rw [if_pos hle]
    rw [BitVec.le_def] at hle
    have hne : r.boundary ≠ 0 := fun hz => by
      rw [hz] at hle
      exact absurd hsize (Nat.not_lt.mpr hle)
    exact ⟨fun h _ => h hne, fun h _ => h hle⟩
  · rw [if_neg hle]
    rw [BitVec.le_def] at hle
    exact ⟨fun _ hle' => absurd hle' hle, fun _ hz => absurd rfl hz⟩

theorem allows_iff_suits (hr : r.WellFormed) {s : Word} :
    p.Allows r s ↔ p.Suits r s.toNat := by
  have hinside := inside_iff p r (s := s.toNat) (n := r.size.toNat)
  constructor
  · intro h
    obtain ⟨habove, hbelow, hwindow⟩ := hinside.mp ⟨BitVec.le_def.mp h.above, h.below⟩
    exact ⟨toNat_unit r ▸ h.aligned, habove, hbelow, hwindow, h.free,
      (uncrossed_iff hr s.toNat).mp h.uncrossed⟩
  · intro h
    obtain ⟨hlo, hhi⟩ := hinside.mpr ⟨h.above, h.below, h.window⟩
    exact ⟨(toNat_unit r).symm ▸ h.aligned, BitVec.le_def.mpr hlo, hhi, h.free,
      (uncrossed_iff hr s.toNat).mpr h.uncrossed⟩

theorem Suits.lt (hr : r.WellFormed) {s : Nat} (h : p.Suits r s) : s < 2 ^ 64 := by
  have hbelow := h.below
  have hsize : 0 < r.size.toNat := hr.fit.size
  have hlast := p.last.isLt
  omega

/-- Reserving hands out the least position that suits, or there is none. -/
theorem reserve_suits (hp : p.WellFormed) (hr : r.WellFormed) :
    (p.reserve r = .ok (.error .spaceExhausted) ∧ ∀ s, ¬ p.Suits r s) ∨
      ∃ b : Block, p.reserve r = .ok (.ok (b, p.withBlocks (insert b p.blocks))) ∧
        b.size = r.size ∧ IsLeast {s | p.Suits r s} b.start.toNat := by
  have haddress {s : Nat} (h : p.Suits r s) : p.Allows r (.ofNatLT s (h.lt hr)) := by
    rw [allows_iff_suits hr, BitVec.toNat_ofNatLT]
    exact h
  rcases reserve_cases hp hr with ⟨hrefused, hno⟩ | ⟨b, hreserved, hsize, hallows, hleast⟩
  · exact .inl ⟨hrefused, fun s h => hno _ (haddress h)⟩
  · refine .inr ⟨b, hreserved, hsize, (allows_iff_suits hr).mp hallows, fun s h => ?_⟩
    have hle := hleast _ (haddress h)
    rw [BitVec.toNat_ofNatLT] at hle
    exact hle

end Pool

end Aperture
