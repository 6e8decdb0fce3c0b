import Aperture.Admission
import Aperture.Proofs.Pool.Suits
import Aperture.Proofs.Tag.Lawful

namespace Aperture

namespace Tag

variable {t : Tag} {m : Mapping} {n : Nat} {size : Word}

theorem toNat_alignmentFor (t : Tag) (m : Mapping) :
    (t.alignmentFor m).toNat =
      max (max t.recorded.alignment.toNat m.alignment.toNat) pageSize := by
  rw [alignmentFor, Word.toNat_larger, Word.toNat_larger]
  rfl

theorem isPowerOfTwo_alignmentFor (ht : t.recorded.WellFormed) (hm : m.IsMade) :
    (t.alignmentFor m).IsPowerOfTwo := by
  have hpage : Word.IsPowerOfTwo (.ofNat 64 pageSize) := Addr.isPowerOfTwo_page
  rcases ht.alignment with hz | hpow
  · have hown : t.recorded.alignment.larger m.alignment = m.alignment := by
      rw [hz, Word.larger, if_pos (BitVec.le_def.mpr (Nat.zero_le _))]
    rw [alignmentFor, hown]
    exact (hm.alignment.larger hpage).1
  · exact ((hpow.larger hm.alignment).1.larger hpage).1

theorem isBoundary_boundaryFor (ht : t.recorded.WellFormed) (hm : m.IsMade) :
    (t.boundaryFor m).IsBoundary := by
  unfold boundaryFor
  split
  · exact hm.limits.2.2.2
  · exact ht.boundary

def requestFor (t : Tag) (m : Mapping) (size : Word) : Request :=
  ⟨size, t.alignmentFor m, t.boundaryFor m, t.windowFor m⟩

theorem wellFormed_requestFor (ht : t.recorded.WellFormed) (hm : m.IsMade)
    (hsize : size.toNat = n * pageSize) (hn : 0 < n) : (t.requestFor m size).WellFormed := by
  refine ⟨fun hz => ?_, ?_, isPowerOfTwo_alignmentFor ht hm, isBoundary_boundaryFor ht hm⟩
  · have hz : size = 0 := hz
    rw [hz] at hsize
    unfold pageSize at hsize
    simp at hsize
    omega
  · show size.toNat % pageSize = 0
    rw [hsize]
    exact Nat.mul_mod_left n pageSize

theorem windowFor_eq_some_iff {w : Word × Word} :
    t.windowFor m = some w ↔ m.limits.traits.low ∧ w = (t.pool.first, lowWindowEnd) := by
  unfold windowFor
  split
  · next hlow =>
    rw [Option.some.injEq, and_iff_right hlow]
    exact eq_comm
  · next hhigh =>
    constructor
    · intro h
      cases h
    · intro h
      exact absurd h.1 hhigh

/-- What suits the request for `n` pages is what the tag offers. -/
theorem suits_iff_offers (hsize : size.toNat = n * pageSize) (hn : 0 < n) {start : Word} :
    t.pool.Suits (t.requestFor m size) start.toNat ↔ t.Offers m n start := by
  have halignment : max (t.requestFor m size).alignment.toNat pageSize =
      max (max t.recorded.alignment.toNat m.alignment.toNat) pageSize := by
    rw [requestFor, toNat_alignmentFor, Nat.max_assoc, Nat.max_self]
  have hlength : (t.requestFor m size).size.toNat = n * pageSize := hsize
  constructor
  · intro h
    have hbelow := h.below
    have hfree := h.free
    have huncrossed := h.uncrossed
    rw [hlength] at hbelow huncrossed
    rw [hlength] at hfree
    refine ⟨halignment ▸ h.aligned, h.above, hbelow, fun hlow => ?_, hfree,
      fun _ hle => huncrossed hle⟩
    have hwindow := (h.window _ (windowFor_eq_some_iff.mpr ⟨hlow, rfl⟩)).2
    rw [hlength] at hwindow
    exact hwindow
  · intro h
    refine ⟨halignment ▸ h.aligned, h.above, ?_, fun w hw => ?_, ?_, fun hle => ?_⟩
    · rw [hlength]
      exact h.below
    · obtain ⟨hlow, rfl⟩ := windowFor_eq_some_iff.mp hw
      rw [hlength]
      exact ⟨h.above, h.low hlow⟩
    · rw [hlength]
      exact h.free
    · rw [hlength] at hle ⊢
      have hpos : 0 < n * pageSize := Nat.mul_pos hn (by decide)
      refine h.uncrossed (fun hz => ?_) hle
      have hle : n * pageSize ≤ (t.boundaryFor m).toNat := hle
      rw [hz] at hle
      exact absurd hpos (Nat.not_lt.mpr hle)

/-- Asking the pool for pages gives the first block there is room for, or there is no room. -/
theorem reserve_offers (hpool : t.pool.WellFormed) (ht : t.recorded.WellFormed) (hm : m.IsMade)
    (hsize : size.toNat = n * pageSize) (hn : 0 < n) :
    (t.pool.reserve (t.requestFor m size) = .ok (.error .spaceExhausted) ∧
      ∀ start, ¬ t.Offers m n start) ∨
    ∃ b : Block, t.pool.reserve (t.requestFor m size) =
      .ok (.ok (b, t.pool.withBlocks (Pool.insert b t.pool.blocks))) ∧ t.FirstOffer m n b := by
  have hrequest := wellFormed_requestFor ht hm hsize hn
  rcases Pool.reserve_suits hpool hrequest with ⟨hnone, hno⟩ | ⟨b, hb, hbsize, hleast⟩
  · exact .inl ⟨hnone, fun start h => hno _ ((suits_iff_offers hsize hn).mpr h)⟩
  · have hbsize : b.size = size := hbsize
    exact .inr ⟨b, hb, by rw [hbsize, hsize], (suits_iff_offers hsize hn).mp hleast.1,
      fun start h => hleast.2 ((suits_iff_offers hsize hn).mpr h)⟩

theorem FirstOffer.unique {b c : Block} (hb : t.FirstOffer m n b) (hc : t.FirstOffer m n c) :
    b = c := by
  have hle := hb.least c.start hc.offered
  have hge := hc.least b.start hb.offered
  obtain ⟨bstart, bsize⟩ := b
  obtain ⟨cstart, csize⟩ := c
  obtain rfl : bstart = cstart := BitVec.eq_of_toNat_eq (Nat.le_antisymm hle hge)
  obtain rfl : bsize = csize := BitVec.eq_of_toNat_eq (hb.size.trans hc.size.symm)
  rfl

theorem firstOffer_of_reserve (hpool : t.pool.WellFormed) (ht : t.recorded.WellFormed)
    (hm : m.IsMade) (hsize : size.toNat = n * pageSize) (hn : 0 < n) {b : Block} {pool : Pool}
    (h : t.pool.reserve (t.requestFor m size) = .ok (.ok (b, pool))) : t.FirstOffer m n b := by
  rcases reserve_offers hpool ht hm hsize hn with ⟨hrefused, -⟩ | ⟨c, hreserved, hc⟩
  · rw [hrefused] at h
    cases h
  · rw [hreserved] at h
    obtain ⟨rfl, -⟩ := Prod.mk.inj (Except.ok.inj (Except.ok.inj h))
    exact hc

end Tag

end Aperture
