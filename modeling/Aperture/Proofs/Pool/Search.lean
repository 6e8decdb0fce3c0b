import Aperture.Pool.Placement
import Aperture.Word.Rounding

namespace Aperture

theorem Word.toNat_pred {v w : Word} (h : v.toNat < w.toNat) : (w - 1).toNat + 1 = w.toNat := by
  rw [BitVec.toNat_sub_of_le (BitVec.le_def.mpr (by simp; omega))]
  simp
  omega

namespace Fit

/-- What a well-formed request makes of a fit. -/
structure WellFormed (f : Fit) : Prop where
  unit : f.unit.IsPowerOfTwo
  pages : pageSize ∣ f.unit.toNat
  boundary : f.boundary.IsBoundary
  size : 0 < f.size.toNat
  size_le : f.boundary ≠ 0 → f.size.toNat ≤ f.boundary.toNat

theorem last?_eq_some_iff {f : Fit} (hs : 0 < f.size.toNat) {start last : Word} :
    f.last? start = some last ↔ last.toNat + 1 = start.toNat + f.size.toNat := by
  rw [last?, Word.plus?_eq_some_iff]
  omega

theorem crosses_eq_false_iff {f : Fit} {start last : Word} :
    f.crosses start last = false ↔ (f.boundary ≠ 0 →
      start.toNat / f.boundary.toNat = last.toNat / f.boundary.toNat) := by
  by_cases hb : f.boundary = 0 <;> simp [crosses, hb]

theorem div_last_eq {start size boundary : Nat} (hd : boundary ∣ start) (hs : 0 < size)
    (hle : size ≤ boundary) : start / boundary = (start + size - 1) / boundary := by
  obtain ⟨k, rfl⟩ := hd
  have hpos : 0 < boundary := by omega
  have hlast : boundary * k + size - 1 = (size - 1) + boundary * k := by omega
  rw [hlast, Nat.add_mul_div_left _ _ hpos, Nat.mul_div_cancel_left _ hpos,
    Nat.div_eq_of_lt (by omega), Nat.zero_add]

theorem ends_of_bind_last? {f : Fit} (hs : 0 < f.size.toNat) {hi s start : Word}
    (h : ((f.last? s).bind fun last => if last ≤ hi then some s else none) = some start) :
    s = start ∧ start.toNat + f.size.toNat ≤ hi.toNat + 1 := by
  obtain ⟨last, hlast, h⟩ := Option.bind_eq_some_iff.mp h
  rw [last?_eq_some_iff hs] at hlast
  by_cases hin : last ≤ hi
  · rw [if_pos hin] at h
    obtain rfl := Option.some.inj h
    rw [BitVec.le_def] at hin
    exact ⟨rfl, by omega⟩
  · rw [if_neg hin] at h
    cases h

theorem place?_sound {f : Fit} (hf : f.WellFormed) {lo hi start : Word}
    (h : f.place? lo hi = some start) :
    f.unit.toNat ∣ start.toNat ∧ lo.toNat ≤ start.toNat ∧
      start.toNat + f.size.toNat ≤ hi.toNat + 1 ∧
      (f.boundary ≠ 0 →
        start.toNat / f.boundary.toNat =
          (start.toNat + f.size.toNat - 1) / f.boundary.toNat) := by
  simp only [place?, Option.bind_eq_bind, Option.bind_eq_some_iff] at h
  obtain ⟨first, hfirst, last, hlast, h⟩ := h
  rw [last?_eq_some_iff hf.size] at hlast
  obtain ⟨hlo, hunit⟩ := Word.le_of_roundUp?_eq_some hf.unit hfirst
  cases hc : f.crosses first last with
  | false =>
    rw [hc] at h
    obtain ⟨rfl, hin⟩ := ends_of_bind_last? hf.size h
    rw [crosses_eq_false_iff] at hc
    refine ⟨hunit, hlo, hin, ?_⟩
    intro hb
    rw [hc hb]
    congr 1
    omega
  | true =>
    have hb : f.boundary ≠ 0 := by
      intro hz
      simp [crosses, hz] at hc
    have hpow : f.boundary.IsPowerOfTwo := hf.boundary.resolve_left hb
    obtain ⟨hlarger, hdb, hdu⟩ := hpow.larger hf.unit
    rw [hc, if_pos rfl] at h
    obtain ⟨moved, hmoved, h⟩ := Option.bind_eq_some_iff.mp h
    obtain ⟨rfl, hin⟩ := ends_of_bind_last? hf.size h
    obtain ⟨hge, hd⟩ := Word.le_of_roundUp?_eq_some hlarger hmoved
    refine ⟨Nat.dvd_trans hdu hd, by omega, hin, ?_⟩
    intro _
    exact div_last_eq (Nat.dvd_trans hdb hd) hf.size (hf.size_le hb)

end Fit

theorem Block.last_eq_ok_iff {b : Block} {last : Word} :
    b.last = .ok last ↔ 0 < b.size.toNat ∧ last.toNat + 1 = b.stop := by
  simp only [Block.last, Checked.bind_eq_ok, Word.minus_eq_ok_iff, Word.plus_eq_ok_iff]
  unfold Block.stop
  constructor
  · intro h
    obtain ⟨rest, hrest, hlast⟩ := h
    omega
  · intro h
    obtain ⟨hpos, hlast⟩ := h
    have hlt := b.size.isLt
    exact ⟨.ofNat 64 (b.size.toNat - 1), by simp only [BitVec.toNat_ofNat]; omega,
      by simp only [BitVec.toNat_ofNat]; omega⟩

theorem Block.last_eq_ok {b : Block} (hsize : 0 < b.size.toNat) (hfits : b.stop ≤ 2 ^ 64) :
    ∃ last, b.last = .ok last ∧ last.toNat + 1 = b.stop := by
  have hlt : b.stop - 1 < 2 ^ 64 := by omega
  have hlast : (BitVec.ofNatLT (b.stop - 1) hlt).toNat + 1 = b.stop := by
    rw [BitVec.toNat_ofNatLT]
    unfold Block.stop
    omega
  exact ⟨.ofNatLT _ hlt, last_eq_ok_iff.mpr ⟨hsize, hlast⟩, hlast⟩

namespace Fit

/-- A position that a place in the gap before `b` gives is allowed beside `b` and all after it. -/
theorem allows_of_place? {f : Fit} (hf : f.WellFormed) {lo hi top start : Word} {bs : List Block}
    (h : f.place? lo top = some start) (htop : top.toNat ≤ hi.toNat)
    (hbs : ∀ b ∈ bs, top.toNat < b.start.toNat) : f.Allows lo hi bs start := by
  obtain ⟨haligned, habove, hbelow, huncrossed⟩ := place?_sound hf h
  refine ⟨haligned, BitVec.le_def.mpr habove, by omega, ?_, huncrossed⟩
  intro b hb
  have := hbs b hb
  left
  show start.toNat + f.size.toNat ≤ b.start.toNat
  omega

/-- What is allowed from a later position on, beside the blocks after `b`, is allowed beside `b`
too when it lies past `b`. -/
theorem Allows.cons {f : Fit} {lo lo' hi start : Word} {b : Block} {bs : List Block}
    (h : f.Allows lo' hi bs start) (hle : lo.toNat ≤ start.toNat)
    (hb : b.stop ≤ start.toNat) : f.Allows lo hi (b :: bs) start := by
  refine ⟨h.aligned, BitVec.le_def.mpr hle, h.below, ?_, h.uncrossed⟩
  intro c hc
  cases hc with
  | head => exact .inr hb
  | tail _ hc => exact h.free c hc

theorem search?_allows {f : Fit} (hf : f.WellFormed) {hi : Word} {bs : List Block}
    (hsorted : bs.Pairwise fun b c => b.stop ≤ c.start.toNat) {cursor start : Word}
    (h : f.search? hi cursor bs = .ok (some start)) : f.Allows cursor hi bs start := by
  induction bs generalizing cursor with
  | nil => exact allows_of_place? hf (Except.ok.inj h) (Nat.le_refl _) (by simp)
  | cons b bs ih =>
    obtain ⟨hafter, hrest⟩ := List.pairwise_cons.mp hsorted
    rw [search?, Checked.bind_eq_ok] at h
    obtain ⟨last, hlast, h⟩ := h
    obtain ⟨hpos, hstop⟩ := Block.last_eq_ok_iff.mp hlast
    unfold Block.stop at hstop
    -- the blocks are sorted, so a place in the gap before `b` lies before all that follow too
    have later (top : Word) (htop : top.toNat < b.start.toNat) :
        ∀ c ∈ b :: bs, top.toNat < c.start.toNat := by
      intro c hc
      cases hc with
      | head => exact htop
      | tail _ hc =>
        have := hafter c hc
        unfold Block.stop at this
        omega
    by_cases hskip : last < cursor
    · rw [if_pos hskip] at h
      have hallows := ih hrest h
      have hge := BitVec.le_def.mp hallows.above
      rw [BitVec.lt_def] at hskip
      exact hallows.cons hge (by unfold Block.stop; omega)
    rw [if_neg hskip] at h
    rw [BitVec.lt_def] at hskip
    by_cases hpast : hi < b.start
    · rw [if_pos hpast] at h
      rw [BitVec.lt_def] at hpast
      exact allows_of_place? hf (Except.ok.inj h) (Nat.le_refl _) (later hi hpast)
    rw [if_neg hpast] at h
    rw [BitVec.lt_def] at hpast
    generalize hgap : (if cursor < b.start then f.place? cursor (b.start - 1) else none) = gap at h
    cases gap with
    | some found =>
      obtain rfl := Option.some.inj (Except.ok.inj h)
      by_cases hbefore : cursor < b.start
      · rw [if_pos hbefore] at hgap
        rw [BitVec.lt_def] at hbefore
        have htop := Word.toNat_pred hbefore
        exact allows_of_place? hf hgap (by omega) (later _ (by omega))
      · rw [if_neg hbefore] at hgap
        cases hgap
    | none =>
      cases hnext : last.plus? 1 with
      | none =>
        rw [hnext] at h
        cases h
      | some next =>
        rw [hnext] at h
        rw [Word.plus?_eq_some_iff] at hnext
        by_cases hend : hi < next
        · simp only [if_pos hend] at h
          cases h
        · simp only [if_neg hend] at h
          have hallows := ih hrest h
          have hge := BitVec.le_def.mp hallows.above
          exact hallows.cons (by omega) (by unfold Block.stop; omega)

end Fit

end Aperture
