import Aperture.Addr
import Mathlib.Algebra.Ring.Nat

namespace Aperture

namespace Word

theorem IsPowerOfTwo.pos {unit : Word} (h : unit.IsPowerOfTwo) : 0 < unit.toNat :=
  Nat.pos_of_isPowerOfTwo h

theorem IsPowerOfTwo.toNat_pred {unit : Word} (h : unit.IsPowerOfTwo) :
    (unit - 1).toNat = unit.toNat - 1 := by
  have hle : (1 : Word) ≤ unit := BitVec.le_def.mpr h.pos
  rw [BitVec.toNat_sub_of_le hle]
  rfl

/-- Of two powers of two the smaller divides the larger. -/
theorem IsPowerOfTwo.dvd {u v : Word} (hu : u.IsPowerOfTwo) (hv : v.IsPowerOfTwo)
    (h : u.toNat ≤ v.toNat) : u.toNat ∣ v.toNat := by
  obtain ⟨j, hj⟩ := hu
  obtain ⟨k, hk⟩ := hv
  rw [hj, hk] at h ⊢
  exact Nat.pow_dvd_pow 2 ((Nat.pow_le_pow_iff_right (by decide)).mp h)

theorem toNat_larger (w v : Word) : (w.larger v).toNat = max w.toNat v.toNat := by
  unfold larger
  split
  · next h => rw [BitVec.le_def] at h; omega
  · next h => rw [BitVec.le_def] at h; omega

theorem toNat_smaller (w v : Word) : (w.smaller v).toNat = min w.toNat v.toNat := by
  unfold smaller
  split
  · next h => rw [BitVec.le_def] at h; omega
  · next h => rw [BitVec.le_def] at h; omega

theorem IsPowerOfTwo.larger {u v : Word} (hu : u.IsPowerOfTwo) (hv : v.IsPowerOfTwo) :
    (u.larger v).IsPowerOfTwo ∧ u.toNat ∣ (u.larger v).toNat ∧ v.toNat ∣ (u.larger v).toNat := by
  unfold Word.larger
  split
  · next h => exact ⟨hv, hu.dvd hv (BitVec.le_def.mp h), Nat.dvd_refl _⟩
  · next h =>
    rw [BitVec.le_def] at h
    exact ⟨hu, Nat.dvd_refl _, hv.dvd hu (by omega)⟩

theorem toNat_lowBits {w unit : Word} (h : unit.IsPowerOfTwo) :
    (w.lowBits unit).toNat = w.toNat % unit.toNat := by
  obtain ⟨k, hk⟩ := h
  rw [lowBits, BitVec.toNat_and, IsPowerOfTwo.toNat_pred ⟨k, hk⟩, hk,
    Nat.and_two_pow_sub_one_eq_mod]

/-- A word is the sum of its low bits and the rest. -/
theorem toNat_clearLow {w unit : Word} (h : unit.IsPowerOfTwo) :
    (w.clearLow unit).toNat = w.toNat / unit.toNat * unit.toNat := by
  obtain ⟨k, hk⟩ := h
  have hlt : 2 ^ k < 2 ^ 64 := hk ▸ unit.isLt
  have hk64 : k < 64 := (Nat.pow_lt_pow_iff_right (by decide)).mp hlt
  rw [clearLow, BitVec.toNat_and, BitVec.toNat_not, IsPowerOfTwo.toNat_pred ⟨k, hk⟩, hk]
  apply Nat.eq_of_testBit_eq
  intro i
  have hmask : 2 ^ 64 - 1 - (2 ^ k - 1) = 2 ^ 64 - ((2 ^ k - 1) + 1) := by omega
  have hw : 64 ≤ i → w.toNat.testBit i = false := fun hi =>
    Nat.testBit_lt_two_pow (Nat.lt_of_lt_of_le w.isLt (Nat.pow_le_pow_right (by decide) hi))
  rw [Nat.testBit_and, hmask, Nat.testBit_two_pow_sub_succ (by omega), Nat.testBit_two_pow_sub_one,
    Nat.testBit_mul_two_pow, Nat.testBit_div_two_pow]
  by_cases hik : k ≤ i
  · by_cases hi : i < 64
    · simp [hik, hi, Nat.not_lt.mpr hik]
    · simp [hi, hw (Nat.not_lt.mp hi), Nat.sub_add_cancel hik]
  · simp [hik, Nat.lt_of_not_le hik]

theorem roundUp?_eq_some_iff {w unit r : Word} (h : unit.IsPowerOfTwo) :
    w.roundUp? unit = some r ↔
      w.toNat + (unit.toNat - 1) < 2 ^ 64 ∧
        r.toNat = (w.toNat + (unit.toNat - 1)) / unit.toNat * unit.toNat := by
  rw [roundUp?, Option.map_eq_some_iff]
  constructor
  · rintro ⟨s, hs, rfl⟩
    rw [plus?_eq_some_iff] at hs
    exact ⟨by omega, by rw [toNat_clearLow h, hs]⟩
  · rintro ⟨hlt, hr⟩
    have hs : w.plus? (unit.toNat - 1) = some (.ofNatLT _ hlt) := by
      rw [plus?_eq_some_iff, BitVec.toNat_ofNatLT]
    exact ⟨_, hs, BitVec.eq_of_toNat_eq (by rw [toNat_clearLow h, hr, BitVec.toNat_ofNatLT])⟩

theorem le_of_roundUp?_eq_some {w unit r : Word} (hu : unit.IsPowerOfTwo)
    (h : w.roundUp? unit = some r) : w.toNat ≤ r.toNat ∧ unit.toNat ∣ r.toNat := by
  obtain ⟨-, hr⟩ := (roundUp?_eq_some_iff hu).mp h
  have hpos := hu.pos
  have hmod := Nat.div_add_mod (w.toNat + (unit.toNat - 1)) unit.toNat
  have hlt := Nat.mod_lt (w.toNat + (unit.toNat - 1)) hpos
  rw [Nat.mul_comm] at hmod
  exact ⟨by omega, hr ▸ Nat.dvd_mul_left _ _⟩

theorem nextBlock?_eq_some_iff {w unit next : Word} (h : unit.IsPowerOfTwo) :
    w.nextBlock? unit = some next ↔ next.toNat = (w.toNat / unit.toNat + 1) * unit.toNat := by
  obtain ⟨k, hk⟩ := h
  rw [nextBlock?, plus?_eq_some_iff, BitVec.toNat_or, IsPowerOfTwo.toNat_pred ⟨k, hk⟩, hk]
  have hor : w.toNat ||| (2 ^ k - 1) = w.toNat / 2 ^ k * 2 ^ k + (2 ^ k - 1) := by
    rw [Nat.mul_comm, Nat.two_pow_add_eq_or_of_lt (by have := Nat.two_pow_pos k; omega)]
    apply Nat.eq_of_testBit_eq
    intro i
    rw [Nat.testBit_or, Nat.testBit_or, Nat.testBit_two_pow_sub_one, Nat.mul_comm,
      Nat.testBit_mul_two_pow, Nat.testBit_div_two_pow]
    by_cases hik : k ≤ i
    · simp [hik, Nat.sub_add_cancel hik]
    · simp [Nat.lt_of_not_le hik]
  have := Nat.two_pow_pos k
  rw [hor, Nat.succ_mul]
  omega

end Word

namespace Addr

variable {s : Space}

theorem isPowerOfTwo_page : Word.IsPowerOfTwo 4096 := ⟨12, rfl⟩

theorem pageOffset_eq (a : Addr s) : a.pageOffset = a.word.toNat % pageSize :=
  rfl

theorem toNat_pageBase (a : Addr s) :
    a.pageBase.word.toNat = a.word.toNat / pageSize * pageSize :=
  Word.toNat_clearLow isPowerOfTwo_page

theorem toNat_pageNo (a : Addr s) : a.pageNo.word.toNat = a.word.toNat / pageSize :=
  BitVec.toNat_udiv

end Addr

end Aperture
