import Aperture.Word.Rounding
import Mathlib.Order.Bounds.Basic

namespace Aperture

namespace Word

variable {w unit m r : Word}

/-- A multiple that is a word has a whole unit after it, as the space ends with a multiple. -/
theorem IsPowerOfTwo.add_le_space (h : unit.IsPowerOfTwo) (hd : unit.toNat ∣ m.toNat) :
    m.toNat + unit.toNat ≤ 2 ^ 64 := by
  have hspace : unit.toNat ∣ 2 ^ 64 := by
    have hlt := unit.isLt
    obtain ⟨k, hk⟩ := h
    rw [hk] at hlt ⊢
    exact Nat.pow_dvd_pow 2 (Nat.le_of_lt ((Nat.pow_lt_pow_iff_right (by decide)).mp hlt))
  have hrest : unit.toNat ∣ 2 ^ 64 - m.toNat := Nat.dvd_sub hspace hd
  have := Nat.le_of_dvd (Nat.sub_pos_of_lt m.isLt) hrest
  omega

/-- Rounding up does not pass a multiple that is not below. -/
theorem roundUp?_le (hu : unit.IsPowerOfTwo) (hd : unit.toNat ∣ m.toNat)
    (hle : w.toNat ≤ m.toNat) : ∃ r, w.roundUp? unit = some r ∧ r.toNat ≤ m.toNat := by
  have hroom := hu.add_le_space hd
  have hpos := hu.pos
  have hlt : w.toNat + (unit.toNat - 1) < 2 ^ 64 := by omega
  have hround : (w.toNat + (unit.toNat - 1)) / unit.toNat * unit.toNat ≤ m.toNat := by
    obtain ⟨q, hq⟩ := hd
    have hquot : (w.toNat + (unit.toNat - 1)) / unit.toNat ≤ q := by
      refine Nat.le_of_lt_succ ((Nat.div_lt_iff_lt_mul hpos).mpr ?_)
      rw [Nat.succ_mul, Nat.mul_comm q, ← hq]
      omega
    rw [hq, Nat.mul_comm unit.toNat]
    exact Nat.mul_le_mul_right _ hquot
  refine ⟨.ofNatLT _ (Nat.lt_of_le_of_lt hround m.isLt), ?_, ?_⟩
  · rw [roundUp?_eq_some_iff hu, BitVec.toNat_ofNatLT]
    exact ⟨hlt, rfl⟩
  · rw [BitVec.toNat_ofNatLT]
    exact hround

/-- Clearing the low bits gives the greatest multiple that is not above. -/
theorem isGreatest_clearLow (w : Word) (h : unit.IsPowerOfTwo) :
    IsGreatest {n | unit.toNat ∣ n ∧ n ≤ w.toNat} (w.clearLow unit).toNat := by
  rw [toNat_clearLow h]
  refine ⟨⟨Nat.dvd_mul_left _ _, Nat.div_mul_le_self _ _⟩, ?_⟩
  rintro n ⟨hd, hle⟩
  calc n = n / unit.toNat * unit.toNat := (Nat.div_mul_cancel hd).symm
    _ ≤ w.toNat / unit.toNat * unit.toNat := Nat.mul_le_mul_right _ (Nat.div_le_div_right hle)

/-- Rounding up gives the least multiple that is not below, if that is a word. -/
theorem roundUp?_eq_some_iff_isLeast (h : unit.IsPowerOfTwo) :
    w.roundUp? unit = some r ↔ IsLeast {n | unit.toNat ∣ n ∧ w.toNat ≤ n} r.toNat := by
  have hleast {r : Word} (hr : w.roundUp? unit = some r) :
      IsLeast {n | unit.toNat ∣ n ∧ w.toNat ≤ n} r.toNat := by
    obtain ⟨hle, hd⟩ := le_of_roundUp?_eq_some h hr
    refine ⟨⟨hd, hle⟩, ?_⟩
    rintro n ⟨hn, hfrom⟩
    by_cases hlt : n < 2 ^ 64
    · obtain ⟨r', hr', hto⟩ := roundUp?_le (w := w) (m := .ofNatLT n hlt) h
        (by rwa [BitVec.toNat_ofNatLT]) (by rwa [BitVec.toNat_ofNatLT])
      obtain rfl := Option.some.inj (hr.symm.trans hr')
      rwa [BitVec.toNat_ofNatLT] at hto
    · have := r.isLt
      omega
  refine ⟨hleast, fun hr => ?_⟩
  obtain ⟨r', hr', -⟩ := roundUp?_le h hr.1.1 hr.1.2
  rw [hr', BitVec.eq_of_toNat_eq ((hleast hr').unique hr)]

theorem clearLow_eq_self_iff (h : unit.IsPowerOfTwo) :
    w.clearLow unit = w ↔ unit.toNat ∣ w.toNat := by
  rw [← BitVec.toNat_inj, toNat_clearLow h]
  exact ⟨fun hsame => hsame ▸ Nat.dvd_mul_left _ _, Nat.div_mul_cancel⟩

theorem lowBits_eq_zero_iff (h : unit.IsPowerOfTwo) :
    w.lowBits unit = 0 ↔ unit.toNat ∣ w.toNat := by
  rw [eq_zero_iff, toNat_lowBits h]
  exact Nat.dvd_iff_mod_eq_zero.symm

end Word

namespace Addr

variable {s : Space} {a b : Addr s} {unit : Word} {f : Fault}

/-- Rounding an address up adds one more than `Word.roundUp?` does, and then gives the same. -/
theorem alignUp_cases (a : Addr s) (h : unit.IsPowerOfTwo) :
    (a.word.toNat + unit.toNat < 2 ^ 64 ∧
      ∃ b, a.alignUp unit = .ok b ∧ a.word.roundUp? unit = some b.word) ∨
    (2 ^ 64 ≤ a.word.toNat + unit.toNat ∧ a.alignUp unit = .error .addOverflow) := by
  have hpos := h.pos
  unfold alignUp
  rw [if_pos h]
  by_cases hlt : a.word.toNat + unit.toNat < 2 ^ 64
  · obtain ⟨past, hpast, hto⟩ := Word.plus_of_lt hlt
    obtain ⟨last, hlast⟩ : ∃ last, a.word.plus? (unit.toNat - 1) = some last :=
      Option.ne_none_iff_exists'.mp fun hnone => by
        have := Word.plus?_eq_none_iff.mp hnone
        omega
    have hminus : past.minus 1 = .ok last := by
      have := Word.plus?_eq_some_iff.mp hlast
      rw [Word.minus_eq_ok_iff]
      omega
    refine .inl ⟨hlt, ⟨last.clearLow unit⟩, ?_, ?_⟩
    · rw [hpast, Checked.ok_bind, hminus]
      rfl
    · rw [Word.roundUp?, hlast]
      rfl
  · have hge := Nat.le_of_not_lt hlt
    have hnone : a.word.plus? unit.toNat = none := Word.plus?_eq_none_iff.mpr hge
    refine .inr ⟨hge, ?_⟩
    rw [Word.plus, hnone]
    rfl

theorem alignUp_eq_error_iff (h : unit.IsPowerOfTwo) :
    a.alignUp unit = .error f ↔ f = .addOverflow ∧ 2 ^ 64 ≤ a.word.toNat + unit.toNat := by
  refine Checked.eq_error_iff ?_
  rcases a.alignUp_cases h with ⟨hlt, b, hb, -⟩ | hover
  · exact .inl ⟨Nat.not_le_of_lt hlt, b, hb⟩
  · exact .inr hover

/-- It gives what `Word.roundUp?` gives, but for the start of the last block. -/
theorem alignUp_eq_ok_iff (h : unit.IsPowerOfTwo) :
    a.alignUp unit = .ok b ↔
      a.word.toNat + unit.toNat ≠ 2 ^ 64 ∧ a.word.roundUp? unit = some b.word := by
  rcases a.alignUp_cases h with ⟨hlt, c, hc, hround⟩ | ⟨hge, hfault⟩
  · rw [hc, hround, Except.ok.injEq, Option.some.injEq, and_iff_right (Nat.ne_of_lt hlt)]
    exact ⟨congrArg Addr.word, fun hword => by cases c; cases b; exact congrArg Addr.mk hword⟩
  · rw [hfault]
    refine iff_of_false (fun hb => by cases hb) ?_
    rintro ⟨hne, hround⟩
    have hlt := ((Word.roundUp?_eq_some_iff h).mp hround).1
    omega

theorem alignDown_eq_ok_iff (h : unit.IsPowerOfTwo) :
    a.alignDown unit = .ok b ↔ a.word.clearLow unit = b.word := by
  rw [alignDown, if_pos h, Except.ok.injEq]
  exact ⟨congrArg Addr.word, fun hword => by cases b; exact congrArg Addr.mk hword⟩

theorem isAligned_eq_ok_iff (h : unit.IsPowerOfTwo) {aligned : Bool} :
    a.isAligned unit = .ok aligned ↔ (aligned = true ↔ unit.toNat ∣ a.word.toNat) := by
  rw [isAligned, if_pos h, Except.ok.injEq, ← Word.lowBits_eq_zero_iff h, Bool.eq_iff_iff,
    beq_iff_eq]
  exact iff_comm

/-- Rounding to a power of two is exact in every space. Down it gives the greatest multiple that is
not above the address. Up it gives the least that is not below, if that is a word, but it faults at
the start of the last block: the fault is the overflow of the address with a whole unit added. What
is aligned is what rounding down leaves alone, and, but for that start, what rounding up does; and
but for that start rounding up agrees with the rounding that pools use. -/
theorem align_exact (a : Addr s) (h : unit.IsPowerOfTwo) :
    (∃ d, a.alignDown unit = .ok d ∧
      IsGreatest {n | unit.toNat ∣ n ∧ n ≤ a.word.toNat} d.word.toNat) ∧
    (∀ u, a.alignUp unit = .ok u ↔ a.word.toNat + unit.toNat ≠ 2 ^ 64 ∧
      IsLeast {n | unit.toNat ∣ n ∧ a.word.toNat ≤ n} u.word.toNat) ∧
    (∀ f, a.alignUp unit = .error f ↔ f = .addOverflow ∧ 2 ^ 64 ≤ a.word.toNat + unit.toNat) ∧
    (∃ aligned, a.isAligned unit = .ok aligned ∧
      (aligned = true ↔ a.alignDown unit = .ok a) ∧
      (a.alignUp unit = .ok a ↔ a.word.toNat + unit.toNat ≠ 2 ^ 64 ∧ aligned = true)) ∧
    ∀ r, a.word.roundUp? unit = some r →
      (a.alignUp unit = .ok ⟨r⟩ ↔ a.word.toNat + unit.toNat ≠ 2 ^ 64) := by
  have hup (u : Addr s) : a.alignUp unit = .ok u ↔ a.word.toNat + unit.toNat ≠ 2 ^ 64 ∧
      IsLeast {n | unit.toNat ∣ n ∧ a.word.toNat ≤ n} u.word.toNat := by
    rw [alignUp_eq_ok_iff h, Word.roundUp?_eq_some_iff_isLeast h]
  have hself : IsLeast {n | unit.toNat ∣ n ∧ a.word.toNat ≤ n} a.word.toNat ↔
      unit.toNat ∣ a.word.toNat :=
    ⟨fun hleast => hleast.1.1, fun hd => ⟨⟨hd, Nat.le_refl _⟩, fun n hn => hn.2⟩⟩
  refine ⟨?_, hup, ?_, ?_, ?_⟩
  · exact ⟨_, (alignDown_eq_ok_iff h).mpr rfl, Word.isGreatest_clearLow _ h⟩
  · intro f
    exact alignUp_eq_error_iff h
  · refine ⟨decide (unit.toNat ∣ a.word.toNat), (isAligned_eq_ok_iff h).mpr decide_eq_true_iff,
      ?_, ?_⟩
    · rw [decide_eq_true_iff, alignDown_eq_ok_iff h, Word.clearLow_eq_self_iff h]
    · rw [decide_eq_true_iff, hup, hself]
  · intro r hr
    rw [alignUp_eq_ok_iff h]
    exact and_iff_left hr

/-- The last two pages of a space: an address inside the last but one is rounded up to the start of
the last, which is aligned, and from which rounding up faults. -/
theorem align_exact_last_page :
    (0x1000 : Word).IsPowerOfTwo ∧
    (⟨0xffffffffffffe001⟩ : PhysAddr).alignUp 0x1000 = .ok ⟨0xfffffffffffff000⟩ ∧
    (⟨0xfffffffffffff000⟩ : PhysAddr).isAligned 0x1000 = .ok true ∧
    (⟨0xfffffffffffff000⟩ : PhysAddr).alignDown 0x1000 = .ok ⟨0xfffffffffffff000⟩ ∧
    (⟨0xfffffffffffff000⟩ : PhysAddr).alignUp 0x1000 = .error .addOverflow := by
  have hpage : (0x1000 : Word).IsPowerOfTwo := ⟨12, rfl⟩
  obtain ⟨-, -, -, -, hround⟩ := align_exact (⟨0xffffffffffffe001⟩ : PhysAddr) hpage
  obtain ⟨-, -, hfault, ⟨aligned, haligned, hdown, -⟩, -⟩ :=
    align_exact (⟨0xfffffffffffff000⟩ : PhysAddr) hpage
  have htrue : aligned = true := (Except.ok.inj haligned).symm
  exact ⟨hpage, (hround 0xfffffffffffff000 (by decide)).mpr (by decide), htrue ▸ haligned,
    hdown.mp htrue, (hfault _).mpr ⟨rfl, by decide⟩⟩

/-- So rounding up does not give every multiple that it could. -/
theorem not_alignUp_isLeast :
    ¬ ∀ (s : Space) (a u : Addr s) (unit : Word), unit.IsPowerOfTwo →
      IsLeast {n | unit.toNat ∣ n ∧ a.word.toNat ≤ n} u.word.toNat → a.alignUp unit = .ok u := by
  intro hall
  have hpage : (0x1000 : Word).IsPowerOfTwo := ⟨12, rfl⟩
  have hup := hall .phys ⟨0xfffffffffffff000⟩ ⟨0xfffffffffffff000⟩ 0x1000 hpage
    ⟨⟨by decide, Nat.le_refl _⟩, fun n hn => hn.2⟩
  have hfault : (⟨0xfffffffffffff000⟩ : PhysAddr).alignUp 0x1000 = .error .addOverflow :=
    (alignUp_eq_error_iff hpage).mpr ⟨rfl, by decide⟩
  cases hup.symm.trans hfault

end Addr

end Aperture
