import Aperture.Proofs.ByteSize.Text

namespace Aperture

namespace ByteSize

variable {n m : Nat}

theorem shiftRight_ne_zero_iff {k : Nat} : n >>> k ≠ 0 ↔ 2 ^ k ≤ n := by
  rw [Nat.shiftRight_eq_div_pow, ne_eq, Nat.div_eq_zero_iff_lt (Nat.two_pow_pos k), Nat.not_lt]

theorem unitFrom_lt {unit : Nat} (h : unit < unitNames.length) :
    unitFrom n unit < unitNames.length := by
  induction unit using unitFrom.induct n with
  | case1 unit hnext ih =>
    rw [unitFrom, if_pos hnext]
    exact ih hnext.1
  | case2 unit hlast =>
    rw [unitFrom, if_neg hlast]
    exact h

theorem pow_unitFrom_le {unit : Nat} (h : 2 ^ (10 * unit) ≤ n) :
    2 ^ (10 * unitFrom n unit) ≤ n := by
  induction unit using unitFrom.induct n with
  | case1 unit hnext ih =>
    rw [unitFrom, if_pos hnext]
    exact ih (shiftRight_ne_zero_iff.mp hnext.2)
  | case2 unit hlast =>
    rw [unitFrom, if_neg hlast]
    exact h

/-- Going up ends where the next unit is above the number, or has no name. -/
theorem lt_pow_unitFrom {unit : Nat} (hname : unitFrom n unit + 1 < unitNames.length) :
    n < 2 ^ (10 * (unitFrom n unit + 1)) := by
  induction unit using unitFrom.induct n with
  | case1 unit hnext ih =>
    rw [unitFrom, if_pos hnext] at hname ⊢
    exact ih hname
  | case2 unit hlast =>
    rw [unitFrom, if_neg hlast] at hname ⊢
    by_contra hge
    exact hlast ⟨hname, shiftRight_ne_zero_iff.mpr (Nat.le_of_not_lt hge)⟩

theorem unitOf_lt (n : Nat) : unitOf n < unitNames.length := unitFrom_lt (by decide)

/-- The unit is not above the number, unless it is the byte. -/
theorem pow_unitOf_le (h : 0 < n) : 2 ^ (10 * unitOf n) ≤ n := pow_unitFrom_le h

theorem lt_pow_unitOf (h : n < 2 ^ 64) : n < 2 ^ (10 * unitOf n + 10) := by
  by_cases hname : unitOf n + 1 < unitNames.length
  · exact lt_pow_unitFrom hname
  · have hnames : unitNames.length = 7 := rfl
    have hlast : 64 ≤ 10 * unitOf n + 10 := by omega
    exact Nat.lt_of_lt_of_le h (Nat.pow_le_pow_right (by decide) hlast)

theorem whole_ofNat (n : Nat) : (ofNat n).whole = n / 2 ^ (10 * unitOf n) :=
  Nat.shiftRight_eq_div_pow ..

theorem hundredths_ofNat (n : Nat) : (ofNat n).hundredths =
    100 * (n % 2 ^ (10 * unitOf n)) / 2 ^ (10 * unitOf n) := by
  have hdef : (ofNat n).hundredths =
      (n % (1 <<< (10 * unitOf n)) * 100) >>> (10 * unitOf n) := rfl
  rw [hdef, Nat.shiftRight_eq_div_pow, Nat.one_shiftLeft, Nat.mul_comm]

theorem hundredths_ofNat_lt (n : Nat) : (ofNat n).hundredths < 100 := by
  rw [hundredths_ofNat, Nat.div_lt_iff_lt_mul (Nat.two_pow_pos _)]
  exact Nat.mul_lt_mul_of_pos_left (Nat.mod_lt _ (Nat.two_pow_pos _)) (by decide)

theorem whole_ofNat_lt (h : n < 2 ^ 64) : (ofNat n).whole < 1024 := by
  rw [whole_ofNat, Nat.div_lt_iff_lt_mul (Nat.two_pow_pos _)]
  calc n < 2 ^ (10 * unitOf n + 10) := lt_pow_unitOf h
    _ = 1024 * 2 ^ (10 * unitOf n) := by rw [Nat.pow_add, Nat.mul_comm]

theorem whole_ofNat_pos (h : 0 < n) : 0 < (ofNat n).whole := by
  rw [whole_ofNat]
  exact Nat.div_pos (pow_unitOf_le h) (Nat.two_pow_pos _)

theorem hundredfold_ofNat (n : Nat) : (ofNat n).hundredfold =
    100 * n / 2 ^ (10 * unitOf n) * 2 ^ (10 * unitOf n) := by
  have hunit : (ofNat n).unit = unitOf n := rfl
  rw [hundredfold, Nat.shiftLeft_eq, hunit, whole_ofNat, hundredths_ofNat]
  have hpos := Nat.two_pow_pos (10 * unitOf n)
  generalize 2 ^ (10 * unitOf n) = u at hpos
  have hsplit : 100 * n = u * (100 * (n / u)) + 100 * (n % u) := by
    rw [Nat.mul_left_comm, ← Nat.mul_add, Nat.div_add_mod]
  rw [hsplit, Nat.mul_add_div hpos]

theorem hundredfold_ofNat_le (n : Nat) : (ofNat n).hundredfold ≤ 100 * n := by
  rw [hundredfold_ofNat]
  exact Nat.div_mul_le_self _ _

theorem lt_hundredfold_ofNat_add (n : Nat) :
    100 * n < (ofNat n).hundredfold + 2 ^ (10 * unitOf n) := by
  rw [hundredfold_ofNat]
  exact Nat.lt_div_mul_add (Nat.two_pow_pos _)

theorem hundredfold_ofNat_of_dvd (h : 2 ^ (10 * unitOf n) ∣ n) :
    (ofNat n).hundredfold = 100 * n := by
  rw [hundredfold_ofNat]
  exact Nat.div_mul_cancel (Nat.dvd_mul_left_of_dvd h 100)

theorem le_hundredfold_ofNat (h : 0 < n) : 100 * 2 ^ (10 * unitOf n) ≤ (ofNat n).hundredfold := by
  rw [hundredfold_ofNat]
  refine Nat.mul_le_mul_right _ ((Nat.le_div_iff_mul_le (Nat.two_pow_pos _)).mpr ?_)
  exact Nat.mul_le_mul_left _ (pow_unitOf_le h)

/-- Cutting off keeps the order, also where the unit changes. -/
theorem hundredfold_ofNat_mono (hm : m < 2 ^ 64) (h : n ≤ m) :
    (ofNat n).hundredfold ≤ (ofNat m).hundredfold := by
  rcases Nat.eq_zero_or_pos n with rfl | hn
  · exact Nat.le_trans (hundredfold_ofNat_le 0) (Nat.zero_le _)
  rcases Nat.lt_trichotomy (unitOf n) (unitOf m) with hlt | heq | hgt
  · -- the text of the larger number starts with a whole unit, which the smaller number is below
    have hunits : 10 * unitOf n + 10 ≤ 10 * unitOf m := by omega
    calc (ofNat n).hundredfold ≤ 100 * n := hundredfold_ofNat_le n
      _ ≤ 100 * 2 ^ (10 * unitOf n + 10) :=
        Nat.mul_le_mul_left _ (Nat.le_of_lt (lt_pow_unitOf (Nat.lt_of_le_of_lt h hm)))
      _ ≤ 100 * 2 ^ (10 * unitOf m) :=
        Nat.mul_le_mul_left _ (Nat.pow_le_pow_right (by decide) hunits)
      _ ≤ (ofNat m).hundredfold := le_hundredfold_ofNat (Nat.lt_of_lt_of_le hn h)
  · rw [hundredfold_ofNat, hundredfold_ofNat, heq]
    exact Nat.mul_le_mul_right _ (Nat.div_le_div_right (Nat.mul_le_mul_left _ h))
  · have hunits : 10 * unitOf m + 10 ≤ 10 * unitOf n := by omega
    have hle := Nat.pow_le_pow_right (n := 2) (by decide) hunits
    have hbelow := lt_pow_unitOf hm
    have habove := pow_unitOf_le hn
    omega

theorem spells_sizeText (w : Word) : Spells (sizeText w) (ofNat w.toNat) :=
  spells_toString (hundredths_ofNat_lt _) (unitOf_lt _)

/-- The text of a size spells one number of bytes, in one of the units. Its whole part is below
1024, and not zero if the size is not. It is not above the size, and less than a hundredth of the
unit below; it is the size where that is whole units, as bytes always are. A larger size has a text
that spells no less. -/
theorem sizeText_exact :
    (∀ w : Word, ∃ b, Spells (sizeText w) b ∧ (∀ c, Spells (sizeText w) c → c = b) ∧
      b.whole < 1024 ∧ (1 ≤ w.toNat → 1 ≤ b.whole) ∧
      b.hundredfold ≤ 100 * w.toNat ∧ 100 * w.toNat < b.hundredfold + 1024 ^ b.unit ∧
      (1024 ^ b.unit ∣ w.toNat → b.hundredfold = 100 * w.toNat)) ∧
    ∀ (w v : Word) (b c : ByteSize), w ≤ v → Spells (sizeText w) b → Spells (sizeText v) c →
      b.hundredfold ≤ c.hundredfold := by
  refine ⟨fun w => ?_, fun w v b c hle hb hc => ?_⟩
  · have hspells := spells_sizeText w
    have hunit : 1024 ^ (ofNat w.toNat).unit = 2 ^ (10 * unitOf w.toNat) := by
      rw [Nat.pow_mul]
      rfl
    refine ⟨ofNat w.toNat, hspells, fun c => hspells.unique, whole_ofNat_lt w.isLt,
      whole_ofNat_pos, hundredfold_ofNat_le _, ?_, ?_⟩
    · rw [hunit]
      exact lt_hundredfold_ofNat_add _
    · rw [hunit]
      exact hundredfold_ofNat_of_dvd
  · obtain rfl := (spells_sizeText w).unique hb
    obtain rfl := (spells_sizeText v).unique hc
    exact hundredfold_ofNat_mono v.isLt (BitVec.le_def.mp hle)

/-- The last size below an exbibyte, and the largest that there is. -/
theorem sizeText_exact_at_top :
    (0xfffffffffffffff : Word) ≤ 0xffffffffffffffff ∧
    sizeText 0xfffffffffffffff = "1023.99PiB" ∧ sizeText 0xffffffffffffffff = "15.99EiB" ∧
    ∃ b c, Spells "1023.99PiB" b ∧ Spells "15.99EiB" c ∧ b.hundredfold ≤ c.hundredfold ∧
      100 * 0xffffffffffffffff < c.hundredfold + 1024 ^ c.unit := by
  have hle : (0xfffffffffffffff : Word) ≤ 0xffffffffffffffff := by decide
  have hsmall : sizeText 0xfffffffffffffff = "1023.99PiB" := by decide +kernel
  have hlarge : sizeText 0xffffffffffffffff = "15.99EiB" := by decide +kernel
  obtain ⟨hspelled, hordered⟩ := sizeText_exact
  obtain ⟨b, hb, -⟩ := hspelled 0xfffffffffffffff
  obtain ⟨c, hc, -, -, -, -, hnear, -⟩ := hspelled 0xffffffffffffffff
  have hmono := hordered _ _ b c hle hb hc
  rw [hsmall] at hb
  rw [hlarge] at hc
  exact ⟨hle, hsmall, hlarge, b, c, hb, hc, hmono, hnear⟩

end ByteSize

end Aperture
