import Aperture.Layout
import Aperture.Table.Entry
import Mathlib.Tactic.IntervalCases

namespace Aperture

theorem toNat_append_eq {n k : Nat} (x : BitVec n) (y : BitVec k) :
    (x ++ y).toNat = x.toNat * 2 ^ k + y.toNat := by
  rw [BitVec.toNat_append, ← Nat.shiftLeft_add_eq_or_of_lt y.isLt, Nat.shiftLeft_eq]

theorem PageNo.pageOffset_base {s : Space} (f : PageNo s) : f.base.pageOffset = 0 := by
  show f.base.word.toNat % 4096 = 0
  have hword : f.base.word.toNat = f.word.toNat * 4096 % 2 ^ 64 := BitVec.toNat_ofNat ..
  rw [hword]
  omega

namespace Entry

variable {a : PhysAddr} {coherent : Bool}

/-- The two fields of an entry that hold address bits. -/
def low (e : Entry) : Nat := e.bits.toNat / 4096 % 1048576

def high (e : Entry) : Nat := e.bits.toNat / 16 % 16

/-- Masked and shifted, the fields of an address lie beside one another: its bits 12 to 31, four
zeros, its bits 32 to 35, a zero, the two cache bits and the valid bit. -/
theorem bits_encode (a : PhysAddr) (coherent : Bool) :
    (encode a coherent).bits = a.word.extractLsb' 12 20 ++ 0#4 ++ a.word.extractLsb' 32 4 ++ 0#1 ++
      (if coherent then 3#2 else 0#2) ++ 1#1 := by
  apply BitVec.eq_of_getLsbD_eq
  intro i hi
  simp only [encode, BitVec.getLsbD_or, BitVec.getLsbD_and, BitVec.getLsbD_setWidth,
    BitVec.getLsbD_ushiftRight, BitVec.getLsbD_append, BitVec.getLsbD_extractLsb', hi]
  interval_cases i <;> cases coherent <;> simp [lowMask, highMask, cacheMask, validBit]

/-- So do those of an entry, in the address that it has. -/
theorem address?_of_isValid {e : Entry} (h : e.isValid) : e.address? =
    some ⟨0#28 ++ e.bits.extractLsb' 4 4 ++ e.bits.extractLsb' 12 20 ++ 0#12⟩ := by
  rw [address?, if_pos h]
  refine congrArg (fun w => some (Addr.mk w)) (BitVec.eq_of_getLsbD_eq fun i hi => ?_)
  simp only [BitVec.getLsbD_or, BitVec.getLsbD_and, BitVec.getLsbD_setWidth,
    BitVec.getLsbD_shiftLeft, BitVec.getLsbD_append, BitVec.getLsbD_extractLsb', hi]
  interval_cases i <;> simp [lowMask, highMask]

theorem and_cacheMask (e : Entry) :
    e.bits &&& cacheMask = 0#29 ++ e.bits.extractLsb' 1 2 ++ 0#1 := by
  apply BitVec.eq_of_getLsbD_eq
  intro i hi
  simp only [BitVec.getLsbD_and, BitVec.getLsbD_append, BitVec.getLsbD_extractLsb']
  interval_cases i <;> simp [cacheMask]

theorem toNat_bits_encode (a : PhysAddr) (coherent : Bool) :
    (encode a coherent).bits.toNat = a.word.toNat / 4096 % 1048576 * 4096 +
      a.word.toNat / 4294967296 % 16 * 16 + (if coherent then 6 else 0) + 1 := by
  rw [bits_encode]
  show (_ ++ _ ++ _ ++ _ ++ _ ++ _ : BitVec (20 + 4 + 4 + 1 + 2 + 1)).toNat = _
  simp only [toNat_append_eq, BitVec.extractLsb'_toNat, Nat.shiftRight_eq_div_pow]
  cases coherent <;> simp <;> omega

theorem low_encode (a : PhysAddr) (coherent : Bool) :
    (encode a coherent).low = a.word.toNat / 4096 % 1048576 := by
  have hbits := toNat_bits_encode a coherent
  generalize a.word.toNat / 4096 = page at hbits ⊢
  unfold low
  split at hbits <;> omega

theorem high_encode (a : PhysAddr) (coherent : Bool) :
    (encode a coherent).high = a.word.toNat / 4294967296 % 16 := by
  have hbits := toNat_bits_encode a coherent
  generalize a.word.toNat / 4294967296 = top at hbits ⊢
  unfold high
  split at hbits <;> omega

theorem isValid_iff (e : Entry) : e.isValid ↔ e.bits.toNat % 2 = 1 := by
  have hbit : (e.bits &&& validBit).toNat = e.bits.toNat % 2 := Nat.and_one_is_mod _
  rw [isValid, bne_iff_ne, ne_eq, ← BitVec.toNat_inj, hbit]
  exact Nat.mod_two_ne_zero

theorem isSnooped_iff (e : Entry) : e.isSnooped ↔ e.bits.toNat / 2 % 4 = 3 := by
  have hbits : (e.bits &&& cacheMask).toNat = e.bits.toNat / 2 % 4 * 2 := by
    rw [and_cacheMask]
    show (_ ++ _ ++ _ : BitVec (29 + 2 + 1)).toNat = _
    simp only [toNat_append_eq, BitVec.extractLsb'_toNat, Nat.shiftRight_eq_div_pow]
    show (0 * 4 + e.bits.toNat / 2 % 4) * 2 + 0 = _
    omega
  rw [isSnooped, beq_iff_eq, ← BitVec.toNat_inj, hbits]
  show e.bits.toNat / 2 % 4 * 2 = 6 ↔ _
  omega

theorem address?_eq {e : Entry} (h : e.isValid) {a : PhysAddr}
    (ha : a.word.toNat = (e.high * 1048576 + e.low) * 4096) : e.address? = some a := by
  rw [address?_of_isValid h]
  refine congrArg (fun w => some (Addr.mk w)) (BitVec.eq_of_toNat_eq ?_)
  show (_ ++ _ ++ _ ++ _ : BitVec (28 + 4 + 20 + 12)).toNat = _
  simp only [toNat_append_eq, BitVec.extractLsb'_toNat, Nat.shiftRight_eq_div_pow]
  rw [ha]
  show ((0 * 16 + e.high) * 1048576 + e.low) * 4096 + 0 = _
  omega

theorem isValid_encode (a : PhysAddr) (coherent : Bool) : (encode a coherent).isValid := by
  rw [isValid_iff, toNat_bits_encode]
  split <;> omega

theorem isSnooped_encode (a : PhysAddr) (coherent : Bool) :
    (encode a coherent).isSnooped ↔ coherent := by
  rw [isSnooped_iff, toNat_bits_encode]
  cases coherent <;> simp <;> omega

/-- Reading the address of an entry back gives the page it was made for. -/
theorem address?_encode (ha : a.pageOffset = 0) (hlt : a.word.toNat < 2 ^ addressBits)
    (coherent : Bool) : (encode a coherent).address? = some a := by
  have hoffset : a.word.toNat % 4096 = 0 := ha
  have hlt : a.word.toNat < 68719476736 := hlt
  refine address?_eq (isValid_encode a coherent) ?_
  rw [low_encode, high_encode]
  omega

/-- Shifting out the bits that can be encoded leaves none of an address below them. -/
theorem shiftRight_addressBits_iff {a : PhysAddr} :
    a.word >>> addressBits = 0 ↔ a.word.toNat < 2 ^ addressBits := by
  rw [← BitVec.toNat_inj, BitVec.toNat_ushiftRight, Nat.shiftRight_eq_div_pow]
  exact Nat.div_eq_zero_iff_lt (Nat.two_pow_pos _)

theorem ofPage?_eq_some_iff {e : Entry} : ofPage? a coherent = some e ↔
    a.pageOffset = 0 ∧ a.word.toNat < 2 ^ addressBits ∧ e = encode a coherent := by
  unfold ofPage?
  simp only [shiftRight_addressBits_iff]
  split
  · next h =>
    rw [Option.some.injEq, eq_comm]
    exact ⟨fun he => ⟨h.1, h.2, he⟩, fun h => h.2.2⟩
  · next h => exact ⟨nofun, fun h' => absurd ⟨h'.1, h'.2.1⟩ h⟩

theorem isValid_of_ofPage? {e : Entry} (h : ofPage? a coherent = some e) : e.isValid := by
  obtain ⟨-, -, rfl⟩ := ofPage?_eq_some_iff.mp h
  exact isValid_encode a coherent

theorem ofPage?_base_eq_none_iff {f : FrameNo} :
    ofPage? f.base coherent = none ↔ 2 ^ addressBits ≤ f.base.word.toNat := by
  unfold ofPage?
  simp only [shiftRight_addressBits_iff]
  split
  · next h => exact ⟨nofun, fun hle => absurd h.2 (Nat.not_lt.mpr hle)⟩
  · next h =>
    refine ⟨fun _ => ?_, fun _ => rfl⟩
    exact Nat.le_of_not_lt fun hlt => h ⟨f.pageOffset_base, hlt⟩

end Entry

end Aperture
