import Aperture.Fault

namespace Aperture

/-- An address, a size or a count of 64 bits. -/
abbrev Word := BitVec 64

def pageSize : Nat := 4096

namespace Word

def plus? (w : Word) (n : Nat) : Option Word :=
  if h : w.toNat + n < 0x10000000000000000 then some (.ofNatLT (w.toNat + n) h) else none

def plus (w : Word) (n : Nat) : Checked Word :=
  match w.plus? n with
  | some sum => .ok sum
  | none => .error .addOverflow

def minus (w : Word) (n : Nat) : Checked Word :=
  if n ≤ w.toNat then .ok (.ofNat 64 (w.toNat - n)) else .error .subOverflow

def times (w : Word) (n : Nat) : Checked Word :=
  if h : w.toNat * n < 0x10000000000000000 then .ok (.ofNatLT (w.toNat * n) h)
  else .error .mulOverflow

def larger (w v : Word) : Word := if w ≤ v then v else w

def smaller (w v : Word) : Word := if w ≤ v then w else v

def total (ws : List Word) : Checked Word :=
  ws.foldlM (fun sum w => plus sum w.toNat) 0

def total? (ws : List Word) : Option Word :=
  ws.foldlM (fun sum w => plus? sum w.toNat) 0

def IsPowerOfTwo (w : Word) : Prop := w.toNat.isPowerOfTwo

instance (w : Word) : Decidable w.IsPowerOfTwo :=
  inferInstanceAs (Decidable w.toNat.isPowerOfTwo)

/-- A boundary is zero, for none, or a power of two. -/
def IsBoundary (w : Word) : Prop := w = 0 ∨ w.IsPowerOfTwo

instance (w : Word) : Decidable w.IsBoundary :=
  inferInstanceAs (Decidable (_ ∨ _))

def lowBits (w unit : Word) : Word := w &&& (unit - 1)

/-- Clears the bits of `w` below the power of two `unit`. -/
def clearLow (w unit : Word) : Word := w &&& ~~~(unit - 1)

/-- Rounds up to a multiple of the power of two `unit`, if `unit - 1` can be added. -/
def roundUp? (w unit : Word) : Option Word :=
  (w.plus? (unit.toNat - 1)).map (clearLow · unit)

/-- The start of the `unit`-sized block after the one that holds `w`, if there is one. -/
def nextBlock? (w unit : Word) : Option Word :=
  plus? (w ||| (unit - 1)) 1

theorem eq_zero_iff {w : Word} : w = 0 ↔ w.toNat = 0 := BitVec.toNat_eq

theorem plus?_eq_some_iff {w s : Word} {n : Nat} : w.plus? n = some s ↔ s.toNat = w.toNat + n := by
  unfold plus?
  split
  · next h =>
    constructor
    · rintro ⟨⟩; simp
    · intro hs; exact congrArg some (BitVec.eq_of_toNat_eq (by simp [hs]))
  · have := s.isLt
    constructor
    · simp
    · omega

theorem plus?_eq_none_iff {w : Word} {n : Nat} :
    w.plus? n = none ↔ 0x10000000000000000 ≤ w.toNat + n := by
  unfold plus?
  split <;> simp <;> omega

theorem plus_eq_ok_iff {w s : Word} {n : Nat} : w.plus n = .ok s ↔ s.toNat = w.toNat + n := by
  rw [← plus?_eq_some_iff, plus]
  cases w.plus? n <;> simp

theorem plus_of_lt {w : Word} {n : Nat} (h : w.toNat + n < 0x10000000000000000) :
    ∃ s, w.plus n = .ok s ∧ s.toNat = w.toNat + n :=
  ⟨.ofNatLT _ h, plus_eq_ok_iff.mpr (BitVec.toNat_ofNatLT ..), BitVec.toNat_ofNatLT ..⟩

theorem minus_eq_ok_iff {w d : Word} {n : Nat} : w.minus n = .ok d ↔ d.toNat + n = w.toNat := by
  unfold minus
  split
  · next h =>
    constructor
    · rintro ⟨⟩
      simp only [BitVec.toNat_ofNat]
      omega
    · intro hd
      refine congrArg Except.ok (BitVec.eq_of_toNat_eq ?_)
      simp only [BitVec.toNat_ofNat]
      omega
  · simp
    omega

theorem times_eq_ok_iff {w p : Word} {n : Nat} : w.times n = .ok p ↔ p.toNat = w.toNat * n := by
  unfold times
  split
  · constructor
    · rintro ⟨⟩; simp
    · intro hp; exact congrArg Except.ok (BitVec.eq_of_toNat_eq (by simp [hp]))
  · have := p.isLt
    constructor
    · simp
    · omega

theorem toNat_lt_of_nextBlock? {w unit next : Word} (h : w.nextBlock? unit = some next) :
    w.toNat < next.toNat := by
  rw [nextBlock?, plus?_eq_some_iff, BitVec.toNat_or] at h
  have := Nat.left_le_or (n := w.toNat) (m := (unit - 1).toNat)
  omega

end Word

end Aperture
