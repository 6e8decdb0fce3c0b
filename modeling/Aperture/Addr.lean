import Aperture.Word.Basic

namespace Aperture

inductive Space where
  | phys
  | bus
  | virt
deriving DecidableEq

namespace Space

/-- The name an address of this space is shown under. -/
def addrName : Space → String
  | phys => "PhysicalAddress"
  | bus => "BusAddress"
  | virt => "VirtualAddress"

def pageName : Space → String
  | phys => "FrameNumber"
  | bus | virt => "PageNumber"

end Space

structure Addr (s : Space) where
  word : Word
deriving DecidableEq

abbrev PhysAddr := Addr .phys
abbrev BusAddr := Addr .bus
abbrev VirtAddr := Addr .virt

/-- The number of a page: its start divided by the page size. -/
structure PageNo (s : Space) where
  word : Word
deriving DecidableEq

abbrev FrameNo := PageNo .phys

variable {s : Space}

namespace Addr

instance : Inhabited (Addr s) := ⟨⟨0⟩⟩

instance : Ord (Addr s) := ⟨fun a b => compare a.word.toNat b.word.toNat⟩

instance : ToString (Addr s) := ⟨fun a => hex a.word.toNat⟩

def describe (a : Addr s) : String :=
  s.addrName ++ "(" ++ toString a ++ ")"

def isAligned (a : Addr s) (unit : Word) : Checked Bool :=
  if unit.IsPowerOfTwo then .ok (a.word.lowBits unit == 0) else .error .alignment

def alignDown (a : Addr s) (unit : Word) : Checked (Addr s) :=
  if unit.IsPowerOfTwo then .ok ⟨a.word.clearLow unit⟩ else .error .alignment

/-- Rounds up by adding the whole unit first, so an address in the last block of the space has no
aligned successor even when it is aligned itself. -/
def alignUp (a : Addr s) (unit : Word) : Checked (Addr s) :=
  if unit.IsPowerOfTwo then do
    let past ← a.word.plus unit.toNat
    let last ← past.minus 1
    return ⟨last.clearLow unit⟩
  else .error .alignment

def pageOffset (a : Addr s) : Nat :=
  a.word.toNat % pageSize

def pageBase (a : Addr s) : Addr s :=
  ⟨a.word.clearLow 4096⟩

def pageNo (a : Addr s) : PageNo s :=
  ⟨a.word / 4096⟩

def plus? (a : Addr s) (n : Nat) : Option (Addr s) :=
  (a.word.plus? n).map Addr.mk

def plus (a : Addr s) (n : Nat) : Checked (Addr s) :=
  (a.word.plus n).map Addr.mk

def minus (a : Addr s) (n : Nat) : Checked (Addr s) :=
  (a.word.minus n).map Addr.mk

def distance (a b : Addr s) : Checked Word :=
  a.word.minus b.word.toNat

/-- The start of the next `boundary`-sized block, if there is one. -/
def nextBoundary (a : BusAddr) (boundary : Word) : Checked (Option BusAddr) :=
  if boundary.IsPowerOfTwo then .ok ((a.word.nextBlock? boundary).map Addr.mk)
  else .error .boundary

theorem plus?_eq_some_iff {a b : Addr s} {n : Nat} :
    a.plus? n = some b ↔ b.word.toNat = a.word.toNat + n := by
  simp only [plus?, Option.map_eq_some_iff]
  constructor
  · rintro ⟨w, hw, rfl⟩
    exact Word.plus?_eq_some_iff.mp hw
  · intro h
    exact ⟨b.word, Word.plus?_eq_some_iff.mpr h, rfl⟩

theorem plus_eq_ok_iff {a b : Addr s} {n : Nat} :
    a.plus n = .ok b ↔ b.word.toNat = a.word.toNat + n := by
  rw [← plus?_eq_some_iff, plus, plus?, Word.plus]
  cases a.word.plus? n <;> simp [Except.map]

theorem plus_of_lt {a : Addr s} {n : Nat} (h : a.word.toNat + n < 0x10000000000000000) :
    ∃ b, a.plus n = .ok b ∧ b.word.toNat = a.word.toNat + n :=
  ⟨⟨.ofNatLT _ h⟩, plus_eq_ok_iff.mpr (BitVec.toNat_ofNatLT ..), BitVec.toNat_ofNatLT ..⟩

theorem plus_of_ge {a : Addr s} {n : Nat} (h : 0x10000000000000000 ≤ a.word.toNat + n) :
    a.plus n = .error .addOverflow := by
  have hnone : a.word.plus? n = none := Word.plus?_eq_none_iff.mpr h
  rw [plus, Word.plus, hnone]
  rfl

end Addr

namespace PageNo

instance : ToString (PageNo s) := ⟨fun p => toString p.word.toNat⟩

def describe (p : PageNo s) : String :=
  s.pageName ++ "(" ++ hex p.word.toNat ++ ")"

def start (p : PageNo s) : Checked (Addr s) :=
  (p.word.times pageSize).map Addr.mk

def stop (p : PageNo s) : Checked (Addr s) := do
  let next ← p.word.plus 1
  (next.times pageSize).map Addr.mk

def plus (p : PageNo s) (n : Nat) : Checked (PageNo s) :=
  (p.word.plus n).map PageNo.mk

def distance (p q : PageNo s) : Checked Word :=
  p.word.minus q.word.toNat

end PageNo

end Aperture
