import Aperture.Addr

namespace Aperture

structure Run (s : Space) where
  addr : Addr s
  length : Word
deriving DecidableEq

namespace Run

variable {s : Space}

def stop (r : Run s) : Checked (Addr s) :=
  r.addr.plus r.length.toNat

def isEmpty (r : Run s) : Bool := r.length == 0

def bytes (r : Run s) : List Nat :=
  List.range' r.addr.word.toNat r.length.toNat

/-- The run does not reach into a second page. -/
def InPage (r : Run .phys) : Prop := r.addr.pageOffset + r.length.toNat ≤ pageSize

theorem isEmpty_iff {r : Run s} : r.isEmpty = true ↔ r.length.toNat = 0 := by
  rw [isEmpty, beq_iff_eq, Word.eq_zero_iff]

theorem bytes_eq_nil {r : Run s} (h : r.isEmpty = true) : r.bytes = [] := by
  rw [bytes, isEmpty_iff.mp h]
  rfl

theorem isEmpty_eq_false_iff {r : Run s} : r.isEmpty = false ↔ 0 < r.length.toNat := by
  rw [← Bool.not_eq_true, isEmpty_iff, Nat.pos_iff_ne_zero]

end Run

end Aperture
