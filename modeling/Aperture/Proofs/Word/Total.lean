import Aperture.Word.Basic
import Mathlib.Algebra.Ring.Nat

namespace Aperture

namespace Word

variable {ws : List Word} {s n : Word}

theorem foldlM_plus?_eq_some_iff :
    ws.foldlM (fun sum w => plus? sum w.toNat) s = some n ↔
      n.toNat = s.toNat + (ws.map BitVec.toNat).sum := by
  induction ws generalizing s with
  | nil =>
    simp only [List.foldlM_nil, Option.pure_def, Option.some.injEq, List.map_nil, List.sum_nil,
      Nat.add_zero]
    exact ⟨fun h => congrArg BitVec.toNat h.symm, fun h => (BitVec.eq_of_toNat_eq h).symm⟩
  | cons w ws ih =>
    simp only [List.foldlM_cons, Option.bind_eq_bind, Option.bind_eq_some_iff, ih,
      plus?_eq_some_iff, List.map_cons, List.sum_cons]
    constructor
    · intro h
      obtain ⟨t, ht, hn⟩ := h
      omega
    · intro h
      have hlt := n.isLt
      have hfirst : (BitVec.ofNat 64 (s.toNat + w.toNat)).toNat = s.toNat + w.toNat := by
        rw [BitVec.toNat_ofNat]
        omega
      exact ⟨.ofNat 64 (s.toNat + w.toNat), hfirst, by rw [hfirst]; omega⟩

theorem foldlM_plus_eq_ok_iff :
    ws.foldlM (fun sum w => plus sum w.toNat) s = .ok n ↔
      ws.foldlM (fun sum w => plus? sum w.toNat) s = some n := by
  induction ws generalizing s with
  | nil => simp
  | cons w ws ih =>
    simp only [List.foldlM_cons, Checked.bind_eq_ok, Option.bind_eq_bind, Option.bind_eq_some_iff,
      ih, plus_eq_ok_iff, plus?_eq_some_iff]

theorem total?_eq_some_iff : total? ws = some n ↔ n.toNat = (ws.map BitVec.toNat).sum := by
  rw [total?, foldlM_plus?_eq_some_iff]
  simp

theorem total_eq_ok_iff : total ws = .ok n ↔ n.toNat = (ws.map BitVec.toNat).sum := by
  rw [← total?_eq_some_iff, total, total?]
  exact foldlM_plus_eq_ok_iff

end Word

end Aperture
