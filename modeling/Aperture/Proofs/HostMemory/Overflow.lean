import Aperture.Proofs.HostMemory.Contract
import Aperture.Proofs.Session.Steps

namespace Aperture

namespace HostMemory

variable {first size length alignment boundary : Word} {p : Pool} {m : HostMemory}
  {lives : List (Run .phys)} {f : Fault}

/-- The lengths whose pages are too long lie within a page of the end of the words. -/
theorem rounded_lt_iff : rounded length < 2 ^ 64 ↔ length.toNat ≤ 2 ^ 64 - pageSize := by
  unfold rounded pagesFor pageSize
  omega

theorem times_pages_of_ge (hlong : ¬ rounded length < 2 ^ 64) :
    Word.times (.ofNat 64 (pagesFor length.toNat)) pageSize = .error .mulOverflow := by
  unfold Word.times
  rw [BitVec.toNat_ofNat, Nat.mod_eq_of_lt (pagesFor_lt length)]
  exact dif_neg hlong

/-- An allocation faults exactly if the length of its pages is no word. -/
theorem Holds.alloc_eq_error_iff (h : m.Holds first size lives p) :
    m.alloc length alignment boundary = .error f ↔
      f = .mulOverflow ∧ 2 ^ 64 - pageSize < length.toNat := by
  refine Checked.eq_error_iff ?_
  by_cases hfits : rounded length < 2 ^ 64
  · refine .inl ⟨Nat.not_lt.mpr (rounded_lt_iff.mp hfits), ?_⟩
    obtain ⟨o, m', hcall, -⟩ := h.alloc_cases hfits alignment boundary
    cases halloc : m.alloc length alignment boundary with
    | ok answer => exact ⟨answer, rfl⟩
    | error f =>
      rw [HostMemory.carryOut, halloc] at hcall
      cases hcall
  · refine .inr ⟨Nat.lt_of_not_le (mt rounded_lt_iff.mpr hfits), ?_⟩
    have htimes := times_pages_of_ge hfits
    unfold pagesFor at htimes
    unfold alloc
    rw [h.pool]
    dsimp only
    rw [htimes]
    rfl

end HostMemory

/-- A tag that accepts the alignment and the boundary faults where its host memory does. -/
theorem Tag.alloc_eq_error_iff {t : Tag} {length alignment boundary : Word} {f : Fault} :
    t.alloc length alignment boundary = .error f ↔
      (alignment.IsBoundary ∧ boundary.IsBoundary) ∧
        t.memory.alloc length alignment boundary = .error f := by
  unfold alloc
  by_cases haccepted : alignment.IsBoundary ∧ boundary.IsBoundary
  · rw [if_pos haccepted, and_iff_right haccepted]
    exact Checked.bind_eq_error_iff_of_ok fun answer => by cases answer <;> exact ⟨_, rfl⟩
  · rw [if_neg haccepted]
    exact iff_of_false (fun h => by cases h) fun h => haccepted h.1

theorem Session.step_alloc_eq_error_iff {s : Session} {t : Tag} {length alignment boundary : Word}
    {f : Fault} (ht : s.tag = some t) :
    s.step (.alloc length alignment boundary) = .error f ↔
      t.alloc length alignment boundary = .error f := by
  rw [step, run_of_tag ht]
  refine (Checked.bind_eq_error_iff_of_ok fun done => ⟨_, rfl⟩).trans ?_
  exact Checked.bind_eq_error_iff_of_ok fun allocated => ⟨_, rfl⟩

end Aperture
