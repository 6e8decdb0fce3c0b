import Aperture.Proofs.HostMemory.Overflow
import Aperture.Proofs.Session.Changes

namespace Aperture

namespace Ledger

/-- Whatever was allocated and freed before, an allocation faults exactly if the length of its pages
is no word, and every other comes to an end: made directly, or with a tag that has the memory,
whatever was done with it, as long as the tag accepts the alignment and the boundary. -/
theorem alloc_faults_iff {first size : Word} {p : Pool} {host : Host}
    {calls : List HostMemory.Call} {outcomes : List HostMemory.Outcome} {m : HostMemory}
    (hpool : Pool.new first size = .ok p)
    (hcalls : HostMemory.runAll ⟨some p, host⟩ calls = .ok (outcomes, m)) :
    (∀ length alignment boundary f, m.alloc length alignment boundary = .error f ↔
      f = .mulOverflow ∧ 2 ^ 64 - pageSize < length.toNat) ∧
    ∀ name aperture table cache s events, Session.new name aperture table m cache = .ok (s, events) →
      ∀ (cs : List Command) (w : Ledger) (t : Tag), (start s).runAll cs = .ok w →
        w.session.tag = some t → ∀ length alignment boundary f,
          w.session.step (.alloc length alignment boundary) = .error f ↔
            (alignment.IsBoundary ∧ boundary.IsBoundary) ∧
              f = .mulOverflow ∧ 2 ^ 64 - pageSize < length.toNat := by
  obtain ⟨q, h⟩ := (HostMemory.holds_new hpool host).runAll hcalls
  refine ⟨fun length alignment boundary f => h.alloc_eq_error_iff, ?_⟩
  intro name aperture table cache s events hnew cs w t hrun ht length alignment boundary f
  obtain ⟨-, t₀, ht₀, -, rfl⟩ := lawful_start hnew
  obtain ⟨t₁, later, answers, ht₁, hlater⟩ := memory_runAll hrun ht
  obtain rfl := Option.some.inj (ht₀.symm.trans ht₁)
  obtain ⟨_, hlives⟩ := h.runAll hlater
  rw [Session.step_alloc_eq_error_iff ht, Tag.alloc_eq_error_iff, hlives.alloc_eq_error_iff]

/-- Of four pages two are handed out. All lengths up to the last page of the words are answered, and
the largest is not, although there is no room for either. -/
theorem alloc_faults_beyond_last_page :
    let calls : List HostMemory.Call := [.alloc 0x1001 0 0x2000]
    let cs : List Command := [.alloc 1 0 0, .free ⟨⟨0x1000⟩, 0x1000⟩]
    ∃ (p : Pool) (outcomes : List HostMemory.Outcome) (m : HostMemory) (s : Session)
      (events : List Event) (w : Ledger) (t : Tag),
      Pool.new 0x1000 0x4000 = .ok p ∧
      HostMemory.runAll ⟨some p, .plain⟩ calls = .ok (outcomes, m) ∧
      Session.new "plain" (some (⟨0x10000⟩, 0x10000)) none m none = .ok (s, events) ∧
      (start s).runAll cs = .ok w ∧ w.session.tag = some t ∧
      HostMemory.live outcomes = [⟨⟨0x2000⟩, 0x2000⟩] ∧
      m.alloc 0xffffffffffffffff 0 0 = .error .mulOverflow ∧
      w.session.step (.alloc 0xffffffffffffffff 0 0) = .error .mulOverflow ∧
      ∀ f, w.session.step (.alloc 0xfffffffffffff000 0 0) ≠ .error f := by
  intro calls cs
  have hrun : (do
      let p ← Pool.new 0x1000 0x4000
      let called ← HostMemory.runAll ⟨some p, .plain⟩ calls
      let made ← Session.new "plain" (some (⟨0x10000⟩, 0x10000)) none called.2 none
      let w ← (start made.1).runAll cs
      return decide (w.session.tag.isSome ∧ HostMemory.live called.1 = [⟨⟨0x2000⟩, 0x2000⟩]) :
        Checked _).toOption = some true := by decide +kernel
  obtain ⟨p, hpool, hrun⟩ := Checked.bind_eq_ok.mp (Checked.eq_ok_of_toOption hrun)
  obtain ⟨⟨outcomes, m⟩, hcalls, hrun⟩ := Checked.bind_eq_ok.mp hrun
  obtain ⟨⟨s, events⟩, hnew, hrun⟩ := Checked.bind_eq_ok.mp hrun
  obtain ⟨w, hall, hrun⟩ := Checked.bind_eq_ok.mp hrun
  obtain ⟨hsome, hlive⟩ := of_decide_eq_true (Except.ok.inj hrun)
  obtain ⟨t, ht⟩ := Option.isSome_iff_exists.mp hsome
  obtain ⟨hdirect, hsession⟩ := alloc_faults_iff hpool hcalls
  have hstep := hsession _ _ _ _ _ _ hnew cs w t hall ht
  have hnone : (0 : Word).IsBoundary := .inl rfl
  refine ⟨p, outcomes, m, s, events, w, t, hpool, hcalls, hnew, hall, ht, hlive,
    (hdirect _ _ _ _).mpr ⟨rfl, by decide⟩, (hstep _ _ _ _).mpr ⟨⟨hnone, hnone⟩, rfl, by decide⟩,
    fun f hf => ?_⟩
  exact absurd ((hstep _ _ _ _).mp hf).2.2 (by decide)

/-- So not every allocation comes to an end. -/
theorem not_alloc_total :
    ¬ ∀ (first size : Word) (p : Pool) (host : Host) (calls : List HostMemory.Call)
      (outcomes : List HostMemory.Outcome) (m : HostMemory) (length alignment boundary : Word),
      Pool.new first size = .ok p →
      HostMemory.runAll ⟨some p, host⟩ calls = .ok (outcomes, m) →
      ∃ answer, m.alloc length alignment boundary = .ok answer := by
  intro htotal
  have hpool : Pool.new 0x1000 0x4000 = .ok ⟨0x1000, 0x4000, by decide, by decide, []⟩ := rfl
  obtain ⟨answer, hanswer⟩ :=
    htotal 0x1000 0x4000 _ .plain [] [] _ 0xffffffffffffffff 0 0 hpool rfl
  have hfault : (HostMemory.alloc ⟨some ⟨0x1000, 0x4000, by decide, by decide, []⟩, .plain⟩
      0xffffffffffffffff 0 0).isOk = false := by decide +kernel
  rw [hanswer] at hfault
  cases hfault

end Ledger

end Aperture
