import Aperture.Proofs.Ledger.Verdict

namespace Aperture

namespace Tag

variable {t : Tag} {m : Mapping} {p : Payload} {f : Fault} {o : Outcome}

/-- A load that faults has come to the end of the address space. -/
theorem Course.of_error (h : Course t m p (.error f)) :
    f = .addOverflow ∧ m.Admits p ∧ t.pool.last.toNat + 1 = 2 ^ 64 ∧
      ∃ b, t.FirstOffer m p.frames.length b ∧
        (t.rulesFor m).Overruns (b.stretches (t.memory.resolve p).runs) := by
  cases h with
  | @bound length b _ hadmits hb hroute =>
    cases hroute with
    | overrun hover htop =>
      have hbelow := hb.offered.below
      have hsize := hb.size
      have hlast := t.pool.last.isLt
      unfold Block.stop at htop
      exact ⟨rfl, hadmits, by omega, b, hb, hover⟩

theorem Course.not_overruns (h : Course t m p (.ok o)) (hadmits : m.Admits p) {b : Block}
    (hb : t.FirstOffer m p.frames.length b) :
    ¬ (t.rulesFor m).Overruns (b.stretches (t.memory.resolve p).runs) := by
  cases h with
  | declined hdeclines => exact absurd hadmits hdeclines.not_admits
  | noRoom _ hnone => exact absurd hb.offered (hnone b.start)
  | bound _ hc hroute =>
    obtain rfl := hb.unique hc
    cases hroute with
    | full hover => exact hover
    | done hover => exact hover

end Tag

namespace Ledger

variable {w : Ledger} {t : Tag} {name : String} {m : Mapping} {p : Payload}

/-- A load faults exactly if the payload is resolved and admitted, there is room for it, and some
range of it ends with the last byte of the address space before the segments are too many. So it
always comes to an end in an aperture that does not reach that far, and where there is no storage
for all runs. Pages are mapped as a whole, as for the verdict that is part of the condition. -/
theorem Reachable.load_faults_iff (hw : w.Reachable) (ht : w.session.tag = some t)
    (hdirect : t.memory.host.resolver = .direct) (hm : w.session.mapping? name = some m)
    (hnone : m.loaded = none) (hpaged : p.IsPaged) :
    ((∃ f, w.session.step (.act name (.load p)) = .error f) ↔
      t.memory.Resolves p ∧ m.Admits p ∧ ∃ b, t.FirstOffer m p.frames.length b ∧
        (t.rulesFor m).Overruns (b.stretches (t.memory.resolve p).runs)) ∧
    (∀ f, w.session.step (.act name (.load p)) = .error f → f = .addOverflow) ∧
    (t.pool.last.toNat + 1 < 2 ^ 64 → ∃ d, w.session.step (.act name (.load p)) = .ok d) := by
  rw [Session.step_load ht hm]
  by_cases hresolves : t.memory.Resolves p
  · have hcourse := hw.load_course ht hresolves hm hnone hpaged
    cases hload : t.load m p with
    | error f =>
      rw [hload] at hcourse
      obtain ⟨hf, hadmits, htop, hover⟩ := hcourse.of_error
      refine ⟨⟨fun _ => ⟨hresolves, hadmits, hover⟩, fun _ => ⟨f, rfl⟩⟩, fun f' hf' => ?_,
        fun hlt => ?_⟩
      · obtain rfl := Except.error.inj hf'
        exact hf
      · omega
    | ok o =>
      rw [hload] at hcourse
      refine ⟨⟨fun h => ?_, fun h => ?_⟩, fun f hf => ?_, fun _ => ⟨_, rfl⟩⟩
      · obtain ⟨f, hf⟩ := h
        cases hf
      · obtain ⟨-, hadmits, b, hb, hover⟩ := h
        exact absurd hover (hcourse.not_overruns hadmits hb)
      · cases hf
  · obtain ⟨o, ho⟩ :=
      Tag.load_isOk_of_failure hnone (HostMemory.failure_of_direct hdirect hresolves)
    rw [ho]
    refine ⟨⟨fun h => ?_, fun h => absurd h.1 hresolves⟩, fun f hf => ?_, fun _ => ⟨_, rfl⟩⟩
    · obtain ⟨f, hf⟩ := h
      cases hf
    · cases hf

/-- An aperture of the last page of the address space, and a payload of one page. -/
theorem fault_at_top :
    let payload : Payload := .raw [⟨⟨0x5000⟩, 0x1000⟩]
    ∃ (w : Ledger) (t : Tag) (m : Mapping),
      runFrom ⟨0xfffffffffffff000⟩ 0x1000 [.create "m" ⟨0x1000, 1, 0x1000, 0, {}⟩] = .ok w ∧
      w.session.tag = some t ∧ t.memory.host.resolver = .direct ∧
      w.session.mapping? "m" = some m ∧ m.loaded = none ∧ payload.IsPaged ∧
      w.session.step (.act "m" (.load payload)) = .error .addOverflow := by
  intro payload
  have hrun : (do
      let w ← runFrom ⟨0xfffffffffffff000⟩ 0x1000 [.create "m" ⟨0x1000, 1, 0x1000, 0, {}⟩]
      return (w.session.tag.isSome, (w.session.mapping? "m").map (·.loaded.isNone),
        (w.session.step (.act "m" (.load payload))).map fun _ => ()) : Checked _).toOption =
        some (true, some true, .error .addOverflow) := by decide +kernel
  obtain ⟨w, hw, hrun⟩ := Checked.bind_eq_ok.mp (Checked.eq_ok_of_toOption hrun)
  obtain ⟨hsome, hrest⟩ := Prod.mk.inj (Except.ok.inj hrun)
  obtain ⟨hmapping, hfault⟩ := Prod.mk.inj hrest
  obtain ⟨t, ht⟩ := Option.isSome_iff_exists.mp hsome
  obtain ⟨m, hm, hempty⟩ := Option.map_eq_some_iff.mp hmapping
  have hdirect : t.memory.host.resolver = .direct := by rw [host_of_runFrom hw ht]; rfl
  refine ⟨w, t, m, hw, ht, hdirect, hm, Option.isNone_iff_eq_none.mp hempty,
    fun _ hv => (by cases hv), ?_⟩
  cases hstep : w.session.step (.act "m" (.load payload)) with
  | error f =>
    rw [hstep] at hfault
    rw [Except.error.inj hfault]
  | ok d =>
    rw [hstep] at hfault
    cases hfault

/-- In that aperture the payload is admitted and there is room for it, but it fills the page. -/
theorem load_faults_at_top :
    let payload : Payload := .raw [⟨⟨0x5000⟩, 0x1000⟩]
    ∃ (w : Ledger) (t : Tag) (m : Mapping),
      runFrom ⟨0xfffffffffffff000⟩ 0x1000 [.create "m" ⟨0x1000, 1, 0x1000, 0, {}⟩] = .ok w ∧
      w.session.tag = some t ∧ t.memory.host.resolver = .direct ∧
      w.session.mapping? "m" = some m ∧ m.loaded = none ∧ payload.IsPaged ∧
      t.memory.Resolves payload ∧ m.Admits payload ∧
      ∃ b, t.FirstOffer m payload.frames.length b ∧
        (t.rulesFor m).Overruns (b.stretches (t.memory.resolve payload).runs) := by
  intro payload
  obtain ⟨w, t, m, hw, ht, hdirect, hm, hnone, hpaged, hstep⟩ := fault_at_top
  obtain ⟨hiff, -, -⟩ := (reachable_runFrom hw).load_faults_iff ht hdirect hm hnone hpaged
  obtain ⟨hresolves, hadmits, hover⟩ := hiff.mp ⟨_, hstep⟩
  exact ⟨w, t, m, hw, ht, hdirect, hm, hnone, hpaged, hresolves, hadmits, hover⟩

/-- So not every load comes to an end. -/
theorem not_load_total :
    ¬ ∀ (w : Ledger) (t : Tag) (name : String) (m : Mapping) (p : Payload), w.Reachable →
      w.session.tag = some t → t.memory.host.resolver = .direct →
      w.session.mapping? name = some m → m.loaded = none → p.IsPaged →
      ∃ d, w.session.step (.act name (.load p)) = .ok d := by
  intro htotal
  obtain ⟨w, t, m, hw, ht, hdirect, hm, hnone, hpaged, hstep⟩ := fault_at_top
  obtain ⟨d, hd⟩ := htotal w t "m" m _ (reachable_runFrom hw) ht hdirect hm hnone hpaged
  rw [hstep] at hd
  cases hd

end Ledger

end Aperture
