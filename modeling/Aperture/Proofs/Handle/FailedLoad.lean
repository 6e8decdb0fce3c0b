import Aperture.Proofs.Handle.Alike
import Aperture.Proofs.Ledger.FailedLoad

namespace Aperture

namespace Bench

variable {b : Bench} {t : Tag} {name : String} {p : Payload} {d : BenchStep}

/-- After a load that is refused, for whatever reason, the tag and what is bound are what they were,
and so are all other handles. The handle that was to be loaded holds nothing and looks as before,
and no later command, other than for an entry of the table, is answered or carried out otherwise
than it would have been without the load. -/
theorem Reachable.failedLoad {calls : List TableCall} (hb : b.Reachable calls)
    (ht : b.tag = some t) (h : b.step (.act name (.load p)) = .ok d) {reason : Refusal}
    (hrefused : d.reply = .refused reason) :
    d.bench.tag = some t ∧
      Bindings.empty.applyAll (calls ++ Event.tableCalls d.events) =
        Bindings.empty.applyAll calls ∧
      (∀ other, other ≠ name → d.bench.handle? other = b.handle? other) ∧
      (∃ before after, b.handle? name = some before ∧ d.bench.handle? name = some after ∧
        after.IsIdle ∧ after.LooksAs before) ∧
      ∀ cs : List Command, (∀ c ∈ cs, ∀ bus, c ≠ .entry bus) →
        d.bench.answers cs = b.answers cs := by
  obtain ⟨w, hw, rfl, hr⟩ := hb.exists_ledger
  obtain ⟨d', hd', hbench, hreply, hevents⟩ := (hr.step_agrees _).of_ok h
  have htag : w.session.tag = some t := by rw [← hr.tag, ht]
  obtain ⟨hsame, hbindings, hmappings, m, hm, hnone⟩ :=
    hw.unchanged_of_refused htag hd' (by rw [← hreply, hrefused])
  have hm' : d'.session.mapping? name = some m := by rw [hmappings, hm]
  obtain ⟨before, hbefore, hold⟩ := hr.exists_handle hm
  obtain ⟨after, hafter, hnew⟩ := hbench.exists_handle hm'
  refine ⟨by rw [hbench.tag, hsame], ?_, fun other hne => handle?_step_of_ne hne h,
    ⟨before, after, hbefore, hafter, hnew.idle hnone, hold.looksAs hnew⟩, fun cs hcs => ?_⟩
  · rw [hevents]
    exact hbindings
  · refine Indistinct.answers_eq hcs ⟨_, _, hbench, hr, ?_, hmappings⟩
    rw [hsame, htag]

/-- Payloads that are refused by a handle for 0x2000 bytes in one segment, in a row of reasons:
there is nothing to load, a page is not mapped, there are more runs than storage or more frames than
room, the aperture is too small, and the pages that were bound do not make one segment. -/
def refusedPayloads : List (Payload × Refusal) :=
  [(.raw [], .invalid),
    (.linear ⟨0x400000⟩ 0x10 (.ofPages 4 []), .invalid),
    (.raw (List.replicate 24 ⟨⟨0x5000⟩, 1⟩), .outOfMemory),
    (.raw ((List.range 17).map fun i => ⟨⟨.ofNat 64 (i * 0x1000)⟩, 1⟩), .tooManyFrames),
    (.raw [⟨⟨0x5000⟩, 0x2000⟩], .spaceExhausted),
    (.raw [⟨⟨0x5000⟩, 1⟩, ⟨⟨0x5800⟩, 1⟩], .tooManySegments)]

/-- In two pages of aperture, one of which is bound already. -/
theorem failedLoad_at_each_depth :
    ∃ (b : Bench) (calls : List TableCall) (t : Tag), b.Reachable calls ∧ b.tag = some t ∧
      ∀ x ∈ refusedPayloads, ∃ d, b.step (.act "m" (.load x.1)) = .ok d ∧
        d.reply = .refused x.2 ∧ d.bench.tag = some t ∧
        Bindings.empty.applyAll (calls ++ Event.tableCalls d.events) =
          Bindings.empty.applyAll calls := by
  have hrun : (do
      let (b, _) ← new "small" (some (⟨0x10000⟩, 0x2000)) none
        ⟨none, ⟨20, by decide⟩, .direct⟩ none
      let (b, _) ← b.reach [] [.create "n" ⟨0x2000, 4, 0x2000, 0, {}⟩,
        .act "n" (.load (.raw [⟨⟨0x5800⟩, 0x800⟩])), .create "m" ⟨0x2000, 1, 0x2000, 0, {}⟩]
      return b.tag.isSome && refusedPayloads.all fun x =>
        (b.step (.act "m" (.load x.1))).toOption.any fun d => d.reply.refusal? == some x.2 :
          Checked _).toOption = some true := by decide +kernel
  obtain ⟨⟨b₀, _⟩, hnew, hrun⟩ := Checked.bind_eq_ok.mp (Checked.eq_ok_of_toOption hrun)
  obtain ⟨⟨b, calls⟩, hreach, hrun⟩ := Checked.bind_eq_ok.mp hrun
  obtain ⟨hsome, hall⟩ := Bool.and_eq_true_iff.mp (Except.ok.inj hrun)
  have hb : b.Reachable calls := (Reachable.start hnew).reach hreach
  obtain ⟨t, ht⟩ := Option.isSome_iff_exists.mp hsome
  refine ⟨b, calls, t, hb, ht, fun x hx => ?_⟩
  obtain ⟨d, hd, hrefused⟩ := (Option.any_eq_true _ _).mp (List.all_eq_true.mp hall x hx)
  have hstep := Checked.eq_ok_of_toOption hd
  have hreply := Reply.refusal?_eq_some_iff.mp (beq_iff_eq.mp hrefused)
  obtain ⟨htag, hbindings, -⟩ := hb.failedLoad ht hstep hreply
  exact ⟨d, hstep, hreply, htag, hbindings⟩

end Bench

end Aperture
