import Aperture.Proofs.Handle.Alike
import Aperture.Proofs.Ledger.Accounting
import Aperture.Proofs.Ledger.Undo

namespace Aperture

namespace Bench

variable {b : Bench} {calls : List TableCall} {t : Tag} {name : String} {p : Payload}
  {d : BenchStep} {h : Handle}

/-- A load that is done is undone by an unload: the tag and what is bound are as before, and so the
handle looks. Loaded once more, it looks as it did after the first load, although nothing in its
arena has been wiped. -/
theorem Reachable.reloaded_looksAs (hb : b.Reachable calls) (ht : b.tag = some t)
    (hload : b.step (.act name (.load p)) = .ok d) (hdone : d.reply = .done) :
    ∃ before loaded after again u r, b.handle? name = some before ∧
      d.bench.handle? name = some loaded ∧ loaded.stage = .loaded ∧
      d.bench.step (.act name .unload) = .ok u ∧ u.reply = .done ∧ u.bench.tag = some t ∧
      Bindings.empty.applyAll (calls ++ Event.tableCalls d.events ++ Event.tableCalls u.events) =
        Bindings.empty.applyAll calls ∧
      u.bench.handle? name = some after ∧ after.LooksAs before ∧
      u.bench.step (.act name (.load p)) = .ok r ∧ r.reply = .done ∧
      r.bench.handle? name = some again ∧ again.LooksAs loaded := by
  obtain ⟨w, hw, rfl, hr⟩ := hb.exists_ledger
  have htag : w.session.tag = some t := by rw [← hr.tag, ht]
  obtain ⟨d', hd', hbench, hreply, hevents⟩ := (hr.step_agrees _).of_ok hload
  obtain ⟨m, l, u', hm, -, hl, hu', hudone, hrestored, ⟨r', hr', hrdone, -, hl'⟩, -⟩ :=
    hw.load_undone htag hd' (by rw [← hreply, hdone])
  obtain ⟨u, hu, hubench, hureply, huevents⟩ := (hbench.step_agrees _).symm.of_ok hu'
  obtain ⟨r, hr'', hrbench, hrreply, -⟩ := (hubench.step_agrees _).symm.of_ok hr'
  obtain ⟨before, hbefore, hold⟩ := hr.exists_handle hm
  obtain ⟨loaded, hloaded, hmade⟩ := hbench.exists_handle hl
  obtain ⟨after, hafter, hnew⟩ := hubench.exists_handle ((hrestored.mapping name).trans hm)
  obtain ⟨again, hagain, hremade⟩ := hrbench.exists_handle hl'
  refine ⟨before, loaded, after, again, u, r, hbefore, hloaded, (hmade.loaded l rfl).stage, hu,
    hureply.trans hudone, ?_, ?_, hafter, hold.looksAs hnew, hr'', hrreply.trans hrdone, hagain,
    hmade.looksAs hremade⟩
  · rw [hubench.tag]
    exact hrestored.tag.trans htag
  · rw [hevents, huevents]
    exact hrestored.bindings

end Bench

end Aperture
