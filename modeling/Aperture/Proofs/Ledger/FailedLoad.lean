import Aperture.Proofs.Ledger.Sound

namespace Aperture

namespace Ledger

variable {w : Ledger} {t : Tag} {name : String} {p : Payload}

/-- After a load that is refused, the tag, the bindings and all mappings are what they were, and the
mapping that was to be loaded has no payload. -/
theorem Reachable.unchanged_of_refused (hw : w.Reachable) (ht : w.session.tag = some t) {d : Step}
    (h : w.session.step (.act name (.load p)) = .ok d) {reason : Refusal}
    (hrefused : d.reply = .refused reason) :
    d.session.tag = some t ∧
      (w.after (.act name (.load p)) d).bindings = w.bindings ∧
      (∀ other, d.session.mapping? other = w.session.mapping? other) ∧
      ∃ m, w.session.mapping? name = some m ∧ m.loaded = none := by
  have hs := hw.sound t ht
  obtain ⟨hno, -⟩ | ⟨m, o, hm, hnone, heffect, htag, hmappings, hreply, hevents⟩ :=
    hs.load_cases ht h
  · rw [hrefused] at hno
    cases hno
  have herror : o.result = .error reason := by
    rw [hrefused] at hreply
    cases hresult : o.result with
    | ok =>
      rw [hresult] at hreply
      cases hreply
    | error reason' =>
      rw [hresult] at hreply
      rw [Reply.refused.inj hreply]
  obtain ⟨hsame, hmapping⟩ := heffect.of_error herror
  have hself : d.session.mapping? name = some m := by
    rw [hmappings.mapping?_self, hmapping]
  refine ⟨by rw [htag, hsame], ?_, ?_, m, hm, hnone⟩
  · show Bindings.empty.applyAll (w.calls ++ Event.tableCalls d.events) = w.bindings
    rw [Bindings.applyAll_append, hevents]
    exact hs.occupied.applyAll_traceless (heffect.traceless_of_error herror)
  · intro other
    by_cases he : other = name
    · rw [he, hself, hm]
    · exact hmappings.mapping?_of_ne he

end Ledger

end Aperture
