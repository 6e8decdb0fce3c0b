import Aperture.Proofs.Ledger.Sound
import Aperture.Proofs.Session.Changes
import Aperture.Proofs.Tag.Course

namespace Aperture

namespace Notice

theorem TellsPayload.ne_neverBound {n : Notice} (h : n.TellsPayload) (a : PhysAddr) :
    n ≠ .neverBound a := by
  intro he
  subst he
  cases h with
  | hole h => cases h

theorem TellsPayload.ne_noBlock {n : Notice} (h : n.TellsPayload) (tag : String)
    (size alignment boundary : Word) : n ≠ .noBlock tag size alignment boundary := by
  intro he
  subst he
  cases h with
  | hole h => cases h

end Notice

namespace Tag

variable {t : Tag} {m : Mapping} {p : Payload} {o : Outcome}

theorem notice_mem_declined {d : Declined} {n : Notice}
    (h : Event.notice n ∈ (t.declined m d).events) : n ∈ d.notices := by
  obtain ⟨n', hn', he⟩ := List.mem_map.mp h
  rwa [← Event.notice.inj he]

theorem notice_not_mem_calls {calls : List TableCall} {n : Notice} :
    Event.notice n ∉ calls.map Event.table := by
  intro h
  obtain ⟨call, -, he⟩ := List.mem_map.mp h
  cases he

theorem Course.not_neverBound (h : Course t m p (.ok o)) (a : PhysAddr) :
    Event.notice (.neverBound a) ∉ o.events := by
  intro hmem
  cases h with
  | declined _ hnotice => exact (hnotice _ (notice_mem_declined hmem)).ne_neverBound a rfl
  | noRoom => cases List.mem_singleton.mp (notice_mem_declined hmem)
  | bound _ _ hroute =>
    cases hroute with
    | full => exact notice_not_mem_calls hmem
    | done =>
      cases List.mem_append.mp hmem with
      | inl hcalls => exact notice_not_mem_calls hcalls
      | inr hlast => cases List.mem_singleton.mp hlast

theorem Course.exhausted_of_noBlock (h : Course t m p (.ok o)) {tag : String}
    {size alignment boundary : Word}
    (hmem : Event.notice (.noBlock tag size alignment boundary) ∈ o.events) :
    o.result = .error .spaceExhausted := by
  cases h with
  | declined _ hnotice =>
    exact absurd rfl ((hnotice _ (notice_mem_declined hmem)).ne_noBlock tag size alignment boundary)
  | noRoom => rfl
  | bound _ _ hroute =>
    cases hroute with
    | full => exact absurd hmem notice_not_mem_calls
    | done =>
      cases List.mem_append.mp hmem with
      | inl hcalls => exact absurd hcalls notice_not_mem_calls
      | inr hlast => cases List.mem_singleton.mp hlast

end Tag

namespace Ledger

variable {w : Ledger} {t : Tag} {name : String} {m : Mapping} {p : Payload}

theorem Reachable.load_course (hw : w.Reachable) (ht : w.session.tag = some t)
    (hresolves : t.memory.Resolves p) (hm : w.session.mapping? name = some m)
    (hnone : m.loaded = none) (hpaged : p.IsPaged) : t.Course m p (t.load m p) := by
  have hs := hw.sound t ht
  have hlawful := hw.lawful
  have hmem := Session.mem_mappings hm
  exact Tag.load_course hs.occupied.wellFormed (hlawful.recorded t ht) (hlawful.mappings _ hmem)
    (hs.blank _ hmem) hnone hresolves hpaged

/-- A load into a mapping that holds nothing, if it comes to an end, replies with the verdict. It
never finds a frame without a page, and the pool turns it down only for want of room. The verdict
counts frames and unmapped pages byte by byte, so pages are to be mapped as a whole. -/
theorem Reachable.load_verdict (hw : w.Reachable) (ht : w.session.tag = some t)
    (hresolves : t.memory.Resolves p) (hm : w.session.mapping? name = some m)
    (hnone : m.loaded = none) (hpaged : p.IsPaged) {d : Step}
    (h : w.session.step (.act name (.load p)) = .ok d) :
    d.reply = .ofResult (t.verdict m p) ∧
      (∀ a, Event.notice (.neverBound a) ∉ d.events) ∧
      ∀ tag size alignment boundary,
        Event.notice (.noBlock tag size alignment boundary) ∈ d.events →
          d.reply = .refused .spaceExhausted := by
  have hcourse := hw.load_course ht hresolves hm hnone hpaged
  rw [Session.step_load ht hm] at h
  obtain ⟨o, hload, rfl⟩ := Checked.map_eq_ok.mp h
  rw [hload] at hcourse
  have hmade := hw.lawful.mappings _ (Session.mem_mappings hm)
  refine ⟨?_, hcourse.not_neverBound, fun tag size alignment boundary hmem => ?_⟩
  · show Reply.ofResult o.result = _
    rw [hcourse.result_eq hmade]
  · show Reply.ofResult o.result = _
    rw [hcourse.exhausted_of_noBlock hmem]
    rfl

/-- Two pages that are not one segment, in a mapping that allows one. -/
theorem load_verdict_full :
    let payload : Payload := .raw [⟨⟨0x5000⟩, 0x2000⟩]
    ∃ (w : Ledger) (t : Tag) (m : Mapping) (d : Step),
      runFrom ⟨0x10000⟩ 0x10000 [.create "m" ⟨0x2000, 1, 0x1000, 0, {}⟩] = .ok w ∧
      w.session.tag = some t ∧ t.memory.Resolves payload ∧
      w.session.mapping? "m" = some m ∧ m.loaded = none ∧ payload.IsPaged ∧
      w.session.step (.act "m" (.load payload)) = .ok d ∧
      d.reply = .refused .tooManySegments ∧
      d.reply = .ofResult (t.verdict m payload) := by
  intro payload
  have hrun : (do
      let w ← runFrom ⟨0x10000⟩ 0x10000 [.create "m" ⟨0x2000, 1, 0x1000, 0, {}⟩]
      let d ← w.session.step (.act "m" (.load payload))
      return (w.session.tag.map fun t => decide (t.memory.Resolves payload),
        (w.session.mapping? "m").map (·.loaded.isNone), d.reply.refusal?) : Checked _).toOption =
        some (some true, some true, some .tooManySegments) := by decide +kernel
  obtain ⟨w, hw, hrun⟩ := Checked.bind_eq_ok.mp (Checked.eq_ok_of_toOption hrun)
  obtain ⟨d, hd, hrun⟩ := Checked.bind_eq_ok.mp hrun
  obtain ⟨hresolved, hrest⟩ := Prod.mk.inj (Except.ok.inj hrun)
  obtain ⟨hmapping, hrefused⟩ := Prod.mk.inj hrest
  obtain ⟨t, ht, hresolved⟩ := Option.map_eq_some_iff.mp hresolved
  have hresolves := of_decide_eq_true hresolved
  obtain ⟨m, hm, hempty⟩ := Option.map_eq_some_iff.mp hmapping
  have hnone := Option.isNone_iff_eq_none.mp hempty
  have hpaged : payload.IsPaged := fun _ hv => by cases hv
  obtain ⟨hreply, -, -⟩ := (reachable_runFrom hw).load_verdict ht hresolves hm hnone hpaged hd
  exact ⟨w, t, m, d, hw, ht, hresolves, hm, hnone, hpaged, hd,
    Reply.refusal?_eq_some_iff.mp hrefused, hreply⟩

end Ledger

end Aperture
