import Aperture.Proofs.Ledger.Limits
import Aperture.Proofs.Payload.Pieces

namespace Aperture

/-- The slack of a record is one slot more than the ends of two pieces need. -/
theorem Payload.frameBound_le_capacityFor {p : Payload} {maxSize : Word}
    (hsize : p.size ≤ maxSize.toNat) (hpieces : p.pieceCount ≤ 2) :
    p.frameBound ≤ FrameSet.capacityFor maxSize := by
  unfold frameBound pagesFor FrameSet.capacityFor FrameSet.slack pageSize
  omega

namespace Ledger

variable {w : Ledger} {t : Tag} {name : String} {m : Mapping} {p : Payload} {d : Step}

/-- A load that is refused for the number of frames is of a payload that the mapping is made for,
and has touched more frames than the size of the mapping provides for. -/
theorem Reachable.crowded_of_step (hw : w.Reachable) (ht : w.session.tag = some t)
    (hm : w.session.mapping? name = some m) (h : w.session.step (.act name (.load p)) = .ok d)
    (hreply : d.reply = .refused .tooManyFrames) :
    p.size ≤ m.limits.maxSize.toNat ∧
      Run.Overfill (FrameSet.capacityFor m.limits.maxSize) [] (t.memory.resolve p).runs := by
  have hs := hw.sound t ht
  have hmem := Session.mem_mappings hm
  rw [Session.step_load ht hm] at h
  obtain ⟨o, hload, rfl⟩ := Checked.map_eq_ok.mp h
  rw [← (hw.isSized _ hmem).capacity]
  exact Tag.crowded_of_load hs.occupied.wellFormed (hw.lawful.recorded t ht)
    (hw.lawful.mappings _ hmem) (hs.blank _ hmem) hload (Reply.ofResult_eq_refused_iff.mp hreply)

/-- A payload with bytes touches fewer frames than its bytes fill and two more for each of its
pieces. So do its runs, cut at pages or taken as they are described. Whoever else resolves it, so do
runs that cross no page, if they are cut nowhere else or its space keeps the offsets of addresses.
So one of one or two pieces is never refused for the number of its frames, and no other as long as
so many can be recorded. -/
theorem Reachable.few_pieces_fit (hw : w.Reachable) (ht : w.session.tag = some t)
    (hm : w.session.mapping? name = some m) (p : Payload)
    (hcuts : t.memory.host.resolver.IsPagewise ∨ p.KeepsOffsets) :
    (∀ first, first <+: (t.memory.resolve p).runs → (∀ r ∈ first, r.isEmpty = false → r.InPage) →
      (Run.frames first).length ≤ p.frameBound) ∧
    (t.memory.host.resolver = .direct ∨ t.memory.host.resolver = .verbatim →
      (Run.frames (t.memory.resolve p).runs).length ≤ p.frameBound) ∧
    (p.IsPaged → p.frames.length ≤ p.frameBound) ∧
    (∀ maxSize : Word, p.size ≤ maxSize.toNat → p.pieceCount ≤ 2 →
      p.frameBound ≤ FrameSet.capacityFor maxSize) ∧
    (p.pieceCount ≤ 2 ∨ p.frameBound ≤ FrameSet.capacityFor m.limits.maxSize →
      ∀ d, w.session.step (.act name (.load p)) = .ok d → d.reply ≠ .refused .tooManyFrames) := by
  refine ⟨fun first => HostMemory.length_frames_le hcuts, HostMemory.length_frames_resolve_le,
    Payload.length_frames_le, fun maxSize => Payload.frameBound_le_capacityFor, ?_⟩
  intro hfew d hstep hreply
  obtain ⟨hsize, first, hfirst, hin, hmany⟩ := hw.crowded_of_step ht hm hstep hreply
  have hframes : (Run.frames first).length ≤ p.frameBound :=
    HostMemory.length_frames_le hcuts hfirst hin
  have hroom : p.frameBound ≤ FrameSet.capacityFor m.limits.maxSize := by
    cases hfew with
    | inl hpieces => exact Payload.frameBound_le_capacityFor hsize hpieces
    | inr hroom => exact hroom
  exact absurd hmany (Nat.not_lt_of_le (Nat.le_trans hframes hroom))

/-- The pieces begin with the last byte of a page; the first ends with the first byte of one, and
nearly so does the second. Every frame that two pieces can touch is touched. -/
theorem few_pieces_fit_at_ends :
    let payload : Payload := .raw [⟨⟨0x100fff⟩, 0xa002⟩, ⟨⟨0x200fff⟩, 0x9ffe⟩]
    ∃ (w : Ledger) (t : Tag) (m : Mapping) (d : Step),
      runFrom ⟨0x10000⟩ 0x20000 [.create "m" ⟨0x14000, 64, 0x14000, 0, {}⟩] = .ok w ∧
      w.session.tag = some t ∧ w.session.mapping? "m" = some m ∧
      payload.size = m.limits.maxSize.toNat ∧ payload.pieceCount = 2 ∧
      (Run.frames (t.memory.resolve payload).runs).length = payload.frameBound ∧
      payload.frames.length ≤ payload.frameBound ∧
      w.session.step (.act "m" (.load payload)) = .ok d ∧ d.reply ≠ .refused .tooManyFrames := by
  intro payload
  have hrun : (do
      let w ← runFrom ⟨0x10000⟩ 0x20000 [.create "m" ⟨0x14000, 64, 0x14000, 0, {}⟩]
      let d ← w.session.step (.act "m" (.load payload))
      return (w.session.tag.map fun t => (Run.frames (t.memory.resolve payload).runs).length,
        (w.session.mapping? "m").map (·.limits.maxSize.toNat)) : Checked _).toOption =
        some (some 23, some 0x14000) := by decide +kernel
  obtain ⟨w, hw, hrun⟩ := Checked.bind_eq_ok.mp (Checked.eq_ok_of_toOption hrun)
  obtain ⟨d, hd, hrun⟩ := Checked.bind_eq_ok.mp hrun
  obtain ⟨hframes, hlimit⟩ := Prod.mk.inj (Except.ok.inj hrun)
  obtain ⟨t, ht, hframes⟩ := Option.map_eq_some_iff.mp hframes
  obtain ⟨m, hm, hlimit⟩ := Option.map_eq_some_iff.mp hlimit
  have hoffsets : payload.KeepsOffsets := fun _ hv => by cases hv
  obtain ⟨-, -, hpaged, -, hfits⟩ :=
    (reachable_runFrom hw).few_pieces_fit ht hm payload (.inr hoffsets)
  have hpieces : payload.pieceCount = 2 := by decide
  have hbound : payload.frameBound = 23 := by decide
  exact ⟨w, t, m, d, hw, ht, hm, hlimit.symm, hpieces, hframes.trans hbound.symm,
    hpaged fun _ hv => (by cases hv), hd, hfits (.inl (Nat.le_of_eq hpieces)) d hd⟩

end Ledger

end Aperture
