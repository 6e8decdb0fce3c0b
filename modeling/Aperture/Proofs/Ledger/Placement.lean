import Aperture.Proofs.Ledger.Sound
import Aperture.Proofs.Session.Changes
import Aperture.Proofs.Tag.Placement

namespace Aperture

namespace Ledger

variable {w w₁ w₂ : Ledger} {t t₁ t₂ : Tag} {name name₁ name₂ : String} {m m₁ m₂ : Mapping}
  {p : Payload} {b b₁ b₂ : Block} {d d₁ d₂ : Step}

theorem Reachable.load_of_blockFor (hw : w.Reachable) (ht : w.session.tag = some t)
    (hcuts : t.memory.host.resolver.IsPagewise) (hm : w.session.mapping? name = some m)
    (hb : t.blockFor m p = .ok (some b))
    (hspares : t.Spares m (Run.frames (t.memory.resolve p).runs).length)
    (h : w.session.step (.act name (.load p)) = .ok d) :
    (m.limits.maxSegments.toNat < (t.segmentsApart m p).length ∧
      d.reply = .refused .tooManySegments) ∨
    (t.segmentsApart m p).length ≤ m.limits.maxSegments.toNat ∧ d.reply = .done ∧
      ∃ l : Loaded, d.session.mapping? name = some { m with loaded := some l } ∧ l.block = b ∧
        l.segments.segments.map Run.stretch =
          (t.segmentsApart m p).map (Stretch.shift b.start.toNat) := by
  have hs := hw.sound t ht
  have hmem := Session.mem_mappings hm
  rw [Session.step_load ht hm] at h
  obtain ⟨o, hload, rfl⟩ := Checked.map_eq_ok.mp h
  rcases Tag.load_of_blockFor hs.occupied.wellFormed (hw.lawful.recorded t ht)
    (hw.lawful.mappings _ hmem) (hs.blank _ hmem) hcuts hb hspares hload with
    ⟨hmany, hresult⟩ | ⟨hfew, hresult, l, hmapping, hblock, hsegments⟩
  · refine .inl ⟨hmany, ?_⟩
    show Reply.ofResult o.result = _
    rw [hresult]
    rfl
  · refine .inr ⟨hfew, ?_, l, ?_, hblock, hsegments⟩
    · show Reply.ofResult o.result = _
      rw [hresult]
      rfl
    · rw [← hmapping]
      exact (Session.hasBeside_put _ name _).mapping?_self

/-- Two loads of one payload, in runs of any two tags that cut it at pages, into mappings with the
same limits on the segments: once both are given blocks that their boundaries spare, both have too
many segments or both are done. Then the segments are the same but for the distance between the
blocks, and they are those that the payload has with no boundary at all. -/
theorem segments_of_placements (hw₁ : w₁.Reachable) (hw₂ : w₂.Reachable)
    (ht₁ : w₁.session.tag = some t₁) (ht₂ : w₂.session.tag = some t₂)
    (hcuts₁ : t₁.memory.host.resolver.IsPagewise) (hcuts₂ : t₂.memory.host.resolver.IsPagewise)
    (hm₁ : w₁.session.mapping? name₁ = some m₁) (hm₂ : w₂.session.mapping? name₂ = some m₂)
    (hcount : m₁.limits.maxSegments = m₂.limits.maxSegments)
    (hlength : m₁.limits.maxLength = m₂.limits.maxLength)
    (hb₁ : t₁.blockFor m₁ p = .ok (some b₁)) (hb₂ : t₂.blockFor m₂ p = .ok (some b₂))
    (hspares₁ : t₁.Spares m₁ (Run.frames (t₁.memory.resolve p).runs).length)
    (hspares₂ : t₂.Spares m₂ (Run.frames (t₂.memory.resolve p).runs).length)
    (h₁ : w₁.session.step (.act name₁ (.load p)) = .ok d₁)
    (h₂ : w₂.session.step (.act name₂ (.load p)) = .ok d₂) :
    (m₁.limits.maxSegments.toNat < (t₁.segmentsApart m₁ p).length ∧
      d₁.reply = .refused .tooManySegments ∧ d₂.reply = .refused .tooManySegments) ∨
    (t₁.segmentsApart m₁ p).length ≤ m₁.limits.maxSegments.toNat ∧
      d₁.reply = .done ∧ d₂.reply = .done ∧
      ∃ l₁ l₂ : Loaded, d₁.session.mapping? name₁ = some { m₁ with loaded := some l₁ } ∧
        d₂.session.mapping? name₂ = some { m₂ with loaded := some l₂ } ∧
        l₁.block = b₁ ∧ l₂.block = b₂ ∧
        l₁.segments.segments.map Run.stretch =
          (t₁.segmentsApart m₁ p).map (Stretch.shift b₁.start.toNat) ∧
        l₁.segments.segments.map (fun s => s.stretch.shift b₂.start.toNat) =
          l₂.segments.segments.map fun s => s.stretch.shift b₁.start.toNat := by
  have hmade₁ := hw₁.lawful.mappings _ (Session.mem_mappings hm₁)
  have hmade₂ := hw₂.lawful.mappings _ (Session.mem_mappings hm₂)
  have hrules : (t₁.rulesFor m₁).unbounded = (t₂.rulesFor m₂).unbounded := by
    apply SegmentRules.unbounded_congr
    · rw [Tag.maxCount_rulesFor t₁ hmade₁, Tag.maxCount_rulesFor t₂ hmade₂, hcount]
    · rw [Tag.maxLength_rulesFor t₁ hmade₁, Tag.maxLength_rulesFor t₂ hmade₂, hlength]
  have hapart : t₁.segmentsApart m₁ p = t₂.segmentsApart m₂ p := by
    rw [Tag.segmentsApart, hrules]
    rfl
  have hload₁ := hw₁.load_of_blockFor ht₁ hcuts₁ hm₁ hb₁ hspares₁ h₁
  have hload₂ := hw₂.load_of_blockFor ht₂ hcuts₂ hm₂ hb₂ hspares₂ h₂
  rw [← hapart, ← hcount] at hload₂
  rcases hload₁ with ⟨hmany, hreply₁⟩ | ⟨hfew, hreply₁, l₁, hl₁, hblock₁, hsegments₁⟩
  · rcases hload₂ with ⟨-, hreply₂⟩ | ⟨hfew, -⟩
    · exact .inl ⟨hmany, hreply₁, hreply₂⟩
    · exact absurd hmany (Nat.not_lt_of_le hfew)
  · rcases hload₂ with ⟨hmany, -⟩ | ⟨-, hreply₂, l₂, hl₂, hblock₂, hsegments₂⟩
    · exact absurd hmany (Nat.not_lt_of_le hfew)
    · refine .inr ⟨hfew, hreply₁, hreply₂, l₁, l₂, hl₁, hl₂, hblock₁, hblock₂, hsegments₁, ?_⟩
      -- moved by the start of the other block, both are moved by both starts
      rw [Stretch.map_shift_shift _ hsegments₁, Stretch.map_shift_shift _ hsegments₂,
        Nat.add_comm]

/-- In one aperture the boundary moves the block on past a multiple; in the other there is no
boundary, but another payload in front. -/
theorem segments_of_placements_beside :
    let payload : Payload := .raw [⟨⟨0x5800⟩, 0x1000⟩, ⟨⟨0x9000⟩, 0x800⟩]
    let moved : List Command := [.create "m" ⟨0x3000, 2, 0x2000, 0x4000, {}⟩]
    let beside : List Command := [.create "n" ⟨0x1000, 1, 0x1000, 0, {}⟩,
      .act "n" (.load (.raw [⟨⟨0x7000⟩, 8⟩])), .create "m" ⟨0x3000, 2, 0x2000, 0, {}⟩]
    ∃ (w₁ w₂ : Ledger) (t₁ t₂ : Tag) (m₁ m₂ : Mapping) (d₁ d₂ : Step) (l₁ l₂ : Loaded),
      runFrom ⟨0x12000⟩ 0x10000 moved = .ok w₁ ∧ runFrom ⟨0x41000⟩ 0x10000 beside = .ok w₂ ∧
      w₁.session.tag = some t₁ ∧ w₂.session.tag = some t₂ ∧
      t₁.memory.host.resolver.IsPagewise ∧ t₂.memory.host.resolver.IsPagewise ∧
      w₁.session.mapping? "m" = some m₁ ∧ w₂.session.mapping? "m" = some m₂ ∧
      m₁.limits.maxSegments = m₂.limits.maxSegments ∧
      m₁.limits.maxLength = m₂.limits.maxLength ∧
      t₁.blockFor m₁ payload = .ok (some ⟨0x14000, 0x3000⟩) ∧
      t₂.blockFor m₂ payload = .ok (some ⟨0x42000, 0x3000⟩) ∧
      t₁.Spares m₁ (Run.frames (t₁.memory.resolve payload).runs).length ∧
      t₂.Spares m₂ (Run.frames (t₂.memory.resolve payload).runs).length ∧
      w₁.session.step (.act "m" (.load payload)) = .ok d₁ ∧
      w₂.session.step (.act "m" (.load payload)) = .ok d₂ ∧
      d₁.session.mapping? "m" = some { m₁ with loaded := some l₁ } ∧
      d₂.session.mapping? "m" = some { m₂ with loaded := some l₂ } ∧
      l₁.segments.segments.map (fun s => s.stretch.shift 0x42000) =
        l₂.segments.segments.map fun s => s.stretch.shift 0x14000 := by
  intro payload moved beside
  have placed (first : BusAddr) (cs : List Command) (b : Block) (hrun : (do
      let w ← runFrom first 0x10000 cs
      let d ← w.session.step (.act "m" (.load payload))
      return (d.reply.isDone, w.session.tag.bind fun t => (w.session.mapping? "m").map fun m =>
        ((t.blockFor m payload).toOption,
          decide (t.Spares m (Run.frames (t.memory.resolve payload).runs).length ∧
            m.limits.maxSegments = 2 ∧ m.limits.maxLength = 0x2000))) : Checked _).toOption =
          some (true, some (some (some b), true))) :
      ∃ w t m d, runFrom first 0x10000 cs = .ok w ∧
        w.session.step (.act "m" (.load payload)) = .ok d ∧ d.reply = .done ∧
        w.session.tag = some t ∧ t.memory.host.resolver.IsPagewise ∧
        w.session.mapping? "m" = some m ∧ t.blockFor m payload = .ok (some b) ∧
        t.Spares m (Run.frames (t.memory.resolve payload).runs).length ∧
        m.limits.maxSegments = 2 ∧ m.limits.maxLength = 0x2000 := by
    obtain ⟨w, hw, hrun⟩ := Checked.bind_eq_ok.mp (Checked.eq_ok_of_toOption hrun)
    obtain ⟨d, hd, hrun⟩ := Checked.bind_eq_ok.mp hrun
    obtain ⟨hdone, hrun⟩ := Prod.mk.inj (Except.ok.inj hrun)
    obtain ⟨t, ht, hrun⟩ := Option.bind_eq_some_iff.mp hrun
    obtain ⟨m, hm, hrun⟩ := Option.map_eq_some_iff.mp hrun
    obtain ⟨hb, hlimits⟩ := Prod.mk.inj hrun
    have hcuts : t.memory.host.resolver.IsPagewise := by
      rw [host_of_runFrom hw ht]
      exact Resolver.isPagewise_direct
    exact ⟨w, t, m, d, hw, hd, Reply.isDone_iff.mp hdone, ht, hcuts, hm,
      Checked.eq_ok_of_toOption hb, of_decide_eq_true hlimits⟩
  obtain ⟨w₁, t₁, m₁, d₁, hw₁, hd₁, hdone, ht₁, hcuts₁, hm₁, hb₁, hs₁, hcount₁, hlength₁⟩ :=
    placed ⟨0x12000⟩ moved ⟨0x14000, 0x3000⟩ (by decide +kernel)
  obtain ⟨w₂, t₂, m₂, d₂, hw₂, hd₂, -, ht₂, hcuts₂, hm₂, hb₂, hs₂, hcount₂, hlength₂⟩ :=
    placed ⟨0x41000⟩ beside ⟨0x42000, 0x3000⟩ (by decide +kernel)
  have hcount := hcount₁.trans hcount₂.symm
  have hlength := hlength₁.trans hlength₂.symm
  rcases segments_of_placements (reachable_runFrom hw₁) (reachable_runFrom hw₂) ht₁ ht₂
    hcuts₁ hcuts₂ hm₁ hm₂ hcount hlength hb₁ hb₂ hs₁ hs₂ hd₁ hd₂ with
    ⟨-, hrefused, -⟩ | ⟨-, -, -, l₁, l₂, hl₁, hl₂, -, -, -, hshift⟩
  · rw [hdone] at hrefused
    cases hrefused
  · exact ⟨w₁, w₂, t₁, t₂, m₁, m₂, d₁, d₂, l₁, l₂, hw₁, hw₂, ht₁, ht₂, hcuts₁, hcuts₂, hm₁, hm₂,
      hcount, hlength, hb₁, hb₂, hs₁, hs₂, hd₁, hd₂, hl₁, hl₂, hshift⟩

end Ledger

end Aperture
