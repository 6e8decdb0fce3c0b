import Aperture.Proofs.Ledger.Sound
import Aperture.Proofs.Session.Changes
import Aperture.Proofs.Tag.Course

namespace Aperture

namespace Tag

variable {t : Tag} {m : Mapping} {p : Payload} {n : Nat} {b : Block} {l : Loaded}

theorem FirstOffer.uncrossed (hb : t.FirstOffer m n b) (hbound : t.boundaryFor m ≠ 0)
    (hle : b.size ≤ t.boundaryFor m) :
    ¬ (⟨b.start.toNat, b.size.toNat⟩ : Stretch).Crosses (t.boundaryFor m).toNat := by
  have hle := BitVec.le_def.mp hle
  rw [hb.size] at hle ⊢
  exact hb.offered.uncrossed hbound hle

theorem FirstOffer.last_le (hb : t.FirstOffer m n b) (hn : 0 < n)
    (hlow : m.limits.traits.low) : ∃ last, b.last = .ok last ∧ last ≤ lowWindowEnd := by
  have hend := hb.offered.low hlow
  have hpos : 0 < b.size.toNat := by
    rw [hb.size]
    exact Nat.mul_pos hn (by decide)
  have hstop : b.stop = b.start.toNat + n * pageSize := by rw [Block.stop, hb.size]
  have hwindow := lowWindowEnd.isLt
  obtain ⟨last, hlast, hto⟩ := Block.last_eq_ok hpos (show b.stop ≤ 2 ^ 64 by omega)
  exact ⟨last, hlast, BitVec.le_def.mpr (by omega)⟩

/-- What a payload comes to that is loaded in the first block there is room for. -/
structure Placed (t : Tag) (m : Mapping) (p : Payload) (l : Loaded) : Prop where
  resolved : (t.memory.resolve p).failure = none
  runs : l.runs = (t.memory.resolve p).runs
  fits : l.Fits
  touched : 0 < (Run.frames l.runs).length
  first : t.FirstOffer m (Run.frames l.runs).length l.block
  few : ((t.rulesFor m).segmentsOf (l.block.stretches l.runs)).length ≤
    (t.rulesFor m).maxCount.toNat
  segments : l.segments.segments.map Run.stretch =
    (t.rulesFor m).segmentsOf (l.block.stretches l.runs)

/-- A load that is not refused has been given the first block there is room for, and the segments
that the merge rule makes of the payload in it. -/
theorem placed_of_load (hpool : t.pool.WellFormed) (ht : t.recorded.WellFormed) (hm : m.IsMade)
    (hblank : m.IsBlank) {o : Outcome} (h : t.load m p = .ok o) (hok : o.result = .ok ()) :
    ∃ l, o.mapping = { m with loaded := some l } ∧ t.Placed m p l := by
  have heffect := loadEffect_of_load hpool hblank h
  rcases load_route hpool ht hm hblank h with
    ⟨_, rfl, -, -⟩ | ⟨length, b, hresolved, -, hn, hb, hroute⟩
  · cases hok
  cases hroute with
  | full => cases hok
  | @done l _ hfew hblock hruns hsegments =>
    cases heffect with
    | declined _ ho => cases congrArg Outcome.result ho
    | unwound _ _ _ _ _ _ hresult => cases hresult
    | loaded l' _ hfits _ _ _ _ hmapping =>
      -- the effect and the route tell of one and the same payload
      obtain rfl := Option.some.inj (congrArg Mapping.loaded hmapping)
      rw [← hruns] at hn hb hfew hsegments
      rw [← hblock] at hb hfew hsegments
      exact ⟨l, rfl, hresolved, hruns, hfits, hn, hb, hfew, hsegments⟩

/-- The first block there is room for, and segments made by the merge rule, keep the limits. -/
theorem Placed.keeps (h : t.Placed m p l) (ht : t.recorded.WellFormed) (hm : m.IsMade) :
    l.Keeps m t.recorded := by
  have hallows : ∀ s ∈ l.segments.segments, (t.rulesFor m).Allows s.stretch := by
    intro s hs
    apply SegmentRules.forall_allows_segmentsOf (t.rulesFor m) (l.block.stretches l.runs)
    rw [← h.segments]
    exact List.mem_map.mpr ⟨s, hs, rfl⟩
  refine ⟨h.first.offered.aligned, h.first.uncrossed, h.first.last_le h.touched, ?_, ?_, ?_⟩
  · have hlength := congrArg List.length h.segments
    rw [List.length_map] at hlength
    rw [hlength, ← maxCount_rulesFor t hm]
    exact h.few
  · intro s hs
    have hs := hallows s hs
    have hle := hs.le
    rw [maxLength_rulesFor t hm] at hle
    exact ⟨hs.pos, hle⟩
  · intro _ s hs
    have hcut := (hallows s hs).uncrossed
    rw [boundary_rulesFor (isBoundary_boundaryFor ht hm)] at hcut
    exact hcut

end Tag

/-- Only with a tag and a mapping of that name is a load done. -/
theorem Session.of_load_done {s : Session} {name : String} {p : Payload} {d : Step}
    (h : s.step (.act name (.load p)) = .ok d) (hdone : d.reply = .done) :
    ∃ t m, s.tag = some t ∧ s.mapping? name = some m := by
  obtain ⟨d, hrun, rfl⟩ := Session.step_eq_ok.mp h
  change d.reply = .done at hdone
  cases ht : s.tag with
  | none =>
    unfold Session.run at hrun
    rw [ht] at hrun
    obtain rfl := Except.ok.inj hrun
    cases hdone
  | some t =>
    rw [Session.run_of_tag ht] at hrun
    cases hm : s.mapping? name with
    | none =>
      rw [Session.runWith, hm] at hrun
      obtain rfl := Except.ok.inj hrun
      cases hdone
    | some m => exact ⟨t, m, rfl, rfl⟩

namespace Ledger

variable {w : Ledger} {t : Tag} {name : String} {m : Mapping} {p : Payload} {d : Step}

theorem Reachable.placed_of_load (hw : w.Reachable) (ht : w.session.tag = some t)
    (hm : w.session.mapping? name = some m) (h : w.session.step (.act name (.load p)) = .ok d)
    (hdone : d.reply = .done) :
    ∃ l, d.session.mapping? name = some { m with loaded := some l } ∧ t.Placed m p l := by
  have hs := hw.sound t ht
  have hmem := Session.mem_mappings hm
  rw [Session.step_load ht hm] at h
  obtain ⟨o, hload, rfl⟩ := Checked.map_eq_ok.mp h
  obtain ⟨l, hl, hplaced⟩ := Tag.placed_of_load hs.occupied.wellFormed (hw.lawful.recorded t ht)
    (hw.lawful.mappings _ hmem) (hs.blank _ hmem) hload (Reply.ofResult_eq_done_iff.mp hdone)
  refine ⟨l, ?_, hplaced⟩
  rw [← hl]
  exact (Session.hasBeside_put _ name _).mapping?_self

theorem Reachable.keeps_of_load (hw : w.Reachable) (ht : w.session.tag = some t)
    (hm : w.session.mapping? name = some m) (h : w.session.step (.act name (.load p)) = .ok d)
    (hdone : d.reply = .done) :
    ∃ l, d.session.mapping? name = some { m with loaded := some l } ∧ l.Keeps m t.recorded := by
  obtain ⟨l, hl, hplaced⟩ := hw.placed_of_load ht hm h hdone
  exact ⟨l, hl, hplaced.keeps (hw.lawful.recorded t ht)
    (hw.lawful.mappings _ (Session.mem_mappings hm))⟩

/-- After any run from a new session, a load that is done keeps the limits of its mapping and what
the last well-formed allocation of the run asked for. Commands about anything else, allocations
among them, leave the mapping as it is then. -/
theorem load_keeps_limits {tagName : String} {aperture : Option (BusAddr × Word)}
    {table : Option Table} {memory : HostMemory} {cache : Option Cache} {s : Session}
    {events : List Event} (hnew : Session.new tagName aperture table memory cache = .ok (s, events))
    {before : List Command} (hbefore : (start s).runAll before = .ok w)
    (h : w.session.step (.act name (.load p)) = .ok d) (hdone : d.reply = .done) :
    ∃ m l, w.session.mapping? name = some m ∧
      d.session.mapping? name = some { m with loaded := some l } ∧
      l.Keeps m (Command.lastRecorded before) ∧
      ∀ later w', (w.after (.act name (.load p)) d).runAll later = .ok w' →
        (∀ c ∈ later, c.subject? ≠ some name) →
          w'.session.mapping? name = some { m with loaded := some l } := by
  obtain ⟨t, m, ht, hm⟩ := Session.of_load_done h hdone
  obtain ⟨l, hl, hkeeps⟩ := ((Reachable.start hnew).runAll hbefore).keeps_of_load ht hm h hdone
  have hrecorded : t.recorded = Command.lastRecorded before := by
    obtain ⟨t₀, ht₀, hlast⟩ := recorded_runAll hbefore ht
    obtain ⟨-, t₁, ht₁, hnone, -⟩ := lawful_start hnew
    obtain rfl := Option.some.inj (ht₀.symm.trans ht₁)
    rw [hlast, hnone]
    rfl
  refine ⟨m, l, hm, hl, hrecorded ▸ hkeeps, fun later w' hlater hothers => ?_⟩
  rw [mapping?_runAll hlater hothers]
  exact hl

/-- The first of two allocations is well-formed, though there is no memory to be had; another comes
after the load. -/
theorem load_keeps_limits_between :
    let before : List Command := [.alloc 0x1000 0x4000 0x8000, .alloc 0x1000 0x3000 0,
      .create "m" ⟨0x3000, 4, 0x2000, 0x1000, {}⟩]
    let payload : Payload := .raw [⟨⟨0x5800⟩, 0x2000⟩]
    let later : List Command := [.alloc 0x1000 0 0x1000]
    ∃ (s : Session) (events : List Event) (w : Ledger) (d : Step) (w' : Ledger) (m : Mapping)
      (l : Loaded),
      Session.new "plain" (some (⟨0x11000⟩, 0x10000)) none ⟨none, .plain⟩ none = .ok (s, events) ∧
      (start s).runAll before = .ok w ∧ w.session.step (.act "m" (.load payload)) = .ok d ∧
      d.reply = .done ∧ (w.after (.act "m" (.load payload)) d).runAll later = .ok w' ∧
      w.session.mapping? "m" = some m ∧
      Command.lastRecorded before = ⟨0x4000, 0x8000⟩ ∧ l.Keeps m ⟨0x4000, 0x8000⟩ ∧
      w'.session.mapping? "m" = some { m with loaded := some l } := by
  intro before payload later
  have hrun : (do
      let w ← runFrom ⟨0x11000⟩ 0x10000 before
      let d ← w.session.step (.act "m" (.load payload))
      let _ ← (w.after (.act "m" (.load payload)) d).runAll later
      return d.reply.isDone : Checked _).toOption = some true := by decide +kernel
  obtain ⟨w, hw, hrun⟩ := Checked.bind_eq_ok.mp (Checked.eq_ok_of_toOption hrun)
  obtain ⟨d, hd, hrun⟩ := Checked.bind_eq_ok.mp hrun
  obtain ⟨w', hlater, hrun⟩ := Checked.bind_eq_ok.mp hrun
  have hdone := Reply.isDone_iff.mp (Except.ok.inj hrun)
  obtain ⟨⟨s, events⟩, hnew, hbefore⟩ := Checked.bind_eq_ok.mp hw
  have hlast : Command.lastRecorded before = ⟨0x4000, 0x8000⟩ := rfl
  obtain ⟨m, l, hm, -, hkeeps, hstays⟩ := load_keeps_limits hnew hbefore hd hdone
  exact ⟨s, events, w, d, w', m, l, hnew, hbefore, hd, hdone, hlater, hm, hlast, hlast ▸ hkeeps,
    hstays later w' hlater (by simp [later, Command.subject?])⟩

end Ledger

end Aperture
