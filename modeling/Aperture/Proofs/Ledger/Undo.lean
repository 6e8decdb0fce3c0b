import Aperture.Proofs.Frames.Arena
import Aperture.Proofs.Ledger.Entries
import Aperture.Proofs.Tag.Reload
import Aperture.Restored

namespace Aperture

namespace Table

variable {t : Table} {b : Block} {frames : List FrameNo} {traits : Traits} {a : BusAddr}

theorem Shows.idleBeyond {γ : Wiring} (h : t.Shows γ) : t.IdleBeyond γ.bindings := by
  refine ⟨h.aligned, fun a ha hfree => ?_⟩
  rw [h.entry a ha, Option.map_eq_none_iff.mp hfree]
  rfl

/-- Binding pages that have the scribble entry, and unbinding them again, leaves each entry as it
was. -/
theorem entryAt?_binds_unbinds (ht : t.aperture.pageOffset = 0) (hb : b.IsPages frames.length)
    (ha : t.Covers a) (hidle : b.Holds a → t.entryAt? a = some t.scribble) :
    ((b.binds frames traits ++ b.unbinds frames).foldl apply t).entryAt? a = t.entryAt? a := by
  have haligned (x : BusAddr × PhysAddr) (hx : x ∈ b.layout frames) : x.1.pageOffset = 0 :=
    hb.pageOffset_layout hx
  by_cases hin : ∃ p, (a, p) ∈ b.layout frames
  · obtain ⟨p, hp⟩ := hin
    have hbound : ((b.binds frames traits).foldl apply t).aperture.pageOffset = 0 := by
      rw [aperture_applyAll, ht]
    have hcovers : ((b.binds frames traits).foldl apply t).Covers a :=
      ha.congr (t.aperture_applyAll _) (t.size_entries_applyAll _)
    have hunbound := entryAt?_applyAll_unbind hbound hcovers haligned hb.nodup_layout hp
    rw [hidle (hb.holds_layout hp), ← t.scribble_applyAll (b.binds frames traits), ← hunbound,
      List.foldl_append, Block.unbinds, List.foldl_append]
    rfl
  · have houtside {c : TableCall} (hc : c ∈ b.binds frames traits ++ b.unbinds frames)
        {bus : BusAddr} (hbus : c.bus? = some bus) : ∃ p, (bus, p) ∈ b.layout frames := by
      cases List.mem_append.mp hc with
      | inl hbind => exact Bindings.exists_of_mem_binds hbind hbus
      | inr hunbind => exact Bindings.exists_of_mem_unbinds hunbind hbus
    refine entryAt?_applyAll_of_ne ht ha.aligned (fun c hc bus hbus => ?_) fun c hc hbus => ?_
    · obtain ⟨p, hp⟩ := houtside hc hbus
      exact haligned (bus, p) hp
    · exact hin (houtside hc hbus)

end Table

namespace Ledger

variable {w w' : Ledger} {t t' : Tag} {name : String} {m m' : Mapping} {l : Loaded} {p : Payload}
  {d : Step}

structure Loads (w : Ledger) (t : Tag) (name : String) (p : Payload) (m : Mapping) (l : Loaded)
    (o : Tag.Outcome) : Prop where
  mapping : w.session.mapping? name = some m
  empty : m.loaded = none
  load : t.load m p = .ok o
  vacant : t.pool.Vacant l.block
  fits : l.Fits
  tag : o.tag = t.withBlocks (Pool.insert l.block t.pool.blocks)
  after : o.mapping = { m with loaded := some l }
  result : o.result = .ok ()
  calls : Event.tableCalls o.events = l.block.binds (Run.frames l.runs) m.limits.traits

theorem Sound.loads_of_done (hs : w.Sound t) (ht : w.session.tag = some t)
    (h : w.session.step (.act name (.load p)) = .ok d) (hdone : d.reply = .done) :
    ∃ m l o, w.Loads t name p m l o ∧ d = w.session.loadStep name o := by
  obtain ⟨hno, -⟩ | ⟨m, -, hm, hnone, -⟩ := hs.load_cases ht h
  · rw [hdone] at hno
    cases hno
  rw [Session.step_load ht hm] at h
  obtain ⟨o, hload, rfl⟩ := Checked.map_eq_ok.mp h
  have hdone : Reply.ofResult o.result = .done := hdone
  cases Tag.loadEffect_of_load hs.occupied.wellFormed (hs.blank _ (Session.mem_mappings hm))
    hload with
  | declined d ho =>
    rw [ho] at hdone
    cases hdone
  | unwound b frames _ _ _ _ hresult =>
    rw [hresult] at hdone
    cases hdone
  | loaded l hvacant hfits _ _ _ htag hmapping hresult hcalls =>
    exact ⟨m, l, o, ⟨hm, hnone, hload, hvacant, hfits, htag, hmapping, hresult, hcalls⟩, rfl⟩

/-- After a load that is done the unload is done, and has the tag of before. -/
theorem Loads.unload {o : Tag.Outcome} (h : w.Loads t name p m l o) :
    ∃ u, (w.session.loadStep name o).session.step (.act name .unload) = .ok u ∧
      u.reply = .done ∧ u.session.tag = some t ∧
      u.session.HasBeside (w.session.loadStep name o).session name (some m) ∧
      Event.tableCalls u.events = l.block.unbinds (Run.frames l.runs) := by
  have hmem : l.block ∈ o.tag.pool.blocks := by
    rw [h.tag]
    exact (Pool.insert_perm l.block t.pool.blocks).mem_iff.mpr (by simp)
  have hback : o.tag.withBlocks (o.tag.pool.blocks.erase l.block) = t := by
    rw [h.tag]
    show t.withBlocks ((Pool.insert l.block t.pool.blocks).erase l.block) = t
    rw [Pool.erase_insert h.vacant.not_mem]
    rfl
  have hempty : { o.mapping with loaded := none } = m := by
    rw [h.after, ← h.empty]
  have hloaded : o.mapping.loaded = some l := by rw [h.after]
  have hunload := Tag.unload_eq hloaded h.fits hmem
  rw [hback, hempty] at hunload
  have hm : (w.session.loadStep name o).session.mapping? name = some o.mapping :=
    (Session.hasBeside_put _ name _).mapping?_self
  rw [Session.step_act rfl hm, Session.act, hunload]
  exact ⟨_, rfl, rfl, rfl, rfl, Event.tableCalls_map_table _⟩

/-- A mapping that was not renewed is loaded again: with the same things recorded, beside the same
blocks and with the same alignment, the load comes to the same. -/
theorem Loads.again {o : Tag.Outcome} {cs : List Command} (h : w.Loads t name p m l o)
    (hw : w.Reachable) (ht : w.session.tag = some t) (hrun : w.runAll cs = .ok w')
    (ht' : w'.session.tag = some t') (hrecorded : t'.recorded = t.recorded)
    (hblocks : t'.pool.blocks = t.pool.blocks)
    (hcs : ∀ c ∈ cs, c.renews t.memory.host.storage name = false)
    (hm' : w'.session.mapping? name = some m') (hempty : m'.loaded = none)
    (halignment : m'.alignment = m.alignment) :
    m' = m ∧ ∃ o', t'.load m' p = .ok o' ∧ o.Like o' := by
  obtain ⟨t₀, ht₀, hrange, hhost⟩ := hw.sameRange_runAll hrun ht'
  obtain rfl := Option.some.inj (ht.symm.trans ht₀)
  have htwin : t.Twin t' := ⟨hrange.eq_of_blocks hblocks, hrecorded, hhost⟩
  have hstorage (t₁ : Tag) (ht₁ : w.session.tag = some t₁) :
      t₁.memory.host.storage = t.memory.host.storage := by
    rw [Option.some.inj (ht₁.symm.trans ht)]
  obtain ⟨m₀, hm₀, halike⟩ := alike_runAll hrun hstorage hcs h.mapping
  obtain rfl := Option.some.inj (hm'.symm.trans hm₀)
  have hsame : m' = m := halike.eq halignment (hempty.trans h.empty.symm)
  rw [hsame]
  exact ⟨rfl, htwin.load h.empty h.load⟩

/-- Unloading restores the ledger that the load was made in. -/
theorem Loads.restored {o : Tag.Outcome} {u : Step} (h : w.Loads t name p m l o) (hs : w.Sound t)
    (ht : w.session.tag = some t)
    (hload : w.session.step (.act name (.load p)) = .ok (w.session.loadStep name o))
    (hu : (w.session.loadStep name o).session.step (.act name .unload) = .ok u)
    (htag : u.session.tag = some t)
    (hmappings : u.session.HasBeside (w.session.loadStep name o).session name (some m))
    (hunbinds : Event.tableCalls u.events = l.block.unbinds (Run.frames l.runs)) :
    w.Restored ((w.after (.act name (.load p)) (w.session.loadStep name o)).after
      (.act name .unload) u) := by
  have hfree (a : BusAddr) (ha : l.block.Holds a) : w.bindings a = none :=
    hs.occupied.eq_none_of_vacant h.vacant ha
  refine ⟨htag.trans ht.symm, fun other => ?_, ?_, fun table htable hidle => ?_⟩
  · show u.session.mapping? other = _
    by_cases he : other = name
    · rw [he, hmappings.mapping?_self, h.mapping]
    · rw [hmappings.mapping?_of_ne he]
      exact (Session.hasBeside_put w.session name o.mapping).mapping?_of_ne he
  · rw [bindings_after, bindings_after, hunbinds]
    show (w.bindings.applyAll (Event.tableCalls o.events)).applyAll _ = w.bindings
    rw [h.calls, ← Bindings.applyAll_append]
    exact Bindings.applyAll_binds_unbinds h.fits.pages hfree
  · have hrestored : u.session.table = some
        ((l.block.binds (Run.frames l.runs) m.limits.traits ++
          l.block.unbinds (Run.frames l.runs)).foldl Table.apply table) := by
      rw [Session.table_of_step hu, Session.table_of_step hload, htable, hunbinds,
        List.foldl_append, ← h.calls]
      rfl
    refine ⟨_, hrestored, fun a ha => ?_⟩
    exact Table.entryAt?_binds_unbinds hidle.aligned h.fits.pages ha fun hholds =>
      hidle.idle a ha (hfree a hholds)

/-- Storage that is used again comes to hold the frames of the payload, whatever it held. -/
theorem Loads.reholds {o : Tag.Outcome} (h : w.Loads t name p m l o) (hs : w.Sound t) {a : Arena}
    (hslots : a.slots.size = m.frames.capacity) (horder : a.order.size = a.slots.size) :
    a.Reholds l := by
  have hloaded : o.mapping.loaded = some l := by rw [h.after]
  obtain ⟨s, hrecord, hassign⟩ := Tag.record_of_load h.load h.empty hloaded
  rw [(hs.blank _ (Session.mem_mappings h.mapping)).frames, ← hslots] at hrecord
  exact Arena.live_eq horder hrecord hassign h.fits.laid.wellFormed

/-- Over a table that is scrubbed first, pages that are not bound have the scribble entry, as long
as the tag is there. -/
theorem idleBeyond_of_run {table : Table} {memory : HostMemory} {cache : Option Cache} {s : Session}
    {events : List Event} {cs : List Command} (haligned : table.aperture.pageOffset = 0)
    (hnew : Session.new name none (some table.scrub) memory cache = .ok (s, events))
    (hrun : (start s).runAll cs = .ok w) (ht : w.session.tag = some t) :
    ∃ final, w.session.table = some final ∧ final.IdleBeyond w.bindings := by
  obtain ⟨-, t₀, -, -, rfl⟩ := Session.new_of_table hnew
  obtain ⟨hcalls, hfresh⟩ := ((Reachable.start hnew).runAll hrun).calls_fresh t ht
  refine ⟨_, table_runAll hrun rfl, ?_⟩
  rw [← bindings_wiring]
  exact ((Table.shows_scrub haligned).applyAll hcalls hfresh).idleBeyond

/-- A load that is done can be undone: the unload is done too, and all is as it was. Loaded again,
the payload comes to the same. So it does in any later state, unless the mapping was made anew, in
which the mapping is empty and has the alignment that it had, with the same things recorded and the
same blocks handed out: whatever was loaded in the meantime, the block, the frames, the runs and the
segments are the same. Nor does it matter what the storage for the frames still holds. -/
theorem Reachable.load_undone (hw : w.Reachable) (ht : w.session.tag = some t)
    (h : w.session.step (.act name (.load p)) = .ok d) (hdone : d.reply = .done) :
    ∃ m l u, w.session.mapping? name = some m ∧ m.loaded = none ∧
      d.session.mapping? name = some { m with loaded := some l } ∧
      d.session.step (.act name .unload) = .ok u ∧ u.reply = .done ∧
      w.Restored ((w.after (.act name (.load p)) d).after (.act name .unload) u) ∧
      (∃ again, u.session.step (.act name (.load p)) = .ok again ∧ again.reply = .done ∧
        again.session.tag = d.session.tag ∧
        again.session.mapping? name = some { m with loaded := some l }) ∧
      (∀ cs v t' m', (w.after (.act name (.load p)) d).runAll cs = .ok v →
        (∀ c ∈ cs, c.renews t.memory.host.storage name = false) → v.session.tag = some t' →
        t'.recorded = t.recorded → t'.pool.blocks = t.pool.blocks →
        v.session.mapping? name = some m' → m'.loaded = none → m'.alignment = m.alignment →
        ∃ again, v.session.step (.act name (.load p)) = .ok again ∧ again.reply = .done ∧
          again.session.mapping? name = some { m with loaded := some l }) ∧
      ∀ a : Arena, a.slots.size = m.frames.capacity → a.order.size = a.slots.size →
        a.Reholds l := by
  have hs := hw.sound t ht
  obtain ⟨m, l, o, hloads, rfl⟩ := hs.loads_of_done ht h hdone
  obtain ⟨u, hu, hudone, hutag, humappings, hunbinds⟩ := hloads.unload
  -- a load answers what its outcome says, and puts the mapping of the outcome
  have replies {s : Session} {o' : Tag.Outcome} (hlike : o.Like o') :
      (s.loadStep name o').reply = .done ∧
        (s.loadStep name o').session.mapping? name = some { m with loaded := some l } := by
    constructor
    · show Reply.ofResult o'.result = .done
      rw [hlike.result, hloads.result]
      rfl
    · rw [← hloads.after, ← hlike.mapping]
      exact (Session.hasBeside_put _ name _).mapping?_self
  refine ⟨m, l, u, hloads.mapping, hloads.empty, (replies ⟨rfl, rfl⟩).2, hu, hudone,
    hloads.restored hs ht h hu hutag humappings hunbinds, ?_, ?_,
    fun a hslots horder => hloads.reholds hs hslots horder⟩
  · obtain ⟨hreply, hmapping⟩ := replies (s := u.session) ⟨rfl, rfl⟩
    refine ⟨u.session.loadStep name o, ?_, hreply, rfl, hmapping⟩
    rw [Session.step_load hutag humappings.mapping?_self, hloads.load]
    rfl
  · intro cs v t' m' hrun hcs ht' hrecorded hblocks hm' hempty halignment
    have hall : w.runAll (.act name (.load p) :: cs) = .ok v := by
      rw [Ledger.runAll, step_eq_ok.mpr ⟨_, h, rfl⟩]
      exact hrun
    have hrenews : ∀ c ∈ Command.act name (.load p) :: cs,
        c.renews t.memory.host.storage name = false := by
      intro c hc
      cases List.mem_cons.mp hc with
      | inl he => rw [he]; rfl
      | inr hmem => exact hcs c hmem
    obtain ⟨-, o', ho', hlike⟩ :=
      hloads.again hw ht hall ht' hrecorded hblocks hrenews hm' hempty halignment
    refine ⟨v.session.loadStep name o', ?_, replies hlike⟩
    rw [Session.step_load ht' hm', ho']
    rfl

/-- Beside another mapping, a payload is loaded and unloaded. Then the mapping has a larger payload
in the same block, and after that the first one once more. -/
theorem load_undone_after_reuse :
    let limits : Limits := ⟨0x4000, 4, 0x2000, 0, {}⟩
    let first : Command := .act "m" (.load (.raw [⟨⟨0x9800⟩, 0x1000⟩, ⟨⟨0x5000⟩, 0x800⟩]))
    let cs : List Command := [.create "n" limits, .act "n" (.load (.raw [⟨⟨0x7000⟩, 0x1000⟩])),
      .create "m" limits]
    let between : List Command := [.act "m" .unload,
      .act "m" (.load (.raw [⟨⟨0x3000⟩, 0x4000⟩])), .act "m" .unload]
    ∃ (table : Table) (s : Session) (events : List Event) (w v : Ledger) (d u again : Step)
      (m : Mapping) (l : Loaded),
      Session.new "plain" none (some table.scrub) ⟨none, .plain⟩ none = .ok (s, events) ∧
      (start s).runAll cs = .ok w ∧ w.session.step first = .ok d ∧ d.reply = .done ∧
      w.session.mapping? "m" = some m ∧ m.loaded = none ∧
      d.session.mapping? "m" = some { m with loaded := some l } ∧
      d.session.step (.act "m" .unload) = .ok u ∧
      w.Restored ((w.after first d).after (.act "m" .unload) u) ∧
      (∃ final, w.session.table = some final ∧ final.IdleBeyond w.bindings) ∧
      (w.after first d).runAll between = .ok v ∧ v.session.step first = .ok again ∧
      again.reply = .done ∧ again.session.mapping? "m" = some { m with loaded := some l } := by
  intro limits first cs between
  have hrun : (do
      let made ← Session.new "plain" none
        (some (Table.scrub ⟨⟨0xd0000000⟩, ⟨0x7ff001⟩, Array.replicate 8 ⟨0xdeadbeef⟩, 0⟩))
        ⟨none, .plain⟩ none
      let w ← (start made.1).runAll cs
      let d ← w.session.step first
      let v ← (w.after first d).runAll between
      return (d.reply.isDone, do
        let t ← w.session.tag
        let m ← w.session.mapping? "m"
        let t' ← v.session.tag
        let m' ← v.session.mapping? "m"
        return decide ((t'.recorded.alignment = t.recorded.alignment ∧
          t'.recorded.boundary = t.recorded.boundary) ∧ t'.pool.blocks = t.pool.blocks ∧
          m'.loaded.isNone ∧ m'.alignment = m.alignment)) : Checked _).toOption =
        some (true, some true) := by decide +kernel
  obtain ⟨⟨s, events⟩, hnew, hrun⟩ := Checked.bind_eq_ok.mp (Checked.eq_ok_of_toOption hrun)
  obtain ⟨w, hw, hrun⟩ := Checked.bind_eq_ok.mp hrun
  obtain ⟨d, hd, hrun⟩ := Checked.bind_eq_ok.mp hrun
  obtain ⟨v, hv, hrun⟩ := Checked.bind_eq_ok.mp hrun
  obtain ⟨hdone, hrun⟩ := Prod.mk.inj (Except.ok.inj hrun)
  obtain ⟨t, ht, hrun⟩ := Option.bind_eq_some_iff.mp hrun
  obtain ⟨m, hm, hrun⟩ := Option.bind_eq_some_iff.mp hrun
  obtain ⟨t', ht', hrun⟩ := Option.bind_eq_some_iff.mp hrun
  obtain ⟨m', hm', hrun⟩ := Option.bind_eq_some_iff.mp hrun
  obtain ⟨⟨halign, hboundary⟩, hblocks, hempty', halignment⟩ :=
    of_decide_eq_true (Option.some.inj hrun)
  have hrecorded : t'.recorded = t.recorded := by
    calc t'.recorded = ⟨t'.recorded.alignment, t'.recorded.boundary⟩ := rfl
      _ = ⟨t.recorded.alignment, t.recorded.boundary⟩ := by rw [halign, hboundary]
  have hdone := Reply.isDone_iff.mp hdone
  obtain ⟨m₁, l, u, hm₁, hempty, hl, hu, -, hrestored, -, hlater, -⟩ :=
    Reachable.load_undone ((Reachable.start hnew).runAll hw) ht hd hdone
  obtain rfl := Option.some.inj (hm.symm.trans hm₁)
  have hrenews : ∀ c ∈ between, c.renews t.memory.host.storage "m" = false := by
    simp [between, Command.renews]
  obtain ⟨again, hagain, hredone, hl'⟩ := hlater between v t' m' hv hrenews ht' hrecorded hblocks
    hm' (Option.isNone_iff_eq_none.mp hempty') halignment
  exact ⟨_, s, events, w, v, d, u, again, m, l, hnew, hw, hd, hdone, hm, hempty, hl, hu, hrestored,
    idleBeyond_of_run rfl hnew hw ht, hv, hagain, hredone, hl'⟩

end Ledger

end Aperture
