import Aperture.Proofs.Ledger.DeviceView
import Aperture.Proofs.Session.Changes
import Aperture.Proofs.Tag.Aside
import Aperture.Proofs.Tag.Sync

namespace Aperture

theorem Run.frameAt_base {r : Run .phys} (hin : r.InPage) {n : Nat} (hn : n ∈ r.bytes) :
    (frameAt n).base = r.addr.pageBase := by
  have hframes : frameAt n ∈ List.replicate r.length.toNat r.addr.pageNo := by
    rw [← Payload.map_frameAt_bytes hin]
    exact List.mem_map_of_mem hn
  rw [List.eq_of_mem_replicate hframes, PageNo.base_pageNo]

namespace SyncPlan

variable {l : Loaded} {p : Payload} {offset length : Word} {calls : List CacheCall}

theorem Flushes.isFlush (h : Flushes l offset length calls) : ∀ c ∈ calls, c.IsFlush := by
  intro c hc
  cases h with
  | linear _ _ hvirtual =>
    obtain ⟨r, rfl⟩ := hvirtual c hc
    exact .virtual r
  | raw _ hruns =>
    obtain ⟨a, rfl⟩ := hruns.pages c hc
    exact .page a

theorem Flushes.reaches (h : Flushes l offset length calls) {host : Host} (hfits : l.Fits)
    (hfaithful : Tenancy.Faithful ⟨p, l⟩ host)
    (hinside : offset.toNat + length.toNat ≤ l.length.toNat) {i : Nat} (hi : i < length.toNat) :
    p.ReachedBy calls (offset.toNat + i) := by
  have hbegin := start_le offset
  have hend := le_stop offset length
  have hshape := hfaithful.shape
  cases h with
  | @linear base _ hlinear hbase _ hbytes =>
    cases p with
    | linear base' size space =>
      obtain rfl : base = base' := Option.some.inj (hbase.symm.trans hfaithful.base)
      have hmem : base.word.toNat + (offset.toNat + i) ∈ calls.flatMap CacheCall.bytes := by
        rw [hbytes, List.mem_range'_1]
        omega
      obtain ⟨c, hc, hbyte⟩ := List.mem_flatMap.mp hmem
      cases c with
      | virtual r => exact ⟨r, hc, hbyte⟩
      | fence | page | all => cases hbyte
    | chain | scatter | raw => cases hlinear.symm.trans hshape
  | raw hraw hruns =>
    cases p with
    | raw runs =>
      have hbytes := hfaithful.bytes (Payload.isPaged_of_raw rfl)
      have hlength : (l.runs.flatMap Run.bytes).length = l.length.toNat :=
        Payload.length_bytes hbytes hfaithful.length
      obtain ⟨n, hn⟩ : ∃ n, (l.runs.flatMap Run.bytes)[offset.toNat + i]? = some n :=
        ⟨_, List.getElem?_eq_getElem (by omega)⟩
      obtain ⟨before, r, after, hsplit, hbefore, hafter, hplace⟩ := Run.exists_of_getElem?_bytes hn
      have hin : r.InPage := by
        refine hfits.inPage r (by simp [hsplit]) (Run.isEmpty_eq_false_iff.mpr ?_)
        omega
      have hbyte : n ∈ r.bytes := by
        rw [Run.bytes, List.mem_range'_1]
        omega
      have hreached : Run.Reaches (start offset) (stop offset length) 0 l.runs r :=
        ⟨before, after, hsplit, by omega, by omega⟩
      have hflushed := (hruns.mem_iff r.addr.pageBase).mpr (.inr ⟨r, hreached, rfl⟩)
      refine ⟨_, n, hbytes, hn, ?_⟩
      rw [Run.frameAt_base hin hbyte]
      simpa using hflushed
    | linear | chain | scatter => cases hraw.symm.trans hshape

/-- Pages counted from the start of a run are pages of the run if it begins with a page, or if it
goes on into the page after them. -/
theorem forall_sharesPage_iff {r : Run .virt} (hpos : 0 < length.toNat)
    (hinside : offset.toNat + length.toNat ≤ r.length.toNat) :
    (∀ n ∈ List.range' (r.addr.word.toNat + start offset) (stop offset length - start offset),
      r.SharesPage n) ↔
      r.addr.pageOffset = 0 ∨
        pagesFor (offset.toNat + length.toNat) < pagesFor (r.addr.pageOffset + r.length.toNat) := by
  have hshares (n : Nat) := Run.sharesPage_iff (r := r) (n := n) (by omega)
  simp only [hshares, List.mem_range'_1]
  have hbegin := start_le offset
  have hend := le_stop offset length
  constructor
  · intro hall
    obtain ⟨-, hlast⟩ := hall (r.addr.word.toNat + stop offset length - 1) (by omega)
    rw [Addr.pageOffset_eq]
    unfold stop at hend hlast
    unfold pagesFor pageSize at hend hlast ⊢
    omega
  · intro hroom n hn
    rw [Addr.pageOffset_eq] at hroom
    unfold stop at hn
    unfold pagesFor pageSize at *
    omega

theorem Flushes.virtual_on_pages_iff {base : VirtAddr} (h : Flushes l offset length calls)
    (hshape : l.shape = .linear) (hbase : l.base = some base) (hpos : 0 < length.toNat)
    (hinside : offset.toNat + length.toNat ≤ l.length.toNat) :
    (∀ r, .virtual r ∈ calls → ∀ n ∈ r.bytes, Run.SharesPage ⟨base, l.length⟩ n) ↔
      base.pageOffset = 0 ∨
        pagesFor (offset.toNat + length.toNat) < pagesFor (base.pageOffset + l.length.toNat) := by
  cases h with
  | raw hraw => cases hraw.symm.trans hshape
  | @linear base' _ _ hbase' hvirtual hbytes =>
    obtain rfl : base' = base := Option.some.inj (hbase'.symm.trans hbase)
    have hwindow := forall_sharesPage_iff (r := ⟨base', l.length⟩) hpos hinside
    rw [← hbytes] at hwindow
    rw [← hwindow]
    constructor
    · intro hall n hn
      obtain ⟨c, hc, hn⟩ := List.mem_flatMap.mp hn
      obtain ⟨r, rfl⟩ := hvirtual c hc
      exact hall r hc n hn
    · intro hall r hr n hn
      exact hall n (List.mem_flatMap.mpr ⟨_, hr, hn⟩)

theorem Flushes.page_mem_iff (h : Flushes l offset length calls) (hshape : l.shape = .raw)
    {a : PhysAddr} : .page a ∈ calls ↔
      ∃ r, Run.Reaches (start offset) (stop offset length) 0 l.runs r ∧ r.addr.pageBase = a := by
  cases h with
  | linear hlinear => cases hlinear.symm.trans hshape
  | raw _ hruns => simpa using hruns.mem_iff a

end SyncPlan

/-- The frames that are recorded are those of the runs with bytes. -/
theorem Loaded.Fits.contains_iff {l : Loaded} (h : l.Fits) {a : PhysAddr} :
    l.frames.contains a ↔ a.pageNo ∈ Run.frames l.runs := by
  rw [h.laid.wellFormed.contains_iff, h.laid.frames_eq]

/-- Only the pages of runs without bytes may be flushed and not be recorded. -/
theorem SyncPlan.Flushes.recorded_iff {l : Loaded} {offset length : Word} {calls : List CacheCall}
    (h : Flushes l offset length calls) (hfits : l.Fits) (hshape : l.shape = .raw) :
    (∀ a, .page a ∈ calls → l.frames.contains a) ↔
      ∀ r, Run.Reaches (start offset) (stop offset length) 0 l.runs r → r.isEmpty →
        l.frames.contains r.addr := by
  have hbase (r : Run .phys) : l.frames.contains r.addr.pageBase ↔ l.frames.contains r.addr := by
    rw [hfits.contains_iff, hfits.contains_iff, Addr.pageNo_pageBase]
  constructor
  · intro hall r hr _
    exact (hbase r).mp (hall _ ((h.page_mem_iff hshape).mpr ⟨r, hr, rfl⟩))
  · intro hempty a ha
    obtain ⟨r, hr, rfl⟩ := (h.page_mem_iff hshape).mp ha
    apply (hbase r).mpr
    cases he : r.isEmpty with
    | true => exact hempty r hr he
    | false =>
      obtain ⟨before, after, hruns, -⟩ := hr
      exact hfits.contains_iff.mpr (Run.mem_frames.mpr ⟨r, by simp [hruns], he, rfl⟩)

/-- What is planned for a mapping, and not refused, is what a session does for it. -/
theorem Session.syncMakes_of_plan {s : Session} {t : Tag} {name : String} {m : Mapping}
    {lineSize offset length : Word} {phases : Phases} {plan : SyncPlan} (ht : s.tag = some t)
    (hm : s.mapping? name = some m) (h : m.syncPlan lineSize offset length phases = .ok plan)
    (hdone : plan.result = .ok ()) :
    s.SyncMakes t name lineSize offset length phases plan.calls := by
  rintro cache written hcache rfl hwritten
  have hsync : t.sync m offset length phases = .ok (.ok (), written.map Event.cache) := by
    rw [Tag.sync, hcache]
    dsimp only
    rw [h, Checked.ok_bind]
    exact Cache.follow_of_done hdone hwritten
  rw [step_act ht hm, act, hsync]
  exact ⟨_, rfl, rfl, Event.cacheCalls_map_cache written⟩

namespace Ledger

section Plans

variable {w : Ledger} {t : Tag} {name : String} {m : Mapping} {l : Loaded}
  {lineSize offset length : Word} {phases : Phases} {plan : SyncPlan}

theorem Reachable.fits_faithful (hw : w.Reachable) (ht : w.session.tag = some t)
    (hm : w.session.mapping? name = some m) (hl : m.loaded = some l) :
    l.Fits ∧ Tenancy.Faithful ⟨w.payloads name, l⟩ t.memory.host := by
  have hs := hw.sound t ht
  have hmem := mem_tenancies hm hl
  exact ⟨hs.fits hmem, hs.faithful _ hmem⟩

/-- The frames that are recorded for a physical payload are those that hold its bytes. -/
theorem Reachable.contains_iff (hw : w.Reachable) (ht : w.session.tag = some t)
    (hm : w.session.mapping? name = some m) (hl : m.loaded = some l)
    (hraw : (w.payloads name).shape = .raw) {a : PhysAddr} :
    l.frames.contains a ↔ a.pageNo ∈ (w.payloads name).frames := by
  obtain ⟨hfits, hfaithful⟩ := hw.fits_faithful ht hm hl
  rw [hfits.contains_iff,
    Payload.frames_eq (hfaithful.bytes (Payload.isPaged_of_raw hraw)) hfits.inPage]

/-- A payload that is loaded into a mapping of a new session, and what is to be seen of tag and
mapping then. -/
theorem exists_loaded {α : Type} (memory : HostMemory) (cache : Option Cache) (p : Payload)
    (look : Tag → Mapping → Option α) (seen : α)
    (hrun : (do
      let (s, _) ← Session.new "plain" (some (⟨0x10000⟩, 0x10000)) none memory cache
      let w ← (start s).runAll [.create "m" ⟨0x4000, 8, 0x4000, 0, {}⟩]
      let d ← w.session.step (.act "m" (.load p))
      return (w.session.tag.isSome, d.reply.isDone, do
        look (← d.session.tag) (← d.session.mapping? "m")) : Checked _).toOption =
        some (true, true, some seen)) :
    ∃ (w : Ledger) (t : Tag) (m : Mapping) (l : Loaded), w.Reachable ∧
      w.session.tag = some t ∧ t.memory.host = memory.host ∧
      w.session.mapping? "m" = some m ∧ m.loaded = some l ∧ w.payloads "m" = p ∧
      look t m = some seen := by
  obtain ⟨⟨s, events⟩, hs, hrun⟩ := Checked.bind_eq_ok.mp (Checked.eq_ok_of_toOption hrun)
  obtain ⟨w, hw, hrun⟩ := Checked.bind_eq_ok.mp hrun
  obtain ⟨d, hd, hrun⟩ := Checked.bind_eq_ok.mp hrun
  obtain ⟨htag, hrun⟩ := Prod.mk.inj (Except.ok.inj hrun)
  obtain ⟨hdone, hrun⟩ := Prod.mk.inj hrun
  obtain ⟨t, ht⟩ := Option.isSome_iff_exists.mp htag
  have hreach := (Reachable.start hs).runAll hw
  obtain ⟨m, l, t', ht', hm, hl, hp, hhost⟩ :=
    (hreach.sound t ht).loaded_of_done ht hd (Reply.isDone_iff.mp hdone)
  obtain ⟨-, t₀, ht₀, -, hmemory⟩ := lawful_start hs
  obtain ⟨t₁, ht₁, hkept⟩ := host_runAll hw ht
  obtain rfl := Option.some.inj (ht₀.symm.trans ht₁)
  rw [hkept, hmemory] at hhost
  obtain ⟨t'', ht'', hrun⟩ := Option.bind_eq_some_iff.mp hrun
  obtain ⟨m', hm', hrun⟩ := Option.bind_eq_some_iff.mp hrun
  obtain rfl : t'' = t' := Option.some.inj (ht''.symm.trans ht')
  obtain rfl : m' = m := Option.some.inj (hm'.symm.trans hm)
  exact ⟨_, t'', m', l, hreach.step (step_eq_ok.mpr ⟨d, hd, rfl⟩), ht', hhost, hm, hl, hp,
    hrun⟩

/-- A payload that is loaded into a mapping of a new session whose caches write their calls down,
and synchronised before a transfer. -/
theorem exists_synced (memory : HostMemory) (p : Payload) (offset length : Word)
    (calls : List CacheCall)
    (hrun : (do
      let (s, _) ← Session.new "plain" (some (⟨0x10000⟩, 0x10000)) none memory
        (some (.recorded 64))
      let w ← (start s).runAll [.create "m" ⟨0x4000, 8, 0x4000, 0, {}⟩]
      let d ← w.session.step (.act "m" (.load p))
      return (w.session.tag.isSome, d.reply.isDone, do
        let t ← d.session.tag
        let m ← d.session.mapping? "m"
        let cache ← t.cache
        let plan ← (m.syncPlan 64 offset length { preWrite := true }).toOption
        return decide (cache.told? = some 64 ∧ m.limits.traits.coherent = false ∧
          plan.result.isOk = true ∧ plan.calls = calls)) : Checked _).toOption =
        some (true, true, some true)) :
    ∃ (w : Ledger) (t : Tag) (m : Mapping) (l : Loaded) (plan : SyncPlan) (cache : Cache),
      w.Reachable ∧ w.session.tag = some t ∧ w.session.mapping? "m" = some m ∧
      m.loaded = some l ∧ w.payloads "m" = p ∧ m.FlushesPages 64 { preWrite := true } ∧
      m.syncPlan 64 offset length { preWrite := true } = .ok plan ∧ plan.result = .ok () ∧
      plan.calls = calls ∧ t.cache = some cache ∧ cache.lineSize = 64 ∧
      ∀ calls, cache.perform calls = .ok calls := by
  obtain ⟨w, t, m, l, hw, ht, -, hm, hl, hp, hseen⟩ :=
    exists_loaded memory (some (.recorded 64)) p _ true hrun
  obtain ⟨cache, hcache, hseen⟩ := Option.bind_eq_some_iff.mp hseen
  obtain ⟨plan, hplan, hseen⟩ := Option.bind_eq_some_iff.mp hseen
  obtain ⟨htold, hwatched, hresult, hcalls⟩ := of_decide_eq_true (Option.some.inj hseen)
  obtain ⟨-, hlineSize, hperform⟩ := Cache.of_told? htold
  have hok : plan.result = .ok () := by
    cases hcase : plan.result with
    | ok => rfl
    | error d => simp [hcase, Except.isOk, Except.toBool] at hresult
  exact ⟨w, t, m, l, plan, cache, hw, ht, hm, hl, hp, ⟨hwatched, rfl, by decide⟩,
    Checked.eq_ok_of_toOption hplan, hok, hcalls, hcache, hlineSize, hperform⟩

/-- A synchronisation that flushes pages flushes every byte asked for, between two fences, and makes
no other calls. -/
theorem Reachable.sync_reaches (hw : w.Reachable) (ht : w.session.tag = some t)
    (hm : w.session.mapping? name = some m) (hpages : m.FlushesPages lineSize phases)
    (h : m.syncPlan lineSize offset length phases = .ok plan) (hdone : plan.result = .ok ()) :
    (∃ flushes, plan.calls = .fence :: flushes ++ [.fence] ∧ (∀ c ∈ flushes, c.IsFlush) ∧
      ∀ i < length.toNat, (w.payloads name).ReachedBy flushes (offset.toNat + i)) ∧
      w.session.SyncMakes t name lineSize offset length phases plan.calls := by
  obtain ⟨l, hpart, hcases⟩ := Mapping.syncPlan_cases h hdone
  obtain ⟨hfits, hfaithful⟩ := hw.fits_faithful ht hm hpart.loaded
  refine ⟨?_, Session.syncMakes_of_plan ht hm h hdone⟩
  obtain ⟨hnone, -⟩ | ⟨-, flushes, hcalls, hflushes⟩ := hcases
  · exact absurd hpages hnone
  · exact ⟨flushes, hcalls, hflushes.isFlush,
      fun i hi => hflushes.reaches hfits hfaithful hpart.inside hi⟩

/-- The end of one run and the beginning of another, which is in the page flushed before. -/
theorem sync_reaches_across_runs :
    let phases : Phases := { preWrite := true }
    let flushes : List CacheCall := [.page ⟨0x5000⟩, .page ⟨0x6000⟩, .page ⟨0x9000⟩]
    ∃ (w : Ledger) (t : Tag) (m : Mapping) (plan : SyncPlan) (d : Step), w.Reachable ∧
      w.session.tag = some t ∧ w.session.mapping? "m" = some m ∧
      w.payloads "m" = .raw [⟨⟨0x5800⟩, 0x1000⟩, ⟨⟨0x6800⟩, 0x800⟩, ⟨⟨0x9000⟩, 0x1000⟩] ∧
      m.FlushesPages 64 phases ∧ m.syncPlan 64 0x10 0x1000 phases = .ok plan ∧
      plan.result = .ok () ∧ plan.calls = .fence :: flushes ++ [.fence] ∧
      (∀ i < 0x1000, (w.payloads "m").ReachedBy flushes (0x10 + i)) ∧
      w.session.step (.act "m" (.sync 0x10 0x1000 phases)) = .ok d ∧ d.reply = .done ∧
      Event.cacheCalls d.events = .fence :: flushes ++ [.fence] := by
  intro phases flushes
  obtain ⟨w, t, m, l, plan, cache, hw, ht, hm, -, hp, hpages, h, hdone, hcalls, hcache, hsize,
      hperform⟩ :=
    exists_synced ⟨none, .plain⟩
      (.raw [⟨⟨0x5800⟩, 0x1000⟩, ⟨⟨0x6800⟩, 0x800⟩, ⟨⟨0x9000⟩, 0x1000⟩]) 0x10 0x1000
      (.fence :: flushes ++ [.fence]) (by decide +kernel)
  obtain ⟨⟨flushes', hflushes, -, hreaches⟩, hmakes⟩ := hw.sync_reaches ht hm hpages h hdone
  have hsame : flushes ++ [.fence] = flushes' ++ [.fence] :=
    (List.cons.inj (hcalls.symm.trans hflushes)).2
  obtain rfl := List.append_cancel_right hsame
  obtain ⟨d, hd, hreply, hmade⟩ := hmakes cache _ hcache hsize (hperform _)
  exact ⟨w, t, m, plan, d, hw, ht, hm, hp, hpages, h, hdone, hcalls, hreaches, hd, hreply,
    hmade.trans hcalls⟩

/-- The pages that are flushed of a linear payload are its own if and only if it begins with a page,
or goes on after the last page of the part. -/
theorem Reachable.sync_on_pages (hw : w.Reachable) (ht : w.session.tag = some t)
    (hm : w.session.mapping? name = some m) {base : VirtAddr} {size : Word} {space : VirtSpace}
    (hlinear : w.payloads name = .linear base size space)
    (h : m.syncPlan lineSize offset length phases = .ok plan) (hdone : plan.result = .ok ()) :
    ((∀ r, .virtual r ∈ plan.calls → ∀ n ∈ r.bytes, Run.SharesPage ⟨base, size⟩ n) ↔
      (m.FlushesPages lineSize phases → base.pageOffset = 0 ∨
        pagesFor (offset.toNat + length.toNat) < pagesFor (base.pageOffset + size.toNat))) ∧
      w.session.SyncMakes t name lineSize offset length phases plan.calls := by
  obtain ⟨l, hpart, hcases⟩ := Mapping.syncPlan_cases h hdone
  obtain ⟨-, hfaithful⟩ := hw.fits_faithful ht hm hpart.loaded
  refine ⟨?_, Session.syncMakes_of_plan ht hm h hdone⟩
  rw [hlinear] at hfaithful
  obtain rfl : size = l.length := Option.some.inj hfaithful.length
  obtain ⟨hnone, hcalls⟩ | ⟨hpages, flushes, hcalls, hflushes⟩ := hcases
  · have hnothing (r : Run .virt) : .virtual r ∉ plan.calls := by
      obtain hcalls | hcalls := hcalls <;> simp [hcalls]
    simp [hnothing, hnone]
  · have hiff := hflushes.virtual_on_pages_iff hfaithful.shape hfaithful.base hpart.pos hpart.inside
    simpa [hcalls, hpages] using hiff

/-- A payload that begins in the middle of a page and goes on after the next. -/
theorem sync_on_pages_from_middle :
    let space : VirtSpace := .ofPages 1 [(⟨0x400⟩, #[⟨9⟩, ⟨4⟩, ⟨7⟩])]
    let phases : Phases := { preWrite := true }
    ∃ (w : Ledger) (t : Tag) (m : Mapping) (plan : SyncPlan) (d : Step), w.Reachable ∧
      w.session.tag = some t ∧ w.session.mapping? "m" = some m ∧
      w.payloads "m" = .linear ⟨0x400800⟩ 0x1900 space ∧
      m.syncPlan 64 0 0x1000 phases = .ok plan ∧ plan.result = .ok () ∧
      plan.calls = [.fence, .virtual ⟨⟨0x400800⟩, 0x1000⟩, .fence] ∧
      (∀ r, .virtual r ∈ plan.calls → ∀ n ∈ r.bytes,
        (⟨⟨0x400800⟩, 0x1900⟩ : Run .virt).SharesPage n) ∧
      w.session.step (.act "m" (.sync 0 0x1000 phases)) = .ok d ∧ d.reply = .done ∧
      Event.cacheCalls d.events = plan.calls := by
  intro space phases
  obtain ⟨w, t, m, l, plan, cache, hw, ht, hm, -, hp, -, h, hdone, hcalls, hcache, hsize,
      hperform⟩ :=
    exists_synced ⟨none, .plain⟩ (.linear ⟨0x400800⟩ 0x1900 space) 0 0x1000
      [.fence, .virtual ⟨⟨0x400800⟩, 0x1000⟩, .fence] (by decide +kernel)
  obtain ⟨hiff, hmakes⟩ := hw.sync_on_pages ht hm hp h hdone
  obtain ⟨d, hd, hreply, hmade⟩ := hmakes cache _ hcache hsize (hperform _)
  exact ⟨w, t, m, plan, d, hw, ht, hm, hp, h, hdone, hcalls, hiff.mpr fun _ => .inr (by decide),
    hd, hreply, hmade⟩

/-- Where the payload ends in the page that it begins in, the flush goes on into the next page. -/
theorem not_sync_on_pages :
    ¬ ∀ (w : Ledger) (t : Tag) (name : String) (m : Mapping) (base : VirtAddr) (size : Word)
      (space : VirtSpace) (lineSize offset length : Word) (phases : Phases) (plan : SyncPlan),
      w.Reachable → w.session.tag = some t → w.session.mapping? name = some m →
      w.payloads name = .linear base size space →
      m.syncPlan lineSize offset length phases = .ok plan → plan.result = .ok () →
      ∀ r, .virtual r ∈ plan.calls → ∀ n ∈ r.bytes, Run.SharesPage ⟨base, size⟩ n := by
  intro hall
  obtain ⟨w, t, m, l, plan, cache, hw, ht, hm, -, hp, -, h, hdone, hcalls, -⟩ :=
    exists_synced ⟨none, .plain⟩ (.linear ⟨0x400800⟩ 0x100 (.ofPages 1 [(⟨0x400⟩, #[⟨9⟩])])) 0 0x100
      [.fence, .virtual ⟨⟨0x400800⟩, 0x1000⟩, .fence] (by decide +kernel)
  have hflushed : 0x401000 ∈ Run.bytes (⟨⟨0x400800⟩, 0x1000⟩ : Run .virt) :=
    List.mem_range'_1.mpr (by decide)
  obtain ⟨b, hb, hpage⟩ := hall w t "m" m _ _ _ _ _ _ _ plan hw ht hm hp h hdone
    ⟨⟨0x400800⟩, 0x1000⟩ (by simp [hcalls]) 0x401000 hflushed
  have hrange : 0x400800 ≤ b ∧ b < 0x400800 + 0x100 := List.mem_range'_1.mp hb
  unfold pageSize at hpage
  omega

/-- The pages that are flushed of a physical payload are recorded, so that they hold bytes of it,
unless a run without bytes reaches into the part asked for. -/
theorem Reachable.sync_recorded (hw : w.Reachable) (ht : w.session.tag = some t)
    (hm : w.session.mapping? name = some m) (hl : m.loaded = some l) {runs : List (Run .phys)}
    (hraw : w.payloads name = .raw runs)
    (h : m.syncPlan lineSize offset length phases = .ok plan) (hdone : plan.result = .ok ()) :
    ((∀ a, .page a ∈ plan.calls → l.frames.contains a) ↔
      (m.FlushesPages lineSize phases → ∀ r,
        Run.Reaches (SyncPlan.start offset) (SyncPlan.stop offset length) 0 l.runs r →
          r.isEmpty → l.frames.contains r.addr)) ∧
      (t.memory.host.resolver = .direct → ∀ a, .page a ∈ plan.calls → l.frames.contains a) ∧
      (∀ a, l.frames.contains a ↔ a.pageNo ∈ (w.payloads name).frames) ∧
      w.session.SyncMakes t name lineSize offset length phases plan.calls := by
  obtain ⟨l', hpart, hcases⟩ := Mapping.syncPlan_cases h hdone
  obtain rfl : l' = l := Option.some.inj (hpart.loaded.symm.trans hl)
  obtain ⟨hfits, hfaithful⟩ := hw.fits_faithful ht hm hl
  have hshape : l'.shape = .raw := by rw [hfaithful.shape, hraw]; rfl
  have hiff : (∀ a, .page a ∈ plan.calls → l'.frames.contains a) ↔
      (m.FlushesPages lineSize phases → ∀ r,
        Run.Reaches (SyncPlan.start offset) (SyncPlan.stop offset length) 0 l'.runs r →
          r.isEmpty → l'.frames.contains r.addr) := by
    obtain ⟨hnone, hcalls⟩ | ⟨hpages, flushes, hcalls, hflushes⟩ := hcases
    · have hnothing (a : PhysAddr) : .page a ∉ plan.calls := by
        obtain hcalls | hcalls := hcalls <;> simp [hcalls]
      simp [hnothing, hnone]
    · simpa [hcalls, hpages] using hflushes.recorded_iff hfits hshape
  refine ⟨hiff, ?_, ?_, Session.syncMakes_of_plan ht hm h hdone⟩
  · intro hdirect
    refine hiff.mpr fun _ r hr he => ?_
    obtain ⟨before, after, hruns, -⟩ := hr
    rw [hfaithful.noneEmpty hdirect r (by simp [hruns])] at he
    cases he
  · intro a
    exact hw.contains_iff ht hm hl (by rw [hraw]; rfl)

/-- Between two runs with bytes is one without, in a page that holds no byte of the payload. -/
theorem synced_over_empty_run :
    let runs : List (Run .phys) := [⟨⟨0x5000⟩, 0x10⟩, ⟨⟨0x9000⟩, 0⟩, ⟨⟨0x6000⟩, 0x10⟩]
    ∃ (w : Ledger) (t : Tag) (m : Mapping) (l : Loaded) (plan : SyncPlan) (cache : Cache),
      w.Reachable ∧ w.session.tag = some t ∧ w.session.mapping? "m" = some m ∧
      m.loaded = some l ∧ w.payloads "m" = .raw runs ∧
      m.syncPlan 64 0 0x20 { preWrite := true } = .ok plan ∧ plan.result = .ok () ∧
      plan.calls = [.fence, .page ⟨0x5000⟩, .page ⟨0x9000⟩, .page ⟨0x6000⟩, .fence] ∧
      ¬ l.frames.contains ⟨0x9000⟩ ∧ t.cache = some cache ∧ cache.lineSize = 64 ∧
      ∀ calls, cache.perform calls = .ok calls := by
  intro runs
  obtain ⟨w, t, m, l, plan, cache, hw, ht, hm, hl, hp, -, h, hdone, hcalls, hcache⟩ :=
    exists_synced ⟨none, .ample, .verbatim⟩ (.raw runs) 0 0x20
      [.fence, .page ⟨0x5000⟩, .page ⟨0x9000⟩, .page ⟨0x6000⟩, .fence] (by decide +kernel)
  refine ⟨w, t, m, l, plan, cache, hw, ht, hm, hl, hp, h, hdone, hcalls, ?_, hcache⟩
  rw [hw.contains_iff ht hm hl (by rw [hp]; rfl), hp]
  decide +kernel

/-- So there a run without bytes reaches into the part asked for. -/
theorem sync_recorded_over_empty_run :
    let runs : List (Run .phys) := [⟨⟨0x5000⟩, 0x10⟩, ⟨⟨0x9000⟩, 0⟩, ⟨⟨0x6000⟩, 0x10⟩]
    let phases : Phases := { preWrite := true }
    ∃ (w : Ledger) (t : Tag) (m : Mapping) (l : Loaded) (plan : SyncPlan) (d : Step),
      w.Reachable ∧ w.session.tag = some t ∧ w.session.mapping? "m" = some m ∧
      m.loaded = some l ∧ w.payloads "m" = .raw runs ∧
      m.syncPlan 64 0 0x20 phases = .ok plan ∧ plan.result = .ok () ∧
      m.FlushesPages 64 phases ∧
      (∃ r, Run.Reaches (SyncPlan.start 0) (SyncPlan.stop 0 0x20) 0 l.runs r ∧ r.isEmpty ∧
        ¬ l.frames.contains r.addr) ∧
      w.session.step (.act "m" (.sync 0 0x20 phases)) = .ok d ∧ d.reply = .done ∧
      Event.cacheCalls d.events = plan.calls := by
  intro runs phases
  obtain ⟨w, t, m, l, plan, cache, hw, ht, hm, hl, hp, h, hdone, hcalls, hnew, hcache, hsize,
    hperform⟩ := synced_over_empty_run
  obtain ⟨hiff, -, -, hmakes⟩ := hw.sync_recorded ht hm hl hp h hdone
  have hnot := hiff.not.mp fun hall => hnew (hall ⟨0x9000⟩ (by simp [hcalls]))
  simp only [not_forall] at hnot
  obtain ⟨hpages, r, hr, he, hstray⟩ := hnot
  obtain ⟨d, hd, hreply, hmade⟩ := hmakes cache _ hcache hsize (hperform _)
  exact ⟨w, t, m, l, plan, d, hw, ht, hm, hl, hp, h, hdone, hpages, ⟨r, hr, he, hstray⟩, hd,
    hreply, hmade⟩

/-- Not every page that is flushed is recorded. -/
theorem not_sync_recorded :
    ¬ ∀ (w : Ledger) (t : Tag) (name : String) (m : Mapping) (l : Loaded) (runs : List (Run .phys))
      (lineSize offset length : Word) (phases : Phases) (plan : SyncPlan), w.Reachable →
      w.session.tag = some t → w.session.mapping? name = some m → m.loaded = some l →
      w.payloads name = .raw runs → m.syncPlan lineSize offset length phases = .ok plan →
      plan.result = .ok () → ∀ a, .page a ∈ plan.calls → l.frames.contains a := by
  intro hall
  obtain ⟨w, t, m, l, plan, -, hw, ht, hm, hl, hp, h, hdone, hcalls, hnew, -⟩ :=
    synced_over_empty_run
  exact hnew (hall w t "m" m l _ _ _ _ _ plan hw ht hm hl hp h hdone ⟨0x9000⟩ (by simp [hcalls]))

end Plans

end Ledger

end Aperture
