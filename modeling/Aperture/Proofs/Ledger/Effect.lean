import Aperture.Proofs.Ledger.Tenancies
import Aperture.Proofs.Payload.Failure
import Aperture.Proofs.Tag.Aside
import Aperture.Proofs.Tag.Occupied

namespace Aperture

/-- What the record says of a payload is true of what it is loaded as: it has its shape and length,
and its bytes if its space maps pages as a whole. -/
structure Tenancy.Faithful (x : Tenancy) (host : Host) : Prop where
  length : x.payload.length? = some x.loaded.length
  bytes : x.payload.IsPaged → x.payload.bytes? = some (x.loaded.runs.flatMap Run.bytes)
  noneEmpty : host.resolver = .direct → ∀ r ∈ x.loaded.runs, r.isEmpty = false
  shape : x.loaded.shape = x.payload.shape
  base : x.loaded.base = x.payload.base?
  /-- A linear payload may end with the last byte of its space, but does not go on after that. -/
  reach : ∀ base, x.loaded.base = some base → ¬ Run.Wraps ⟨base, x.loaded.length⟩

theorem Tenancy.faithful_of_resolve {memory : HostMemory} {p : Payload} {l : Loaded}
    (hfits : l.Fits) (hlength : p.length? = some l.length)
    (hfailure : (memory.resolve p).failure = none) (hruns : l.runs = (memory.resolve p).runs)
    (hshape : l.shape = p.shape) (hbase : l.base = p.base?) :
    Tenancy.Faithful ⟨p, l⟩ memory.host := by
  have hin := hruns ▸ hfits.inPage
  refine ⟨hlength, fun hpaged => ?_, fun hdirect r hr => ?_, hshape, hbase, fun base hb => ?_⟩
  · rw [hruns]
    exact HostMemory.bytes?_of_resolve hpaged hfailure hin
  · have hfound := (HostMemory.runs_of_direct (p := p) hdirect).subset (hruns ▸ hr)
    exact Run.isEmpty_eq_false_iff.mpr (Payload.length_pos_resolve r hfound)
  · cases p with
    | linear base' size space =>
      obtain rfl : base' = base := Option.some.inj (hbase.symm.trans hb)
      obtain rfl : size = l.length := Option.some.inj hlength
      exact Run.not_wraps_of_resolve ((memory.follows_resolve _).complete hfailure hin).1
    | chain | scatter | raw => cases hbase.symm.trans hb

namespace Ledger

/-- What holds of a ledger whose session has the tag `t`. -/
structure Sound (w : Ledger) (t : Tag) : Prop where
  names : (w.session.mappings.map (·.1)).Nodup
  blank : ∀ x ∈ w.session.mappings, x.2.IsBlank
  occupied : Occupied t.pool w.bindings (w.tenancies.map (·.loaded))
  faithful : ∀ x ∈ w.tenancies, x.Faithful t.memory.host

/-- What a command can do to a ledger whose session has the tag `t`, and to the tag. -/
inductive Effect (w : Ledger) (t : Tag) (c : Command) (calls : List TableCall) (w' : Ledger)
    (t' : Tag) : Prop
  | idle
      (hpool : t'.pool = t.pool)
      (hmemory : t'.memory.host = t.memory.host)
      (hmappings : w'.session.mappings = w.session.mappings)
      (hpayloads : w'.payloads = w.payloads)
      (hlost : w'.lost = w.lost)
      (hcalls : calls = [])
  /-- A mapping keeps what it has loaded; what was bound in a free block is unbound again. -/
  | kept {name : String} {m m' : Mapping}
      (hsubject : c.subject? = some name)
      (hm : w.session.mapping? name = some m)
      (hloaded : m'.loaded = m.loaded)
      (halike : m.Alike m')
      (hmappings : w'.session.HasBeside w.session name (some m'))
      (hpayloads : w'.payloads = w.payloads)
      (hlost : w'.lost = w.lost)
      (htag : t' = t)
      (hcalls : Traceless t.pool calls)
  | loaded {name : String} {m : Mapping} {l : Loaded} {p : Payload} {traits : Traits}
      (hcommand : c = .act name (.load p))
      (hm : w.session.mapping? name = some m)
      (hnone : m.loaded = none)
      (hvacant : t.pool.Vacant l.block)
      (hfits : l.Fits)
      (hfaithful : Tenancy.Faithful ⟨p, l⟩ t.memory.host)
      (hmappings : w'.session.HasBeside w.session name (some { m with loaded := some l }))
      (hpayloads : w'.payloads = fun other => if other = name then p else w.payloads other)
      (hlost : w'.lost = w.lost)
      (htag : t' = t.withBlocks (Pool.insert l.block t.pool.blocks))
      (hcalls : calls = l.block.binds (Run.frames l.runs) traits)
      (htraits : traits = m.limits.traits)
  /-- A payload is taken out of a mapping, which may be ended too. -/
  | unloaded {name : String} {m : Mapping} {l : Loaded} {m? : Option Mapping}
      (hsubject : c.subject? = some name)
      (hends : c.ends t.memory.host.storage name)
      (hm : w.session.mapping? name = some m)
      (hl : m.loaded = some l)
      (hrest : m? = none ∨ m? = some { m with loaded := none })
      (hmappings : w'.session.HasBeside w.session name m?)
      (hpayloads : w'.payloads = w.payloads)
      (hlost : w'.lost = w.lost)
      (htag : t' = t.withBlocks (t.pool.blocks.erase l.block))
      (hcalls : calls = l.block.unbinds (Run.frames l.runs))
  /-- A mapping is gone, and there may be a new one in its place. -/
  | gone {name : String} {m? : Option Mapping}
      (hsubject : c.subject? = some name)
      (hends : c.ends t.memory.host.storage name)
      (hfresh : ∀ m, m? = some m → m.IsBlank ∧ m.loaded = none)
      (hmappings : w'.session.HasBeside w.session name m?)
      (hpayloads : w'.payloads = w.payloads)
      (hlost : w'.lost = (w.tenancy? name).toList ++ w.lost)
      (htag : t' = t)
      (hcalls : calls = [])

namespace Sound

variable {w : Ledger} {t t' : Tag}

theorem fits (hs : w.Sound t) {x : Tenancy} (hx : x ∈ w.tenancies) : x.loaded.Fits :=
  hs.occupied.fits _ (List.mem_map.mpr ⟨x, hx, rfl⟩)

theorem fits_of_loaded (hs : w.Sound t) {name : String} {m : Mapping} {l : Loaded}
    (hm : w.session.mapping? name = some m) (hl : m.loaded = some l) :
    l.Fits ∧ l.block ∈ t.pool.blocks := by
  have hloaded : l ∈ w.tenancies.map (·.loaded) :=
    List.mem_map.mpr ⟨_, mem_tenancies hm hl, rfl⟩
  exact ⟨hs.occupied.fits l hloaded, hs.occupied.block_mem hloaded⟩

section Action

variable {name : String} {m : Mapping}

/-- What is left of a load in the ledger. -/
theorem effect_of_loadEffect (hm : w.session.mapping? name = some m) (hnone : m.loaded = none)
    {p : Payload} {o : Tag.Outcome} (h : t.LoadEffect m p o) :
    Effect w t (.act name (.load p)) (Event.tableCalls o.events)
      (w.after (.act name (.load p)) (Step.settled
        ⟨{ w.session with tag := some o.tag }.put name o.mapping, .ofResult o.result, o.events⟩))
      o.tag := by
  obtain ⟨tag, mapping, result, events⟩ := o
  cases h with
  | declined d ho =>
    obtain ⟨rfl, rfl, rfl, rfl⟩ := Tag.Outcome.mk.inj ho
    have hcalls : Traceless tag.pool (Event.tableCalls (d.notices.map .notice)) := by
      rw [Event.tableCalls_map_notice]
      exact .none
    exact .kept rfl hm rfl (.refl _) rfl rfl rfl rfl hcalls
  | unwound b frames hvacant hpages htag hmapping hresult hcalls =>
    subst hresult
    subst hmapping
    have hcalls : Traceless t.pool (Event.tableCalls events) := hcalls ▸ .undone _ hvacant hpages
    exact .kept rfl hm rfl (.refl _) rfl rfl rfl htag hcalls
  | loaded l hvacant hfits hlength hfailure hruns htag hmapping hresult hcalls hshape hbase =>
    subst hresult
    subst hmapping
    have hfaithful := Tenancy.faithful_of_resolve hfits hlength hfailure hruns hshape hbase
    exact .loaded rfl hm hnone hvacant hfits hfaithful rfl rfl rfl htag hcalls rfl

theorem effect_of_unload (hs : w.Sound t) (hm : w.session.mapping? name = some m) {tag : Tag}
    {mapping : Mapping} {events : List Event} (h : t.unload m = .ok (tag, mapping, events)) :
    Effect w t (.act name .unload) (Event.tableCalls events)
      (w.after (.act name .unload) (Step.settled
        ⟨{ w.session with tag := some tag }.put name mapping, .done, events⟩)) tag := by
  cases hl : m.loaded with
  | none =>
    unfold Tag.unload at h
    rw [hl] at h
    obtain ⟨rfl, rfl, rfl⟩ := by simpa using Except.ok.inj h
    exact .kept rfl hm rfl (.refl _) rfl rfl rfl rfl .none
  | some l =>
    obtain ⟨hfits, hmem⟩ := hs.fits_of_loaded hm hl
    rw [Tag.unload_eq hl hfits hmem] at h
    obtain ⟨rfl, rfl, rfl⟩ := by simpa using Except.ok.inj h
    exact .unloaded rfl (beq_self_eq_true name) hm hl (.inr rfl) rfl rfl rfl rfl
      (Event.tableCalls_map_table _)

theorem effect_of_destroy (hs : w.Sound t) (hm : w.session.mapping? name = some m) {tag : Tag}
    {events : List Event} (h : t.destroy m = .ok (tag, events)) :
    Effect w t (.act name .destroy) (Event.tableCalls events)
      (w.after (.act name .destroy) (Step.settled
        ⟨{ w.session with tag := some tag }.remove name, .done, events⟩)) tag := by
  cases hl : m.loaded with
  | none =>
    unfold Tag.destroy at h
    rw [if_neg (by simp [Mapping.isLoaded, hl])] at h
    obtain ⟨rfl, rfl⟩ := by simpa using Except.ok.inj h
    -- nothing was loaded, so nothing is lost with the mapping
    have hgone : w.tenancy? name = none := by rw [tenancy?_eq hm, hl, Option.map_none]
    refine .gone rfl (beq_self_eq_true name) (fun _ h => by cases h)
      (Session.hasBeside_remove _ name) rfl ?_ rfl rfl
    rw [hgone]
    rfl
  | some l =>
    obtain ⟨hfits, hmem⟩ := hs.fits_of_loaded hm hl
    rw [Tag.destroy_eq hl hfits hmem] at h
    obtain ⟨rfl, rfl⟩ := by simpa using Except.ok.inj h
    exact .unloaded rfl (beq_self_eq_true name) hm hl (.inl rfl) rfl rfl rfl rfl
      (Event.tableCalls_map_table _)

theorem effect_of_act (hs : w.Sound t) (ht : w.session.tag = some t)
    (hm : w.session.mapping? name = some m) {action : Action} {d : Step}
    (h : w.session.act t name m action = .ok d) :
    ∃ t', d.session.tag = some t' ∧ Effect w t (.act name action) (Event.tableCalls d.events)
      (w.after (.act name action) d.settled) t' := by
  cases action with
  | limits =>
    obtain rfl := Except.ok.inj h
    exact ⟨_, ht, .idle rfl rfl rfl rfl rfl rfl⟩
  | load p =>
    obtain ⟨o, hload, h⟩ := Checked.bind_eq_ok.mp h
    obtain rfl := Except.ok.inj h
    have hblank := hs.blank _ (Session.mem_mappings hm)
    have heffect := Tag.loadEffect_of_load hs.occupied.wellFormed hblank hload
    exact ⟨_, rfl, effect_of_loadEffect hm (Tag.loaded_eq_none_of_load hload) heffect⟩
  | unload =>
    obtain ⟨⟨tag, mapping, events⟩, hunload, h⟩ := Checked.bind_eq_ok.mp h
    obtain rfl := Except.ok.inj h
    exact ⟨_, rfl, hs.effect_of_unload hm hunload⟩
  | destroy =>
    obtain ⟨⟨tag, events⟩, hdestroy, h⟩ := Checked.bind_eq_ok.mp h
    obtain rfl := Except.ok.inj h
    exact ⟨_, rfl, hs.effect_of_destroy hm hdestroy⟩
  | setAlignment alignment =>
    cases halign : m.setAlignment alignment with
    | error reason =>
      rw [Session.act, halign] at h
      obtain rfl := Except.ok.inj h
      exact ⟨_, ht, .idle rfl rfl rfl rfl rfl rfl⟩
    | ok m' =>
      rw [Session.act, halign] at h
      obtain rfl := Except.ok.inj h
      obtain ⟨hloaded, halike⟩ := Mapping.setAlignment_eq_ok halign
      exact ⟨_, ht, .kept rfl hm hloaded halike rfl rfl rfl rfl .none⟩
  | sync offset length phases =>
    obtain ⟨⟨result, events⟩, hsync, h⟩ := Checked.bind_eq_ok.mp h
    obtain rfl := Except.ok.inj h
    exact ⟨_, ht, .idle rfl rfl rfl rfl rfl (Tag.tableCalls_sync hsync)⟩

end Action

theorem effect (hs : w.Sound t) (ht : w.session.tag = some t) {c : Command} {d : Step}
    (h : w.session.step c = .ok d) (hc : c ≠ .teardown) :
    ∃ t', d.session.tag = some t' ∧ Effect w t c (Event.tableCalls d.events) (w.after c d) t' := by
  obtain ⟨d, hrun, rfl⟩ := Session.step_eq_ok.mp h
  rw [Session.run_of_tag ht] at hrun
  cases c with
  | create name limits =>
    cases hnew : Mapping.new t.memory.host.storage limits with
    | error reason =>
      rw [Session.runWith, hnew] at hrun
      obtain rfl := Except.ok.inj hrun
      exact ⟨_, ht, .idle rfl rfl rfl rfl rfl rfl⟩
    | ok m =>
      rw [Session.runWith, hnew] at hrun
      obtain rfl := Except.ok.inj hrun
      have hends : (Command.create name limits).ends t.memory.host.storage name := by
        simp [Command.ends, hnew, Except.isOk, Except.toBool]
      refine ⟨_, ht, .gone rfl hends (fun m' hm' => ?_) (Session.hasBeside_put _ name m) rfl rfl rfl
        (Session.tableCalls_dropped _ name)⟩
      obtain rfl := Option.some.inj hm'
      exact Mapping.isBlank_new hnew
  | act name action =>
    cases hm : w.session.mapping? name with
    | none =>
      rw [Session.runWith, hm] at hrun
      obtain rfl := Except.ok.inj hrun
      refine ⟨_, ht, .idle rfl rfl rfl ?_ rfl rfl⟩
      cases action <;> rfl
    | some m =>
      rw [Session.runWith, hm] at hrun
      exact hs.effect_of_act ht hm hrun
  | alloc size alignment boundary =>
    obtain ⟨⟨tag, result, events⟩, halloc, hrun⟩ := Checked.bind_eq_ok.mp hrun
    obtain rfl := Except.ok.inj hrun
    obtain ⟨hpool, hmemory, hcalls⟩ := Tag.alloc_eq_ok halloc
    exact ⟨_, rfl, .idle hpool hmemory rfl rfl rfl hcalls⟩
  | free memory =>
    obtain rfl := Except.ok.inj hrun
    obtain ⟨hpool, hmemory⟩ := Tag.free_eq t memory
    exact ⟨_, rfl, .idle hpool hmemory rfl rfl rfl rfl⟩
  | describe =>
    obtain rfl := Except.ok.inj hrun
    exact ⟨_, ht, .idle rfl rfl rfl rfl rfl rfl⟩
  | entry bus =>
    obtain rfl := Except.ok.inj hrun
    exact ⟨_, ht, .idle rfl rfl rfl rfl rfl rfl⟩
  | drop name =>
    obtain rfl := Except.ok.inj hrun
    exact ⟨_, ht, .gone rfl (beq_self_eq_true name) (fun _ h => by cases h)
      (Session.hasBeside_remove _ name) rfl rfl rfl (Session.tableCalls_dropped _ name)⟩
  | teardown => exact absurd rfl hc

/-- What a load does: there is no such mapping, or the tag loads into it. -/
theorem load_cases (hs : w.Sound t) (ht : w.session.tag = some t) {name : String} {p : Payload}
    {d : Step} (h : w.session.step (.act name (.load p)) = .ok d) :
    (d.reply = .noMapping ∧ w.session.mapping? name = none) ∨
    ∃ m o, w.session.mapping? name = some m ∧ m.loaded = none ∧ t.LoadEffect m p o ∧
      d.session.tag = some o.tag ∧
      d.session.HasBeside w.session name (some o.mapping) ∧
      d.reply = .ofResult o.result ∧ d.events = o.events := by
  obtain ⟨d, hrun, rfl⟩ := Session.step_eq_ok.mp h
  rw [Session.run_of_tag ht] at hrun
  cases hm : w.session.mapping? name with
  | none =>
    rw [Session.runWith, hm] at hrun
    obtain rfl := Except.ok.inj hrun
    exact .inl ⟨rfl, rfl⟩
  | some m =>
    rw [Session.runWith, hm] at hrun
    obtain ⟨o, hload, hrun⟩ := Checked.bind_eq_ok.mp hrun
    obtain rfl := Except.ok.inj hrun
    have heffect := Tag.loadEffect_of_load hs.occupied.wellFormed
      (hs.blank _ (Session.mem_mappings hm)) hload
    exact .inr ⟨m, o, rfl, Tag.loaded_eq_none_of_load hload, heffect, rfl, rfl, rfl, rfl⟩

end Sound

end Ledger

end Aperture
