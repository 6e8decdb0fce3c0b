import Aperture.Proofs.Ledger.Effect

namespace Aperture

namespace Ledger

variable {w w' : Ledger} {t t' : Tag} {c : Command} {calls : List TableCall} {name : String}

/-- What an effect makes of the tenancies. -/
inductive Turnover (w : Ledger) (t : Tag) (calls : List TableCall) (w' : Ledger) (t' : Tag) : Prop
  | same
      (htenancies : w.tenancies.Perm w'.tenancies)
      (hpool : t'.pool = t.pool)
      (hcalls : Traceless t.pool calls)
  | added {x : Tenancy} {traits : Traits}
      (htenancies : (x :: w.tenancies).Perm w'.tenancies)
      (hvacant : t.pool.Vacant x.loaded.block)
      (hfits : x.loaded.Fits)
      (hfaithful : x.Faithful t.memory.host)
      (hpool : t'.pool = t.pool.withBlocks (Pool.insert x.loaded.block t.pool.blocks))
      (hcalls : calls = x.loaded.block.binds (Run.frames x.loaded.runs) traits)
  | removed {x : Tenancy}
      (htenancies : w.tenancies.Perm (x :: w'.tenancies))
      (hpool : t'.pool = t.pool.withBlocks (t.pool.blocks.erase x.loaded.block))
      (hcalls : calls = x.loaded.block.unbinds (Run.frames x.loaded.runs))

namespace Effect

theorem turnover (he : Effect w t c calls w' t') (hs : w.Sound t) :
    Turnover w t calls w' t' := by
  cases he with
  | idle hpool hmemory hmappings hpayloads hlost hcalls =>
    refine .same ?_ hpool (hcalls ▸ .none)
    unfold tenancies held tenanciesOf
    rw [hmappings, hpayloads, hlost]
  | @kept name m m' _ hm hloaded _ hmappings hpayloads hlost htag hcalls =>
    refine .same ?_ (congrArg Tag.pool htag) hcalls
    have hafter := tenancies_eq hmappings fun other _ => congrFun hpayloads other
    rw [Option.bind_some, hloaded, hpayloads, ← tenancy?_eq hm, hlost] at hafter
    rw [hafter]
    exact tenancies_perm hs.names name
  | @loaded name m l p _ _ hm hnone hvacant hfits hfaithful hmappings hpayloads hlost htag hcalls =>
    refine .added (x := ⟨p, l⟩) ?_ hvacant hfits hfaithful (congrArg Tag.pool htag) hcalls
    have hbefore := tenancies_perm hs.names name
    rw [tenancy?_eq hm, hnone, Option.map_none, Option.toList_none, List.nil_append] at hbefore
    have hafter := tenancies_eq hmappings fun other hne => by rw [hpayloads]; exact if_neg hne
    have hown : w'.payloads name = p := by rw [hpayloads]; exact if_pos rfl
    rw [Option.bind_some, Option.map_some, hown, hlost] at hafter
    rw [hafter]
    exact hbefore.cons _
  | @unloaded name m l m? _ _ hm hl hrest hmappings hpayloads hlost htag hcalls =>
    refine .removed (x := ⟨w.payloads name, l⟩) ?_ (congrArg Tag.pool htag) hcalls
    have hbefore := tenancies_perm hs.names name
    rw [tenancy?_eq hm, hl, Option.map_some] at hbefore
    have hafter := tenancies_eq hmappings fun other _ => congrFun hpayloads other
    rw [hlost] at hafter
    have hnone : (m?.bind fun m => m.loaded.map (⟨w'.payloads name, ·⟩ : Loaded → Tenancy)) =
        none := by
      cases hrest with
      | inl hended => rw [hended]; rfl
      | inr hemptied => rw [hemptied]; rfl
    rw [hnone] at hafter
    rw [hafter]
    exact hbefore
  | @gone name m? _ _ hfresh hmappings hpayloads hlost htag hcalls =>
    refine .same ?_ (congrArg Tag.pool htag) (hcalls ▸ .none)
    have hafter := tenancies_eq hmappings fun other _ => congrFun hpayloads other
    have hnone : (m?.bind fun m => m.loaded.map (⟨w'.payloads name, ·⟩ : Loaded → Tenancy)) =
        none := by
      cases hcase : m? with
      | none => rfl
      | some m' => rw [Option.bind_some, (hfresh m' hcase).2, Option.map_none]
    rw [hnone, hlost] at hafter
    rw [hafter]
    -- what the mapping had is still a tenancy: it only moves from the held to the lost
    refine (tenancies_perm hs.names name).trans ?_
    show ((w.tenancy? name).toList ++ (w.beside name ++ w.lost)).Perm
      (w.beside name ++ ((w.tenancy? name).toList ++ w.lost))
    rw [← List.append_assoc, ← List.append_assoc]
    exact List.perm_append_comm.append_right w.lost

theorem names_and_blank (he : Effect w t c calls w' t') (hs : w.Sound t) :
    (w'.session.mappings.map (·.1)).Nodup ∧ ∀ x ∈ w'.session.mappings, x.2.IsBlank := by
  cases he with
  | idle _ _ hmappings =>
    rw [hmappings]
    exact ⟨hs.names, hs.blank⟩
  | kept _ hm _ halike hmappings =>
    refine ⟨hmappings.nodup hs.names, hmappings.forall_mem hs.blank fun m' hm' => ?_⟩
    obtain rfl := Option.some.inj hm'
    exact halike.isBlank (hs.blank _ (Session.mem_mappings hm))
  | loaded _ hm _ _ _ _ hmappings =>
    refine ⟨hmappings.nodup hs.names, hmappings.forall_mem hs.blank fun m' hm' => ?_⟩
    obtain rfl := Option.some.inj hm'
    exact (hs.blank _ (Session.mem_mappings hm)).withLoaded _
  | unloaded _ _ hm _ hrest hmappings =>
    refine ⟨hmappings.nodup hs.names, hmappings.forall_mem hs.blank fun m' hm' => ?_⟩
    cases hrest with
    | inl hended =>
      rw [hended] at hm'
      cases hm'
    | inr hemptied =>
      rw [hemptied] at hm'
      obtain rfl := Option.some.inj hm'
      exact (hs.blank _ (Session.mem_mappings hm)).withLoaded _
  | gone _ _ hfresh hmappings =>
    exact ⟨hmappings.nodup hs.names, hmappings.forall_mem hs.blank fun m hm => (hfresh m hm).1⟩

theorem host_eq (he : Effect w t c calls w' t') :
    t'.memory.host = t.memory.host := by
  cases he with
  | idle _ hmemory => exact hmemory
  | kept _ _ _ _ _ _ _ htag => rw [htag]
  | loaded _ _ _ _ _ _ _ _ _ htag => rw [htag]; rfl
  | unloaded _ _ _ _ _ _ _ _ htag => rw [htag]; rfl
  | gone _ _ _ _ _ _ htag => rw [htag]

/-- The step lemma: each effect keeps a ledger sound. -/
theorem sound (he : Effect w t c calls w' t') (hs : w.Sound t)
    (hcalls : w'.calls = w.calls ++ calls) : w'.Sound t' := by
  have hbindings : w'.bindings = w.bindings.applyAll calls := by
    rw [bindings, hcalls, Bindings.applyAll_append]
    rfl
  obtain ⟨hnames, hblank⟩ := he.names_and_blank hs
  have hhost := he.host_eq
  have hturnover := he.turnover hs
  cases hturnover with
  | same htenancies hpool hnone =>
    refine ⟨hnames, hblank, ?_, fun x hx => ?_⟩
    · rw [hpool, hbindings, hs.occupied.applyAll_traceless hnone]
      exact hs.occupied.perm (htenancies.map Tenancy.loaded)
    · rw [hhost]
      exact hs.faithful x (htenancies.mem_iff.mpr hx)
  | @added x traits htenancies hvacant hfits hfaithful hpool heq =>
    refine ⟨hnames, hblank, ?_, fun y hy => ?_⟩
    · rw [hpool, hbindings, heq]
      exact (hs.occupied.load hvacant hfits traits).perm (htenancies.map Tenancy.loaded)
    · rw [hhost]
      cases List.mem_cons.mp (htenancies.mem_iff.mpr hy) with
      | inl he => rw [he]; exact hfaithful
      | inr hy => exact hs.faithful y hy
  | @removed x htenancies hpool heq =>
    refine ⟨hnames, hblank, ?_, fun y hy => ?_⟩
    · rw [hpool, hbindings, heq]
      exact (hs.occupied.perm (htenancies.map Tenancy.loaded)).unload
    · rw [hhost]
      exact hs.faithful y (htenancies.mem_iff.mpr (List.mem_cons_of_mem x hy))

theorem loaded_kept (he : Effect w t c calls w' t')
    (hends : c.ends t.memory.host.storage name = false) {m : Mapping} {l : Loaded}
    (hm : w.session.mapping? name = some m) (hl : m.loaded = some l) :
    ∃ m', w'.session.mapping? name = some m' ∧ m'.loaded = some l ∧
      w'.payloads name = w.payloads name := by
  cases he with
  | idle _ _ hmappings hpayloads =>
    refine ⟨m, ?_, hl, congrFun hpayloads name⟩
    rw [Session.mapping?, hmappings]
    exact hm
  | @kept other m₁ m₂ _ hm₁ hloaded _ hmappings hpayloads =>
    by_cases hne : name = other
    · subst hne
      obtain rfl := Option.some.inj (hm.symm.trans hm₁)
      exact ⟨m₂, hmappings.mapping?_self, hloaded.trans hl, congrFun hpayloads name⟩
    · exact ⟨m, (hmappings.mapping?_of_ne hne).trans hm, hl, congrFun hpayloads name⟩
  | @loaded other m₁ _ _ _ _ hm₁ hnone _ _ _ hmappings hpayloads =>
    have hne : name ≠ other := by
      intro he
      subst he
      obtain rfl := Option.some.inj (hm.symm.trans hm₁)
      rw [hnone] at hl
      cases hl
    refine ⟨m, (hmappings.mapping?_of_ne hne).trans hm, hl, ?_⟩
    rw [hpayloads]
    exact if_neg hne
  | @unloaded other _ _ _ _ hends' _ _ _ hmappings hpayloads =>
    have hne : name ≠ other := fun he => by rw [he, hends'] at hends; cases hends
    exact ⟨m, (hmappings.mapping?_of_ne hne).trans hm, hl, congrFun hpayloads name⟩
  | @gone other _ _ hends' _ hmappings hpayloads =>
    have hne : name ≠ other := fun he => by rw [he, hends'] at hends; cases hends
    exact ⟨m, (hmappings.mapping?_of_ne hne).trans hm, hl, congrFun hpayloads name⟩

end Effect

theorem sound_start {name : String} {aperture : Option (BusAddr × Word)} {table : Option Table}
    {memory : HostMemory} {cache : Option Cache} {s : Session} {events : List Event}
    (h : Session.new name aperture table memory cache = .ok (s, events)) (ht : s.tag = some t) :
    (start s).Sound t := by
  obtain ⟨first, size, tag, htag, rfl⟩ := Session.new_eq_ok h
  obtain rfl := Option.some.inj ht
  obtain ⟨hnew, -⟩ := Tag.new_eq_ok htag
  have hpool : tag.pool.WellFormed ∧ tag.pool.blocks = [] :=
    ⟨Pool.wellFormed_new hnew, Pool.blocks_new hnew⟩
  refine ⟨List.nodup_nil, by simp [start], ⟨hpool.1, ?_, ?_, ?_⟩, ?_⟩
  · rw [hpool.2]
    exact .refl _
  · intro l hl
    cases hl
  · intro a p
    constructor
    · intro h
      cases h
    · intro h
      obtain ⟨l, hl, -⟩ := h
      cases hl
  · intro x hx
    cases hx

/-- A step to a ledger that still has a tag is one of the effects. -/
theorem effect_of_step {d : Step} (hw : ∀ t, w.session.tag = some t → w.Sound t)
    (h : w.session.step c = .ok d) (ht' : d.session.tag = some t') :
    ∃ t, w.session.tag = some t ∧ w.Sound t ∧
      Effect w t c (Event.tableCalls d.events) (w.after c d) t' := by
  cases ht : w.session.tag with
  | none =>
    rw [Session.tag_eq_none_of_step ht h] at ht'
    cases ht'
  | some t =>
    have hc : c ≠ .teardown := by
      intro he
      subst he
      rw [Session.tag_eq_none_of_teardown h] at ht'
      cases ht'
    obtain ⟨t₁, ht₁, he⟩ := (hw t ht).effect ht h hc
    obtain rfl := Option.some.inj (ht'.symm.trans ht₁)
    exact ⟨t, rfl, hw t ht, he⟩

/-- The run lemma: every ledger of a run is sound. -/
theorem Reachable.sound (hw : w.Reachable) : ∀ t, w.session.tag = some t → w.Sound t := by
  induction hw with
  | start h => exact fun t ht => sound_start h ht
  | step hw h ih =>
    intro t' ht'
    obtain ⟨d, hd, rfl⟩ := step_eq_ok.mp h
    obtain ⟨t, -, hs, he⟩ := effect_of_step ih hd ht'
    exact he.sound hs rfl

/-- What a run that does not end a mapping keeps of it, and of the tag. -/
structure KeptThrough (w : Ledger) (t : Tag) (name : String) (l : Loaded) (w' : Ledger) (t' : Tag) :
    Prop where
  tag : w'.session.tag = some t'
  host : t'.memory.host = t.memory.host
  payload : w'.payloads name = w.payloads name
  loaded : ∃ m, w'.session.mapping? name = some m ∧ m.loaded = some l

theorem Reachable.keptThrough {cs : List Command} (hw : w.Reachable) (ht : w.session.tag = some t)
    {l : Loaded} (hl : ∃ m, w.session.mapping? name = some m ∧ m.loaded = some l)
    (hrun : w.runAll cs = .ok w') (hends : ∀ c ∈ cs, c.ends t.memory.host.storage name = false) :
    ∃ t', KeptThrough w t name l w' t' := by
  induction cs generalizing w t with
  | nil =>
    obtain rfl := Except.ok.inj hrun
    exact ⟨t, ht, rfl, rfl, hl⟩
  | cons c cs ih =>
    obtain ⟨next, hnext, hrun⟩ := Checked.bind_eq_ok.mp hrun
    obtain ⟨d, hd, rfl⟩ := step_eq_ok.mp hnext
    have hc : c.ends t.memory.host.storage name = false := hends c (by simp)
    have hstay : c ≠ .teardown := fun he => by rw [he] at hc; cases hc
    obtain ⟨t₁, ht₁, he⟩ := (hw.sound t ht).effect ht hd hstay
    obtain ⟨m, hm, hml⟩ := hl
    obtain ⟨m₁, hm₁, hl₁, hpayload⟩ := he.loaded_kept hc hm hml
    obtain ⟨t', hkept⟩ := ih (hw.step hnext) ht₁ ⟨m₁, hm₁, hl₁⟩ hrun fun c' hc' =>
      he.host_eq ▸ hends c' (by simp [hc'])
    exact ⟨t', hkept.tag, hkept.host.trans he.host_eq, hkept.payload.trans hpayload,
      hkept.loaded⟩

end Ledger

end Aperture
