import Aperture.Proofs.Ledger.Batch
import Aperture.Proofs.Ledger.Exposure
import Aperture.Proofs.Pool.History
import Aperture.Proofs.Table.Wiring
import Aperture.Served

namespace Aperture

namespace Mapping

variable {m : Mapping} {l : Loaded} {bus : BusAddr} {f : FrameNo} {p : PhysAddr}

/-- Each page that the mapping was given is wired to its frame, with the traits of the mapping. -/
def WiredIn (m : Mapping) (γ : Wiring) : Prop :=
  ∀ l, m.loaded = some l → ∀ a p, (a, p) ∈ l.layout → γ a = some (p, m.limits.traits)

theorem Serves.mem_layout (h : m.Serves bus f) (hfits : ∀ l, m.loaded = some l → l.Fits) :
    ∃ l, m.loaded = some l ∧ (bus, f.base) ∈ l.layout := by
  obtain ⟨l, k, hl, hf, hbus⟩ := h
  have hpage := (hfits l hl).pages.toNat_page (List.getElem?_eq_some_iff.mp hf).1
  have heq : bus = l.block.page k :=
    congrArg Addr.mk (BitVec.eq_of_toNat_eq (hbus.trans hpage.symm))
  exact ⟨l, hl, Block.mem_layout.mpr ⟨k, f, hf, heq, rfl⟩⟩

theorem serves_of_mem_layout (hl : m.loaded = some l) (hfits : l.Fits)
    (hmem : (bus, p) ∈ l.layout) : ∃ f, m.Serves bus f := by
  obtain ⟨k, f, hf, rfl, -⟩ := Block.mem_layout.mp hmem
  exact ⟨f, l, k, hl, hf, hfits.pages.toNat_page (List.getElem?_eq_some_iff.mp hf).1⟩

end Mapping

namespace Ledger

variable {w w' : Ledger} {t t' : Tag} {c : Command} {d : Step} {calls : List TableCall}
  {forgotten : List Mapping}

/-- What each page is bound to by the calls so far, and with which traits. -/
def wiring (w : Ledger) : Wiring := Wiring.empty.applyAll w.calls

theorem bindings_wiring (w : Ledger) : w.wiring.bindings = w.bindings :=
  Wiring.bindings_applyAll Wiring.empty w.calls

theorem wiring_after (w : Ledger) (c : Command) (d : Step) :
    (w.after c d).wiring = w.wiring.applyAll (Event.tableCalls d.events) :=
  Wiring.applyAll_append _ _ _

/-- The forgotten mappings have what is lost, and all mappings are wired. -/
structure Wired (w : Ledger) (forgotten : List Mapping) : Prop where
  lost : forgotten.filterMap (·.loaded) = w.lost.map (·.loaded)
  wired : ∀ m ∈ w.session.mappings.map (·.2) ++ forgotten, m.WiredIn w.wiring

theorem Wired.held (h : w.Wired forgotten) {x : String × Mapping} (hx : x ∈ w.session.mappings) :
    x.2.WiredIn w.wiring :=
  h.wired x.2 (List.mem_append_left _ (List.mem_map.mpr ⟨x, hx, rfl⟩))

theorem mem_bystanders {name : String} {x : String × Mapping} {l : Loaded}
    (hsubject : c.subject? = some name) (hx : x ∈ (w.session.remove name).mappings)
    (hl : x.2.loaded = some l) : (⟨w.payloads x.1, l⟩ : Tenancy) ∈ w.bystanders c := by
  refine List.mem_append_left _ ?_
  rw [hsubject]
  exact List.mem_filterMap.mpr ⟨x, hx, by rw [hl]; rfl⟩

namespace Effect

section

variable (he : Effect w t c calls w' t') (hs : w.Sound t) (hcalls : w'.calls = w.calls ++ calls)

include he hs hcalls

/-- The pages of a bystander are wired as before. -/
theorem wiring_eq {x : Tenancy} (hx : x ∈ w.bystanders c) {a : BusAddr} {p : PhysAddr}
    (hmem : (a, p) ∈ x.loaded.layout) : w'.wiring a = w.wiring a := by
  have hholds := (hs.fits (hs.bystanders_subset hx)).pages.holds_layout hmem
  rw [wiring, hcalls, Wiring.applyAll_append]
  exact Wiring.applyAll_of_ne fun call hcall ha => he.not_holds hs hx hcall ha hholds

theorem wiredIn_forgotten (h : w.Wired forgotten) : ∀ m ∈ forgotten, m.WiredIn w'.wiring := by
  intro m hm l hl a p hmem
  have hlost : l ∈ w.lost.map (·.loaded) := h.lost ▸ List.mem_filterMap.mpr ⟨m, hm, hl⟩
  obtain ⟨x, hx, rfl⟩ := List.mem_map.mp hlost
  rw [he.wiring_eq hs hcalls (List.mem_append_right _ hx) hmem]
  exact h.wired m (List.mem_append_right _ hm) _ hl a p hmem

/-- The step lemma: what is held after a command is wired. -/
theorem wiredIn_held (h : w.Wired forgotten) :
    ∀ x ∈ w'.session.mappings, x.2.WiredIn w'.wiring := by
  have hwiring : w'.wiring = w.wiring.applyAll calls := by
    rw [wiring, hcalls, Wiring.applyAll_append]
    rfl
  -- whatever a command makes of its mapping, the others are bystanders
  have others {name : String} {m? : Option Mapping} (hsubject : c.subject? = some name)
      (hmappings : w'.session.HasBeside w.session name m?)
      (hown : ∀ m, m? = some m → m.WiredIn w'.wiring) :
      ∀ x ∈ w'.session.mappings, x.2.WiredIn w'.wiring := by
    refine hmappings.forall_mem_beside (fun x hx l hl a p hmem => ?_) hown
    rw [he.wiring_eq hs hcalls (mem_bystanders hsubject hx hl) hmem]
    exact h.held (List.mem_of_mem_filter hx) l hl a p hmem
  cases he with
  | idle _ _ hmappings _ _ hnone =>
    rw [hmappings, hwiring, hnone]
    exact fun x hx => h.held hx
  | @kept name m m' hsubject hm hloaded halike hmappings _ _ _ htraceless =>
    refine others hsubject hmappings fun m₁ hm₁ l hl a p hmem => ?_
    obtain rfl := Option.some.inj hm₁
    rw [hloaded] at hl
    -- what the mapping has loaded is not touched by calls on a free block
    have hin : l ∈ w.tenancies.map (·.loaded) :=
      List.mem_map.mpr ⟨_, mem_tenancies hm hl, rfl⟩
    have hholds := (hs.fits_of_loaded hm hl).1.pages.holds_layout hmem
    rw [hwiring, Wiring.applyAll_of_ne fun call hcall ha =>
      hs.occupied.not_holds_of_traceless htraceless hcall ha hin hholds, halike.limits]
    exact h.held (Session.mem_mappings hm) l hl a p hmem
  | @loaded name m l _ _ hcommand _ _ _ hfits _ hmappings _ _ _ hbinds htraits =>
    refine others (congrArg Command.subject? hcommand) hmappings fun m₁ hm₁ l' hl' a p hmem => ?_
    obtain rfl := Option.some.inj hm₁
    obtain rfl := Option.some.inj hl'
    rw [hwiring, hbinds, htraits]
    exact Wiring.applyAll_binds hfits.pages hmem
  | unloaded hsubject _ _ _ hrest hmappings =>
    refine others hsubject hmappings fun m₁ hm₁ l hl => ?_
    obtain rfl | rfl := hrest
    · cases hm₁
    · obtain rfl := Option.some.inj hm₁
      cases hl
  | gone hsubject _ hfresh hmappings =>
    refine others hsubject hmappings fun m₁ hm₁ l hl => ?_
    rw [(hfresh m₁ hm₁).2] at hl
    cases hl

end

theorem aligned (he : Effect w t c calls w' t') (hs : w.Sound t) :
    ∀ call ∈ calls, ∀ a, call.bus? = some a → a.pageOffset = 0 := by
  intro call hcall a ha
  have hturnover := he.turnover hs
  cases hturnover with
  | same _ _ htraceless =>
    cases htraceless with
    | none => cases hcall
    | undone traits _ hpages =>
      cases List.mem_append.mp hcall with
      | inl hbind =>
        obtain ⟨p, hp⟩ := Bindings.exists_of_mem_binds hbind ha
        exact hpages.pageOffset_layout hp
      | inr hunbind =>
        obtain ⟨p, hp⟩ := Bindings.exists_of_mem_unbinds hunbind ha
        exact hpages.pageOffset_layout hp
  | added _ _ hfits _ _ hbinds =>
    rw [hbinds] at hcall
    obtain ⟨p, hp⟩ := Bindings.exists_of_mem_binds hcall ha
    exact hfits.pages.pageOffset_layout hp
  | @removed x htenancies _ hunbinds =>
    rw [hunbinds] at hcall
    obtain ⟨p, hp⟩ := Bindings.exists_of_mem_unbinds hcall ha
    exact (hs.fits (htenancies.mem_iff.mpr List.mem_cons_self)).pages.pageOffset_layout hp

end Effect

theorem sameRange_of_effect (he : Effect w t c calls w' t') (hs : w.Sound t) :
    t.pool.SameRange t'.pool := by
  cases he.turnover hs with
  | same _ hpool =>
    rw [hpool]
    exact .refl t.pool
  | added _ _ _ _ hpool =>
    rw [hpool]
    exact t.pool.sameRange_withBlocks _
  | removed _ hpool =>
    rw [hpool]
    exact t.pool.sameRange_withBlocks _

/-- A mapping that is forgotten takes what it has loaded to the lost. -/
theorem lost_after (w : Ledger) (c : Command) (d : Step) :
    (w.after c d).lost.map (·.loaded) =
      (w.session.forsaken c d).toList.filterMap (·.loaded) ++ w.lost.map (·.loaded) := by
  have gone (name : String) : ((w.tenancy? name).toList ++ w.lost).map (·.loaded) =
      (w.session.mapping? name).toList.filterMap (·.loaded) ++ w.lost.map (·.loaded) := by
    unfold tenancy?
    cases w.session.mapping? name with
    | none => rfl
    | some m => cases hl : m.loaded <;> simp [hl]
  unfold after Session.forsaken
  cases c with
  | create name limits => cases d.reply <;> first | exact gone name | rfl
  | drop name => cases d.reply <;> first | exact gone name | rfl
  | _ => rfl

/-- A command that forgets a mapping calls nothing. -/
theorem Batch.eq_nil_of_forsaken (h : w.Batch c d calls) {m : Mapping}
    (hm : w.session.forsaken c d = some m) : calls = [] := by
  cases h with
  | bound hcommand =>
    rw [hcommand] at hm
    cases hm
  | unwound hcommand =>
    rw [hcommand] at hm
    cases hm
  | unbound hcommand =>
    rcases hcommand with hcommand | hcommand <;> rw [hcommand] at hm <;> cases hm
  | silent => rfl

theorem mem_of_forsaken {m : Mapping} (hm : w.session.forsaken c d = some m) :
    ∃ name, (name, m) ∈ w.session.mappings := by
  unfold Session.forsaken at hm
  split at hm
  · exact ⟨_, Session.mem_mappings hm⟩
  · exact ⟨_, Session.mem_mappings hm⟩
  · cases hm

theorem wired_start {s : Session} (hs : s.mappings = []) : (start s).Wired [] := by
  refine ⟨rfl, fun m hm => ?_⟩
  rw [start, hs] at hm
  cases hm

/-- The step lemma for all mappings: those that are held, those that were forgotten before and the
one that the command forgets. -/
theorem Wired.step (h : w.Wired forgotten) (hw : w.Reachable) (ht : w.session.tag = some t)
    (hd : w.session.step c = .ok d) (hc : c ≠ .teardown) :
    (w.after c d).Wired ((w.session.forsaken c d).toList ++ forgotten) := by
  have hs := hw.sound t ht
  obtain ⟨t', -, he⟩ := hs.effect ht hd hc
  refine ⟨?_, fun m hm => ?_⟩
  · rw [List.filterMap_append, h.lost, lost_after]
  · cases List.mem_append.mp hm with
    | inl hheld =>
      obtain ⟨x, hx, rfl⟩ := List.mem_map.mp hheld
      exact he.wiredIn_held hs rfl h x hx
    | inr hgone =>
      cases List.mem_append.mp hgone with
      | inr hforgotten => exact he.wiredIn_forgotten hs rfl h m hforgotten
      | inl hforsaken =>
        have hforsaken := Option.mem_toList.mp hforsaken
        obtain ⟨name, hmem⟩ := mem_of_forsaken hforsaken
        have hnone := (hs.batch hw.lawful ht hd hc).eq_nil_of_forsaken hforsaken
        rw [wiring_after, hnone]
        exact h.held hmem

/-- The run lemma: all mappings are wired, whether they are held or were forgotten on the way. -/
theorem Wired.runAll {cs : List Command} (h : w.Wired forgotten) (hw : w.Reachable)
    (ht : w.session.tag = some t) (hrun : w.runAll cs = .ok w') (hstay : .teardown ∉ cs) :
    w'.Wired (w.forgotten cs ++ forgotten) := by
  induction cs generalizing w t forgotten with
  | nil =>
    obtain rfl := Except.ok.inj hrun
    exact h
  | cons c cs ih =>
    obtain ⟨next, hnext, hrun⟩ := Checked.bind_eq_ok.mp hrun
    obtain ⟨d, hd, rfl⟩ := step_eq_ok.mp hnext
    obtain ⟨hc, hstay⟩ := not_or.mp (mt List.mem_cons.mpr hstay)
    obtain ⟨t₁, ht₁, -⟩ := (hw.sound t ht).effect ht hd (Ne.symm hc)
    have hrest := ih (h.step hw ht hd (Ne.symm hc)) (hw.step hnext) ht₁ hrun hstay
    rw [Ledger.forgotten, hd, List.append_assoc]
    exact hrest

/-- As long as the tag is there, the calls are on whole pages, and fresh one after another. -/
theorem Reachable.calls_fresh (hw : w.Reachable) : ∀ t, w.session.tag = some t →
    (∀ call ∈ w.calls, ∀ a, call.bus? = some a → a.pageOffset = 0) ∧
      Bindings.empty.Fresh w.calls := by
  induction hw with
  | start h => exact fun _ _ => ⟨nofun, trivial⟩
  | @step w w' c hw h ih =>
    intro t' ht'
    obtain ⟨d, hd, rfl⟩ := step_eq_ok.mp h
    obtain ⟨t, ht, hs, he⟩ := effect_of_step hw.sound hd ht'
    obtain ⟨haligned, hfresh⟩ := ih t ht
    refine ⟨fun call hcall => ?_, Bindings.fresh_append.mpr ⟨hfresh, he.fresh hs⟩⟩
    cases List.mem_append.mp hcall with
    | inl hold => exact haligned call hold
    | inr hnew => exact he.aligned hs call hnew

theorem Reachable.tag_runAll {cs : List Command} (hw : w.Reachable) (ht : w.session.tag = some t)
    (hrun : w.runAll cs = .ok w') (hstay : .teardown ∉ cs) : ∃ t', w'.session.tag = some t' := by
  induction cs generalizing w t with
  | nil =>
    obtain rfl := Except.ok.inj hrun
    exact ⟨t, ht⟩
  | cons c cs ih =>
    obtain ⟨next, hnext, hrun⟩ := Checked.bind_eq_ok.mp hrun
    obtain ⟨d, hd, rfl⟩ := step_eq_ok.mp hnext
    obtain ⟨hc, hstay⟩ := not_or.mp (mt List.mem_cons.mpr hstay)
    obtain ⟨t₁, ht₁, -⟩ := (hw.sound t ht).effect ht hd (Ne.symm hc)
    exact ih (hw.step hnext) ht₁ hrun hstay

/-- A run keeps the range of addresses that the pool has, and how host memory is resolved. -/
theorem Reachable.sameRange_runAll {cs : List Command} (hw : w.Reachable)
    (hrun : w.runAll cs = .ok w') (ht' : w'.session.tag = some t') :
    ∃ t, w.session.tag = some t ∧ t.pool.SameRange t'.pool ∧
      t'.memory.host = t.memory.host := by
  induction cs generalizing w with
  | nil =>
    obtain rfl := Except.ok.inj hrun
    exact ⟨t', ht', .refl t'.pool, rfl⟩
  | cons c cs ih =>
    obtain ⟨next, hnext, hrun⟩ := Checked.bind_eq_ok.mp hrun
    obtain ⟨d, hd, rfl⟩ := step_eq_ok.mp hnext
    obtain ⟨t₁, ht₁, hrange, hhost⟩ := ih (hw.step hnext) hrun
    obtain ⟨t, ht, hs, he⟩ := effect_of_step hw.sound hd ht₁
    exact ⟨t, ht, (sameRange_of_effect he hs).trans hrange, hhost.trans he.host_eq⟩

theorem table_runAll {cs : List Command} {table : Table} (hrun : w.runAll cs = .ok w')
    (h : w.session.table = some (w.calls.foldl Table.apply table)) :
    w'.session.table = some (w'.calls.foldl Table.apply table) := by
  induction cs generalizing w with
  | nil =>
    obtain rfl := Except.ok.inj hrun
    exact h
  | cons c cs ih =>
    obtain ⟨next, hnext, hrun⟩ := Checked.bind_eq_ok.mp hrun
    obtain ⟨d, hd, rfl⟩ := step_eq_ok.mp hnext
    refine ih hrun ?_
    show d.session.table = _
    rw [Session.table_of_step hd, h]
    exact congrArg some List.foldl_append.symm

/-- What is loaded, in mappings that are held and in mappings that were forgotten. -/
theorem Wired.loaded_tenancies (h : w.Wired forgotten) :
    w.tenancies.map (·.loaded) =
      (w.session.mappings.map (·.2) ++ forgotten).filterMap (·.loaded) := by
  have hheld : w.held.map (·.loaded) =
      (w.session.mappings.map (·.2)).filterMap (·.loaded) := by
    rw [Ledger.held, tenanciesOf, List.map_filterMap, List.filterMap_map]
    refine List.filterMap_congr fun x _ => ?_
    rw [Option.map_map]
    exact Option.map_id'
  rw [Ledger.tenancies, List.map_append, hheld, List.filterMap_append, h.lost]

theorem Wired.wiring_eq (h : w.Wired forgotten) (hs : w.Sound t) {m : Mapping}
    (hm : m ∈ w.session.mappings.map (·.2) ++ forgotten) {bus : BusAddr} {f : FrameNo}
    (hf : m.Serves bus f) : w.wiring bus = some (f.base, m.limits.traits) := by
  obtain ⟨l, hl, hmem⟩ := hf.mem_layout fun l hl => hs.occupied.fits l <| by
    rw [h.loaded_tenancies]
    exact List.mem_filterMap.mpr ⟨m, hm, hl⟩
  exact h.wired m hm l hl bus f.base hmem

theorem Wired.exists_serves (h : w.Wired forgotten) (hs : w.Sound t) {bus : BusAddr}
    (hbus : w.wiring bus ≠ none) :
    ∃ m ∈ w.session.mappings.map (·.2) ++ forgotten, ∃ f, m.Serves bus f := by
  obtain ⟨⟨p, traits⟩, hx⟩ := Option.ne_none_iff_exists'.mp hbus
  have hbound : w.bindings bus = some p := by
    rw [← bindings_wiring, Wiring.bindings, hx]
    rfl
  obtain ⟨l, hl, hmem⟩ := (hs.occupied.bound bus p).mp hbound
  have hfits := hs.occupied.fits l hl
  rw [h.loaded_tenancies] at hl
  obtain ⟨m, hm, hml⟩ := List.mem_filterMap.mp hl
  exact ⟨m, hm, Mapping.serves_of_mem_layout hml hfits hmem⟩

end Ledger

end Aperture
