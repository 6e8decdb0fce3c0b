import Aperture.Proofs.Ledger.Synced
import Aperture.Proofs.Session.Changes
import Aperture.Proofs.Tag.Overstep

namespace Aperture

/-- What the mapping has loaded is not longer than its limits allow. -/
def Mapping.HoldsLimit (m : Mapping) : Prop :=
  ∀ l, m.loaded = some l → l.length ≤ m.limits.maxSize

namespace Ledger

variable {w : Ledger} {t t' : Tag} {name : String} {m : Mapping} {l : Loaded} {c : Command}
  {d : Step}

theorem length_le_of_load (ht : w.session.tag = some t) (hm : w.session.mapping? name = some m)
    (hnone : m.loaded = none) {p : Payload} (h : w.session.step (.act name (.load p)) = .ok d)
    (hmappings : d.session.HasBeside w.session name (some { m with loaded := some l }))
    (hlength : p.length? = some l.length) : l.length ≤ m.limits.maxSize := by
  rw [Session.step_load ht hm] at h
  obtain ⟨o, hload, rfl⟩ := Checked.map_eq_ok.mp h
  rcases Tag.load_cases hload with ⟨reason, rfl, -⟩ | ⟨length, hlength', hle, -, -⟩
  · have hself : some m = some { m with loaded := some l } :=
      (Session.hasBeside_put _ name m).mapping?_self.symm.trans hmappings.mapping?_self
    have hloaded := congrArg Mapping.loaded (Option.some.inj hself)
    cases hnone.symm.trans hloaded
  · obtain rfl := Option.some.inj (hlength.symm.trans hlength')
    exact hle

/-- The step lemma: whatever a command does, no mapping holds more than its limits allow. -/
theorem holdsLimit_of_effect (ht : w.session.tag = some t) (h : w.session.step c = .ok d)
    (he : Effect w t c (Event.tableCalls d.events) (w.after c d) t')
    (hall : ∀ x ∈ w.session.mappings, x.2.HoldsLimit) :
    ∀ x ∈ d.session.mappings, x.2.HoldsLimit := by
  cases he with
  | idle _ _ hmappings =>
    have hsame : d.session.mappings = w.session.mappings := hmappings
    rw [hsame]
    exact hall
  | kept _ hm hloaded halike hmappings =>
    refine hmappings.forall_mem hall fun m' hm' => ?_
    obtain rfl := Option.some.inj hm'
    intro l hl
    rw [halike.limits]
    exact hall _ (Session.mem_mappings hm) l (hloaded.symm.trans hl)
  | loaded hcommand hm hnone _ _ hfaithful hmappings =>
    subst hcommand
    refine hmappings.forall_mem hall fun m' hm' => ?_
    obtain rfl := Option.some.inj hm'
    intro l hl
    obtain rfl := Option.some.inj hl
    have hle := length_le_of_load ht hm hnone h hmappings hfaithful.length
    exact hle
  | unloaded _ _ hm _ hrest hmappings =>
    refine hmappings.forall_mem hall fun m' hm' => ?_
    intro l hl
    cases hrest with
    | inl hended => cases hended.symm.trans hm'
    | inr hemptied =>
      obtain rfl := Option.some.inj (hemptied.symm.trans hm')
      cases hl
  | gone _ _ hfresh hmappings =>
    refine hmappings.forall_mem hall fun m' hm' => ?_
    intro l hl
    cases (hfresh m' hm').2.symm.trans hl

/-- The run lemma: as long as there is a tag, no mapping holds more than its limits allow. -/
theorem Reachable.holdsLimit (hw : w.Reachable) :
    ∀ t, w.session.tag = some t → ∀ x ∈ w.session.mappings, x.2.HoldsLimit := by
  induction hw with
  | start h =>
    obtain ⟨first, size, tag, -, rfl⟩ := Session.new_eq_ok h
    intro t ht x hx
    cases hx
  | step hw h ih =>
    intro t' ht'
    obtain ⟨d, hd, rfl⟩ := step_eq_ok.mp h
    obtain ⟨t, ht, -, he⟩ := effect_of_step hw.sound hd ht'
    exact holdsLimit_of_effect ht hd he (ih t ht)

theorem Reachable.inReach (hw : w.Reachable) (ht : w.session.tag = some t)
    (hm : w.session.mapping? name = some m) (hl : m.loaded = some l) : l.InReach := by
  obtain ⟨-, hfaithful⟩ := hw.fits_faithful ht hm hl
  have hmem := Session.mem_mappings hm
  refine ⟨?_, hfaithful.reach, fun hraw => ?_⟩
  · have hlimit := BitVec.le_def.mp (hw.holdsLimit t ht _ hmem l hl)
    have hstorage := (hw.isSized _ hmem).storage
    unfold pageSize at *
    omega
  · have hbytes := hfaithful.bytes (Payload.isPaged_of_raw (hfaithful.shape.symm.trans hraw))
    rw [← Payload.length_bytes hbytes hfaithful.length, List.length_flatMap, Run.totalLength]
    congr 1
    exact List.map_congr_left fun r _ => List.length_range'.symm

/-- A synchronisation of a mapping faults exactly if it flushes pages of a linear payload that do
not end before its space does. So every other comes to an end, in whatever part of the payload. -/
theorem Reachable.sync_faults_iff (hw : w.Reachable) (ht : w.session.tag = some t)
    (hm : w.session.mapping? name = some m) (lineSize offset length : Word) (phases : Phases) :
    ((∃ f, m.syncPlan lineSize offset length phases = .error f) ↔
      m.Oversteps lineSize offset length phases) ∧
    (∀ f, m.syncPlan lineSize offset length phases = .error f → f = .addOverflow) ∧
    ∀ cache, t.cache = some cache → cache.Works → cache.lineSize = lineSize →
      ((∃ f, w.session.step (.act name (.sync offset length phases)) = .error f) ↔
        m.Oversteps lineSize offset length phases) := by
  have hiff (f : Fault) : m.syncPlan lineSize offset length phases = .error f ↔
      f = .addOverflow ∧ m.Oversteps lineSize offset length phases :=
    Mapping.syncPlan_eq_error_iff fun l hl => hw.inReach ht hm hl
  have hfaults : (∃ f, m.syncPlan lineSize offset length phases = .error f) ↔
      m.Oversteps lineSize offset length phases := by
    constructor
    · rintro ⟨f, hf⟩
      exact ((hiff f).mp hf).2
    · intro hover
      exact ⟨.addOverflow, (hiff _).mpr ⟨rfl, hover⟩⟩
  refine ⟨hfaults, fun f hf => ((hiff f).mp hf).1, ?_⟩
  rintro cache hcache hworks rfl
  simp only [Session.step_sync_eq_error_iff ht hm hcache hworks]
  exact hfaults

/-- The last page of a space, which is loaded and is to be synchronised before a transfer. -/
theorem fault_after_last_page :
    let space : VirtSpace := .ofPages 1 [(⟨0xfffffffffffff⟩, #[⟨9⟩])]
    ∃ (w : Ledger) (t : Tag) (m : Mapping) (l : Loaded) (cache : Cache), w.Reachable ∧
      w.session.tag = some t ∧ t.memory.host.resolver = .direct ∧ t.cache = some cache ∧
      cache.told? = some 64 ∧ w.session.mapping? "m" = some m ∧ m.loaded = some l ∧
      w.payloads "m" = .linear ⟨0xfffffffffffff000⟩ 0x1000 space ∧
      ∃ f, m.syncPlan 64 0 0x1000 { preWrite := true } = .error f := by
  intro space
  obtain ⟨w, t, m, l, hw, ht, hhost, hm, hl, hp, hseen⟩ := exists_loaded ⟨none, .plain⟩
    (some (.recorded 64)) (.linear ⟨0xfffffffffffff000⟩ 0x1000 space)
    (fun t m => t.cache.bind fun cache => cache.told?.map fun lineSize =>
      (lineSize, (m.syncPlan 64 0 0x1000 { preWrite := true }).isOk))
    (64, false) (by decide +kernel)
  obtain ⟨cache, hcache, hseen⟩ := Option.bind_eq_some_iff.mp hseen
  obtain ⟨lineSize, htold, hseen⟩ := Option.map_eq_some_iff.mp hseen
  have hdirect : t.memory.host.resolver = .direct := by rw [hhost]; rfl
  obtain ⟨rfl, hfault⟩ := Prod.mk.inj hseen
  refine ⟨w, t, m, l, cache, hw, ht, hdirect, hcache, htold, hm, hl, hp, ?_⟩
  cases hplan : m.syncPlan 64 0 0x1000 { preWrite := true } with
  | error f => exact ⟨f, rfl⟩
  | ok plan =>
    rw [hplan] at hfault
    cases hfault

/-- There the page that is flushed is the last, and the session faults with it. -/
theorem sync_faults_after_last_page :
    let space : VirtSpace := .ofPages 1 [(⟨0xfffffffffffff⟩, #[⟨9⟩])]
    let phases : Phases := { preWrite := true }
    ∃ (w : Ledger) (t : Tag) (m : Mapping) (l : Loaded) (cache : Cache), w.Reachable ∧
      w.session.tag = some t ∧ t.memory.host.resolver = .direct ∧
      w.session.mapping? "m" = some m ∧ m.loaded = some l ∧
      w.payloads "m" = .linear ⟨0xfffffffffffff000⟩ 0x1000 space ∧
      t.cache = some cache ∧ cache.Works ∧ cache.lineSize = 64 ∧
      m.Oversteps 64 0 0x1000 phases ∧
      ∃ f, w.session.step (.act "m" (.sync 0 0x1000 phases)) = .error f := by
  intro space phases
  obtain ⟨w, t, m, l, cache, hw, ht, hdirect, hcache, htold, hm, hl, hp, hfault⟩ :=
    fault_after_last_page
  obtain ⟨hworks, hlineSize, -⟩ := Cache.of_told? htold
  obtain ⟨hiff, -, hsession⟩ := hw.sync_faults_iff ht hm 64 0 0x1000 phases
  have hover := hiff.mp hfault
  exact ⟨w, t, m, l, cache, hw, ht, hdirect, hm, hl, hp, hcache, hworks, hlineSize, hover,
    (hsession cache hcache hworks hlineSize).mpr hover⟩

/-- So not every synchronisation of a loaded mapping comes to an end. -/
theorem not_sync_total :
    ¬ ∀ (w : Ledger) (t : Tag) (name : String) (m : Mapping) (l : Loaded)
      (lineSize offset length : Word) (phases : Phases), w.Reachable → w.session.tag = some t →
      t.memory.host.resolver = .direct → w.session.mapping? name = some m → m.loaded = some l →
      ∃ plan, m.syncPlan lineSize offset length phases = .ok plan := by
  intro htotal
  obtain ⟨w, t, m, l, -, hw, ht, hdirect, -, -, hm, hl, -, f, hfault⟩ := fault_after_last_page
  obtain ⟨plan, hplan⟩ := htotal w t "m" m l 64 0 0x1000 { preWrite := true } hw ht hdirect hm hl
  cases hfault.symm.trans hplan

end Ledger

end Aperture
