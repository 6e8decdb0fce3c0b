import Aperture.Ledger
import Aperture.Proofs.Session.Steps
import Aperture.Proofs.Tag.Lawful

namespace Aperture

/-- What a command makes of the tag, whatever is handed out of its aperture. -/
structure Tag.Follows (t : Tag) (c : Command) (t' : Tag) : Prop where
  recorded : t'.recorded = c.recorded?.getD t.recorded
  memory : t.memory.Next t'.memory

theorem Tag.Alike.follows {t t' : Tag} {c : Command} (h : t.Alike t') (hc : c.recorded? = none) :
    t.Follows c t' := by
  refine ⟨?_, .kept h.memory⟩
  rw [hc]
  exact h.recorded

namespace Session

variable {s s' : Session} {c : Command} {d : Step} {name : String}

/-- What a command does to the mappings: none changes, or the one that the command is about is made,
kept under its limits, or gone. -/
inductive Changes (s : Session) (c : Command) (s' : Session) : Prop
  | same (hmappings : s'.mappings = s.mappings)
  | made {name : String} {limits : Limits} {t : Tag} {m : Mapping}
      (hsubject : c.subject? = some name)
      (ht : s.tag = some t)
      (hnew : Mapping.new t.memory.host.storage limits = .ok m)
      (hmappings : s'.HasBeside s name (some m))
      (hrenews : c.renews t.memory.host.storage name)
  | kept {name : String} {m m' : Mapping}
      (hsubject : c.subject? = some name)
      (hm : s.mapping? name = some m)
      (hmade : m.IsMade → m'.IsMade)
      (hmappings : s'.HasBeside s name (some m'))
      (halike : m.Alike m')
  | gone {name : String}
      (hsubject : c.subject? = some name)
      (hmappings : s'.HasBeside s name none)
      (hrenews : ∀ storage, c.renews storage name)

theorem changes_of_act {t : Tag} {m : Mapping} {action : Action} (ht : s.tag = some t)
    (hm : s.mapping? name = some m) (h : s.act t name m action = .ok d) :
    s.Changes (.act name action) d.session ∧
      ∃ t', d.session.tag = some t' ∧ t.Alike t' := by
  cases action with
  | limits =>
    obtain rfl := Except.ok.inj h
    exact ⟨.same rfl, t, ht, .refl t⟩
  | load p =>
    obtain ⟨o, hload, h⟩ := Checked.bind_eq_ok.mp h
    obtain rfl := Except.ok.inj h
    obtain ⟨halike, l?, hmapping⟩ := Tag.alike_load hload
    exact ⟨.kept rfl hm (fun hmade => hmapping ▸ hmade.withLoaded l?) (hasBeside_put _ name _)
      (hmapping ▸ m.alike_withLoaded l?), o.tag, rfl, halike⟩
  | unload =>
    obtain ⟨⟨tag, mapping, events⟩, hunload, h⟩ := Checked.bind_eq_ok.mp h
    obtain rfl := Except.ok.inj h
    obtain ⟨halike, l?, hmapping⟩ := Tag.alike_unload hunload
    exact ⟨.kept rfl hm (fun hmade => hmapping ▸ hmade.withLoaded l?) (hasBeside_put _ name _)
      (hmapping ▸ m.alike_withLoaded l?), tag, rfl, halike⟩
  | destroy =>
    obtain ⟨⟨tag, events⟩, hdestroy, h⟩ := Checked.bind_eq_ok.mp h
    obtain rfl := Except.ok.inj h
    exact ⟨.gone rfl (hasBeside_remove _ name) (fun _ => beq_self_eq_true name), tag, rfl,
      Tag.alike_destroy hdestroy⟩
  | setAlignment alignment =>
    unfold act at h
    cases halign : m.setAlignment alignment with
    | error reason =>
      simp only [halign] at h
      obtain rfl := Except.ok.inj h
      exact ⟨.same rfl, t, ht, .refl t⟩
    | ok m' =>
      simp only [halign] at h
      obtain rfl := Except.ok.inj h
      exact ⟨.kept rfl hm (fun hmade => hmade.setAlignment halign) (hasBeside_put _ name _)
        (Mapping.setAlignment_eq_ok halign).2, t, ht, .refl t⟩
  | sync offset length phases =>
    obtain ⟨⟨result, events⟩, -, h⟩ := Checked.bind_eq_ok.mp h
    obtain rfl := Except.ok.inj h
    exact ⟨.same rfl, t, ht, .refl t⟩

theorem changes_of_runWith {t : Tag} (ht : s.tag = some t) (h : s.runWith t c = .ok d) :
    s.Changes c d.session ∧ ∀ t', d.session.tag = some t' →
      t.Follows c t' := by
  -- what holds of the one tag the session may have holds of each
  have only {t₁ : Tag} (ht₁ : d.session.tag = some t₁) (hfollows : t.Follows c t₁) :
      ∀ t', d.session.tag = some t' → t.Follows c t' := by
    intro t' ht'
    obtain rfl := Option.some.inj (ht'.symm.trans ht₁)
    exact hfollows
  cases c with
  | create name limits =>
    cases hnew : Mapping.new t.memory.host.storage limits with
    | error reason =>
      rw [runWith, hnew] at h
      obtain rfl := Except.ok.inj h
      exact ⟨.same rfl, only ht ((Tag.Alike.refl t).follows rfl)⟩
    | ok m =>
      rw [runWith, hnew] at h
      obtain rfl := Except.ok.inj h
      have hrenews : (Command.create name limits).renews t.memory.host.storage name := by
        simp [Command.renews, hnew, Except.isOk, Except.toBool]
      exact ⟨.made rfl ht hnew (hasBeside_put s name m) hrenews,
        only ht ((Tag.Alike.refl t).follows rfl)⟩
  | act name action =>
    cases hm : s.mapping? name with
    | none =>
      rw [runWith, hm] at h
      obtain rfl := Except.ok.inj h
      exact ⟨.same rfl, only ht ((Tag.Alike.refl t).follows rfl)⟩
    | some m =>
      rw [runWith, hm] at h
      obtain ⟨hchanges, t₁, ht₁, halike⟩ := changes_of_act ht hm h
      exact ⟨hchanges, only ht₁ (halike.follows rfl)⟩
  | alloc size alignment boundary =>
    obtain ⟨⟨tag, result, events⟩, halloc, h⟩ := Checked.bind_eq_ok.mp h
    obtain rfl := Except.ok.inj h
    refine ⟨.same rfl, only rfl ⟨?_, Tag.memory_alloc halloc⟩⟩
    rw [Tag.recorded_alloc halloc, Command.recorded?]
    split <;> rfl
  | free memory =>
    obtain rfl := Except.ok.inj h
    exact ⟨.same rfl, only rfl ⟨t.recorded_free memory, t.memory_free memory⟩⟩
  | drop name =>
    obtain rfl := Except.ok.inj h
    exact ⟨.gone rfl (hasBeside_remove s name) (fun _ => beq_self_eq_true name),
      only ht ((Tag.Alike.refl t).follows rfl)⟩
  | teardown =>
    obtain ⟨events, -, h⟩ := Checked.bind_eq_ok.mp h
    obtain rfl := Except.ok.inj h
    exact ⟨.same rfl, fun t' ht' => by cases ht'⟩
  | _ =>
    obtain rfl := Except.ok.inj h
    exact ⟨.same rfl, only ht ((Tag.Alike.refl t).follows rfl)⟩

/-- The step lemma: at most one mapping changes, only an allocation changes what is recorded, and at
most one call is made on host memory. -/
theorem changes_of_step (h : s.step c = .ok d) :
    s.Changes c d.session ∧ ∀ t', d.session.tag = some t' →
      ∃ t, s.tag = some t ∧ t.Follows c t' := by
  cases ht : s.tag with
  | none =>
    refine ⟨?_, fun t' ht' => by rw [tag_eq_none_of_step ht h] at ht'; cases ht'⟩
    obtain ⟨d, hrun, rfl⟩ := step_eq_ok.mp h
    unfold run at hrun
    rw [ht] at hrun
    cases c with
    | drop name =>
      obtain rfl := Except.ok.inj hrun
      exact .gone rfl (hasBeside_remove s name) (fun _ => beq_self_eq_true name)
    | _ =>
      obtain rfl := Except.ok.inj hrun
      exact .same rfl
  | some t =>
    obtain ⟨d, hrun, rfl⟩ := step_eq_ok.mp h
    rw [run_of_tag ht] at hrun
    obtain ⟨hchanges, hfollows⟩ := changes_of_runWith ht hrun
    refine ⟨?_, fun t' ht' => ⟨t, rfl, hfollows t' ht'⟩⟩
    cases hchanges with
    | same hmappings => exact .same hmappings
    | made hsubject ht hnew hmappings hrenews => exact .made hsubject ht hnew hmappings hrenews
    | kept hsubject hm hmade hmappings halike => exact .kept hsubject hm hmade hmappings halike
    | gone hsubject hmappings hrenews => exact .gone hsubject hmappings hrenews

theorem Changes.mapping?_eq (h : s.Changes c s') (hname : c.subject? ≠ some name) :
    s'.mapping? name = s.mapping? name := by
  have other {subject : String} (hsubject : c.subject? = some subject) : name ≠ subject := by
    intro he
    rw [he] at hname
    exact hname hsubject
  cases h with
  | same hmappings => rw [mapping?, hmappings, mapping?]
  | made hsubject _ _ hmappings => exact hmappings.mapping?_of_ne (other hsubject)
  | kept hsubject _ _ hmappings => exact hmappings.mapping?_of_ne (other hsubject)
  | gone hsubject hmappings => exact hmappings.mapping?_of_ne (other hsubject)

/-- A command that does not renew a mapping keeps its limits and its storage. -/
theorem Changes.alike (h : s.Changes c s') {storage : Storage}
    (hstorage : ∀ t, s.tag = some t → t.memory.host.storage = storage)
    (hc : c.renews storage name = false) {m : Mapping} (hm : s.mapping? name = some m) :
    ∃ m', s'.mapping? name = some m' ∧ m.Alike m' := by
  have other {subject : String} (hrenews : c.renews storage subject) : name ≠ subject := by
    intro he
    rw [← he, hc] at hrenews
    cases hrenews
  cases h with
  | same hmappings => exact ⟨m, by rw [mapping?, hmappings]; exact hm, .refl m⟩
  | made _ ht _ hmappings hrenews =>
    rw [hstorage _ ht] at hrenews
    exact ⟨m, (hmappings.mapping?_of_ne (other hrenews)).trans hm, .refl m⟩
  | @kept subject m₁ m₂ _ hm₁ _ hmappings halike =>
    by_cases he : name = subject
    · subst he
      obtain rfl := Option.some.inj (hm.symm.trans hm₁)
      exact ⟨m₂, hmappings.mapping?_self, halike⟩
    · exact ⟨m, (hmappings.mapping?_of_ne he).trans hm, .refl m⟩
  | gone _ hmappings hrenews =>
    exact ⟨m, (hmappings.mapping?_of_ne (other (hrenews storage))).trans hm, .refl m⟩

/-- What holds of new mappings, and is kept with the limits and the storage, goes on to hold. -/
theorem Changes.forall_mem {P : Mapping → Prop} (h : s.Changes c s')
    (hnew : ∀ storage limits m, Mapping.new storage limits = .ok m → P m)
    (hkept : ∀ m m', (m.IsMade → m'.IsMade) → m.Alike m' → P m → P m')
    (hs : ∀ x ∈ s.mappings, P x.2) : ∀ x ∈ s'.mappings, P x.2 := by
  cases h with
  | same hmappings =>
    rw [hmappings]
    exact hs
  | made _ _ hmade hmappings =>
    refine hmappings.forall_mem hs fun m hm => ?_
    obtain rfl := Option.some.inj hm
    exact hnew _ _ _ hmade
  | kept _ hm hmade hmappings halike =>
    refine hmappings.forall_mem hs fun m hm' => ?_
    obtain rfl := Option.some.inj hm'
    exact hkept _ _ hmade halike (hs _ (mem_mappings hm))
  | gone _ hmappings =>
    refine hmappings.forall_mem hs fun m hm => ?_
    cases hm

end Session

theorem Command.wellFormed_of_recorded? {c : Command} {r : Recorded} (h : c.recorded? = some r) :
    r.WellFormed := by
  cases c with
  | alloc size alignment boundary =>
    rw [recorded?] at h
    split at h
    · next hboth =>
      obtain rfl := Option.some.inj h
      exact ⟨hboth.1, hboth.2⟩
    · cases h
  | _ => cases h

/-- All mappings were made with well-formed limits, and what the tag records is well-formed. -/
structure Session.Lawful (s : Session) : Prop where
  mappings : ∀ x ∈ s.mappings, x.2.IsMade
  recorded : ∀ t, s.tag = some t → t.recorded.WellFormed

namespace Ledger

variable {w w' : Ledger} {t t' : Tag} {name : String}

theorem lawful_start {name : String} {aperture : Option (BusAddr × Word)} {table : Option Table}
    {memory : HostMemory} {cache : Option Cache} {s : Session} {events : List Event}
    (h : Session.new name aperture table memory cache = .ok (s, events)) :
    s.Lawful ∧ ∃ t, s.tag = some t ∧ t.recorded = ⟨0, 0⟩ ∧ t.memory = memory := by
  obtain ⟨first, size, tag, htag, rfl⟩ := Session.new_eq_ok h
  obtain ⟨-, hmemory, hrecorded⟩ := Tag.new_eq_ok htag
  refine ⟨⟨by simp, fun t ht => ?_⟩, tag, rfl, hrecorded, hmemory⟩
  obtain rfl := Option.some.inj ht
  rw [hrecorded]
  exact ⟨.inl rfl, .inl rfl⟩

/-- The run lemma: every session of a run is lawful. -/
theorem Reachable.lawful (hw : w.Reachable) : w.session.Lawful := by
  induction hw with
  | start h => exact (lawful_start h).1
  | @step w w' c hw h ih =>
    obtain ⟨d, hd, rfl⟩ := step_eq_ok.mp h
    obtain ⟨hchanges, hfollows⟩ := Session.changes_of_step hd
    have hmappings := hchanges.forall_mem (fun _ _ _ => Mapping.isMade_new)
      (fun _ _ hmade _ => hmade)
      ih.mappings
    refine ⟨hmappings, fun t' ht' => ?_⟩
    obtain ⟨t, ht, hfollows⟩ := hfollows t' ht'
    rw [hfollows.recorded]
    cases hc : c.recorded? with
    | none => exact ih.recorded t ht
    | some r => exact Command.wellFormed_of_recorded? hc

/-- Every mapping of a run has the storage that its limits ask for. -/
theorem Reachable.isSized (hw : w.Reachable) : ∀ x ∈ w.session.mappings, x.2.IsSized := by
  induction hw with
  | start h =>
    obtain ⟨first, size, tag, -, rfl⟩ := Session.new_eq_ok h
    intro x hx
    cases hx
  | step hw h ih =>
    obtain ⟨d, hd, rfl⟩ := step_eq_ok.mp h
    exact (Session.changes_of_step hd).1.forall_mem (fun _ _ _ => Mapping.isSized_new)
      (fun _ _ _ halike => halike.isSized) ih

theorem mapping?_runAll {cs : List Command} (hrun : w.runAll cs = .ok w')
    (hname : ∀ c ∈ cs, c.subject? ≠ some name) :
    w'.session.mapping? name = w.session.mapping? name := by
  induction cs generalizing w with
  | nil =>
    obtain rfl := Except.ok.inj hrun
    rfl
  | cons c cs ih =>
    obtain ⟨next, hnext, hrun⟩ := Checked.bind_eq_ok.mp hrun
    obtain ⟨d, hd, rfl⟩ := step_eq_ok.mp hnext
    have hfirst := (Session.changes_of_step hd).1.mapping?_eq (hname c (by simp))
    exact (ih hrun fun c' hc' => hname c' (by simp [hc'])).trans hfirst

theorem host_of_step {c : Command} {d : Step} (hd : w.session.step c = .ok d)
    (ht' : d.session.tag = some t') :
    ∃ t, w.session.tag = some t ∧ t'.memory.host = t.memory.host := by
  obtain ⟨t, ht, hfollows⟩ := (Session.changes_of_step hd).2 t' ht'
  exact ⟨t, ht, hfollows.memory.host_eq⟩

/-- As long as a mapping is not renewed, it keeps its limits and its storage. -/
theorem alike_runAll {cs : List Command} (hrun : w.runAll cs = .ok w') {storage : Storage}
    (hstorage : ∀ t, w.session.tag = some t → t.memory.host.storage = storage)
    (hcs : ∀ c ∈ cs, c.renews storage name = false) {m : Mapping}
    (hm : w.session.mapping? name = some m) :
    ∃ m', w'.session.mapping? name = some m' ∧ m.Alike m' := by
  induction cs generalizing w m with
  | nil =>
    obtain rfl := Except.ok.inj hrun
    exact ⟨m, hm, .refl m⟩
  | cons c cs ih =>
    obtain ⟨next, hnext, hrun⟩ := Checked.bind_eq_ok.mp hrun
    obtain ⟨d, hd, rfl⟩ := step_eq_ok.mp hnext
    obtain ⟨m₁, hm₁, hfirst⟩ :=
      (Session.changes_of_step hd).1.alike hstorage (hcs c (by simp)) hm
    have hnextStorage (t₁ : Tag) (ht₁ : d.session.tag = some t₁) :
        t₁.memory.host.storage = storage := by
      obtain ⟨t, ht, hhost⟩ := host_of_step hd ht₁
      rw [hhost]
      exact hstorage t ht
    obtain ⟨m', hm', hrest⟩ :=
      ih hrun hnextStorage (fun c' hc' => hcs c' (by simp [hc'])) hm₁
    exact ⟨m', hm', hfirst.trans hrest⟩

/-- After a run, the tag records what the last allocation of the run asked for. -/
theorem recorded_runAll {cs : List Command} (hrun : w.runAll cs = .ok w')
    (ht' : w'.session.tag = some t') :
    ∃ t, w.session.tag = some t ∧
      t'.recorded = (cs.filterMap Command.recorded?).getLastD t.recorded := by
  induction cs generalizing w with
  | nil =>
    obtain rfl := Except.ok.inj hrun
    exact ⟨t', ht', rfl⟩
  | cons c cs ih =>
    obtain ⟨next, hnext, hrun⟩ := Checked.bind_eq_ok.mp hrun
    obtain ⟨d, hd, rfl⟩ := step_eq_ok.mp hnext
    obtain ⟨t₁, ht₁, hlater⟩ := ih hrun
    obtain ⟨t, ht, hfirst⟩ := (Session.changes_of_step hd).2 t₁ ht₁
    refine ⟨t, ht, ?_⟩
    rw [hlater, hfirst.recorded, List.filterMap_cons]
    cases c.recorded? with
    | none => rfl
    | some r => exact List.getLastD_cons.symm

theorem host_runAll {cs : List Command} (hrun : w.runAll cs = .ok w')
    (ht' : w'.session.tag = some t') :
    ∃ t, w.session.tag = some t ∧ t'.memory.host = t.memory.host := by
  induction cs generalizing w with
  | nil =>
    obtain rfl := Except.ok.inj hrun
    exact ⟨t', ht', rfl⟩
  | cons c cs ih =>
    obtain ⟨next, hnext, hrun⟩ := Checked.bind_eq_ok.mp hrun
    obtain ⟨d, hd, rfl⟩ := step_eq_ok.mp hnext
    obtain ⟨t₁, ht₁, hlater⟩ := ih hrun
    obtain ⟨t, ht, hfirst⟩ := host_of_step hd ht₁
    exact ⟨t, ht, hlater.trans hfirst⟩

theorem host_of_runFrom {first : BusAddr} {size : Word} {cs : List Command}
    (h : runFrom first size cs = .ok w) (ht : w.session.tag = some t) : t.memory.host = .plain := by
  obtain ⟨⟨s, events⟩, hnew, hrun⟩ := Checked.bind_eq_ok.mp h
  obtain ⟨-, t₀, ht₀, -, hmemory⟩ := lawful_start hnew
  obtain ⟨t₁, ht₁, hhost⟩ := host_runAll hrun ht
  obtain rfl := Option.some.inj (ht₀.symm.trans ht₁)
  rw [hhost, hmemory]

/-- Direct calls lead to the host memory that a run leads to. -/
theorem memory_runAll {cs : List Command} (hrun : w.runAll cs = .ok w')
    (ht' : w'.session.tag = some t') :
    ∃ t calls outcomes, w.session.tag = some t ∧
      t.memory.runAll calls = .ok (outcomes, t'.memory) := by
  induction cs generalizing w with
  | nil =>
    obtain rfl := Except.ok.inj hrun
    exact ⟨t', [], [], ht', rfl⟩
  | cons c cs ih =>
    obtain ⟨next, hnext, hrun⟩ := Checked.bind_eq_ok.mp hrun
    obtain ⟨d, hd, rfl⟩ := step_eq_ok.mp hnext
    obtain ⟨t₁, calls, outcomes, ht₁, hcalls⟩ := ih hrun
    obtain ⟨t, ht, hfollows⟩ := (Session.changes_of_step hd).2 t₁ ht₁
    obtain ⟨calls, outcomes, hcalls⟩ := hfollows.memory.runAll hcalls
    exact ⟨t, calls, outcomes, ht, hcalls⟩

end Ledger

end Aperture
