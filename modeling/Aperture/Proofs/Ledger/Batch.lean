import Aperture.Proofs.Ledger.Sound
import Aperture.Proofs.Session.Changes
import Aperture.Proofs.Table.Fresh
import Aperture.Proofs.Tag.Course

namespace Aperture

namespace TableCall

theorem flushed_append_flush (calls : List TableCall) : Flushed (calls ++ [.flush]) := by
  intro last hlast
  rw [List.getLast?_concat] at hlast
  exact (Option.some.inj hlast).symm

theorem flushed_binds (b : Block) (frames : List FrameNo) (traits : Traits) :
    Flushed (b.binds frames traits) := flushed_append_flush _

theorem flushed_append_unbinds (calls : List TableCall) (b : Block) (frames : List FrameNo) :
    Flushed (calls ++ b.unbinds frames) := by
  rw [Block.unbinds, ← List.append_assoc]
  exact flushed_append_flush _

end TableCall

def Command.stirs : Command → Bool
  | act _ (.load _) | act _ .unload | act _ .destroy => true
  | _ => false

theorem Command.Unloads.subject?_eq {c : Command} {name : String} (h : c.Unloads name) :
    c.subject? = some name := by
  rcases h with rfl | rfl <;> rfl

namespace Tag

variable {t t' : Tag} {m m' : Mapping} {events : List Event}

theorem tableCalls_unload (hloaded : ∀ l, m.loaded = some l → l.Fits ∧ l.block ∈ t.pool.blocks)
    (h : t.unload m = .ok (t', m', events)) :
    Event.tableCalls events = m.loaded.elim [] fun l => l.block.unbinds (Run.frames l.runs) := by
  cases hl : m.loaded with
  | none =>
    unfold unload at h
    rw [hl] at h
    obtain ⟨rfl, rfl, rfl⟩ := by simpa using Except.ok.inj h
    rfl
  | some l =>
    obtain ⟨hfits, hmem⟩ := hloaded l hl
    rw [unload_eq hl hfits hmem] at h
    obtain ⟨rfl, rfl, rfl⟩ := by simpa using Except.ok.inj h
    exact Event.tableCalls_map_table _

theorem tableCalls_destroy (hloaded : ∀ l, m.loaded = some l → l.Fits ∧ l.block ∈ t.pool.blocks)
    (h : t.destroy m = .ok (t', events)) :
    Event.tableCalls events = m.loaded.elim [] fun l => l.block.unbinds (Run.frames l.runs) := by
  unfold destroy at h
  split at h
  · obtain ⟨⟨tag, mapping, called⟩, hunload, h⟩ := Checked.bind_eq_ok.mp h
    obtain ⟨rfl, rfl⟩ := by simpa using Except.ok.inj h
    exact tableCalls_unload hloaded hunload
  · next hempty =>
    obtain ⟨rfl, rfl⟩ := by simpa using Except.ok.inj h
    rw [Option.not_isSome_iff_eq_none.mp hempty]
    rfl

theorem flushed_teardown (h : t.teardown = .ok events) :
    TableCall.Flushed (Event.tableCalls events) := by
  obtain ⟨outstanding, -, h⟩ := Checked.bind_eq_ok.mp h
  obtain ⟨pages, -, h⟩ := Checked.bind_eq_ok.mp h
  obtain rfl := Except.ok.inj h
  rw [Event.tableCalls_append]
  exact TableCall.flushed_append_flush _

end Tag

namespace Ledger

variable {w w' : Ledger} {t t' : Tag} {c : Command} {d : Step} {calls : List TableCall}
  {name : String}

namespace Batch

theorem of_aside (hcalls : calls = []) (hc : c.stirs = false) : w.Batch c d calls := by
  rw [hcalls]
  refine .silent (fun name p he => ?_) fun name _ he => ?_
  · rw [he] at hc
    cases hc
  · rcases he with rfl | rfl <;> cases hc

theorem of_refused {p : Payload} (hdone : d.reply ≠ .done)
    (hrefused : d.reply ≠ .refused .tooManySegments) : w.Batch (.act name (.load p)) d [] := by
  refine .silent (fun _ _ _ => ⟨hdone, hrefused⟩) fun _ _ hc => ?_
  cases hc with
  | inl hc => cases hc
  | inr hc => cases hc

/-- What is unloaded is unbound, and with nothing to unload there is nothing to call. -/
theorem of_unloads {m : Mapping} (hc : c.Unloads name) (hm : w.session.mapping? name = some m)
    (hcalls : calls = m.loaded.elim [] fun l => l.block.unbinds (Run.frames l.runs)) :
    w.Batch c d calls := by
  rw [hcalls]
  cases hl : m.loaded with
  | some l => exact .unbound hc hm hl
  | none =>
    refine .silent (fun _ _ he => ?_) fun other m' hc' hm' => ?_
    · subst he
      rcases hc with hc | hc <;> cases hc
    · obtain rfl := Option.some.inj (hc.subject?_eq.symm.trans hc'.subject?_eq)
      obtain rfl := Option.some.inj (hm.symm.trans hm')
      exact hl

theorem flushed (h : w.Batch c d calls) : TableCall.Flushed calls := by
  cases h with
  | bound => exact TableCall.flushed_binds _ _ _
  | unwound => exact TableCall.flushed_append_unbinds _ _ _
  | unbound => exact TableCall.flushed_append_unbinds [] _ _
  | silent => exact nofun

end Batch

theorem flushed_of_teardown (h : w.session.step .teardown = .ok d) :
    TableCall.Flushed (Event.tableCalls d.events) := by
  obtain ⟨d, hrun, rfl⟩ := Session.step_eq_ok.mp h
  unfold Session.run at hrun
  cases ht : w.session.tag with
  | none =>
    rw [ht] at hrun
    obtain rfl := Except.ok.inj hrun
    exact nofun
  | some t =>
    rw [ht] at hrun
    obtain ⟨events, hteardown, hrun⟩ := Checked.bind_eq_ok.mp hrun
    obtain rfl := Except.ok.inj hrun
    exact Tag.flushed_teardown hteardown

namespace Sound

section Action

variable {m : Mapping}

theorem batch_of_load (hs : w.Sound t) (hlawful : w.session.Lawful) (ht : w.session.tag = some t)
    (hm : w.session.mapping? name = some m) {p : Payload} {o : Tag.Outcome}
    (h : t.load m p = .ok o) :
    w.Batch (.act name (.load p)) (w.session.loadStep name o) (Event.tableCalls o.events) := by
  have hmem := Session.mem_mappings hm
  rcases Tag.load_route hs.occupied.wellFormed (hlawful.recorded t ht) (hlawful.mappings _ hmem)
    (hs.blank _ hmem) h with
    ⟨d, rfl, hreason, -⟩ | ⟨length, b, hfailure, hin, -, hb, hroute⟩
  · rw [Tag.tableCalls_declined]
    refine .of_refused (fun hdone => by cases hdone) fun hrefused => ?_
    exact hreason (Reply.refused.inj hrefused)
  have hplaces : t.Places m p b (Run.frames (t.memory.resolve p).runs) := by
    refine ⟨rfl, fun hpaged => ?_, hb⟩
    exact (Payload.frames_eq (HostMemory.bytes?_of_resolve hpaged hfailure hin) hin).symm
  cases hroute with
  | full =>
    rw [Event.tableCalls_map_table]
    exact .unwound rfl rfl ht hm hplaces
  | @done l _ _ hblock hruns =>
    subst hblock
    rw [← hruns] at hplaces ⊢
    rw [Event.tableCalls_append, Event.tableCalls_map_table, Event.tableCalls_cons_notice,
      Event.tableCalls_nil, List.append_nil]
    exact .bound rfl rfl ht hm (Session.hasBeside_put _ name _).mapping?_self hplaces

theorem batch_of_act (hs : w.Sound t) (hlawful : w.session.Lawful) (ht : w.session.tag = some t)
    (hm : w.session.mapping? name = some m) {action : Action}
    (h : w.session.act t name m action = .ok d) :
    w.Batch (.act name action) d.settled (Event.tableCalls d.events) := by
  have hloaded (l : Loaded) (hl : m.loaded = some l) := hs.fits_of_loaded hm hl
  cases action with
  | load p =>
    obtain ⟨o, hload, h⟩ := Checked.bind_eq_ok.mp h
    obtain rfl := Except.ok.inj h
    exact hs.batch_of_load hlawful ht hm hload
  | unload =>
    obtain ⟨⟨tag, mapping, events⟩, hunload, h⟩ := Checked.bind_eq_ok.mp h
    obtain rfl := Except.ok.inj h
    exact .of_unloads (.inl rfl) hm (Tag.tableCalls_unload hloaded hunload)
  | destroy =>
    obtain ⟨⟨tag, events⟩, hdestroy, h⟩ := Checked.bind_eq_ok.mp h
    obtain rfl := Except.ok.inj h
    exact .of_unloads (.inr rfl) hm (Tag.tableCalls_destroy hloaded hdestroy)
  | limits =>
    obtain rfl := Except.ok.inj h
    exact .of_aside rfl rfl
  | setAlignment alignment =>
    unfold Session.act at h
    cases halign : m.setAlignment alignment with
    | error reason =>
      simp only [halign] at h
      obtain rfl := Except.ok.inj h
      exact .of_aside rfl rfl
    | ok m' =>
      simp only [halign] at h
      obtain rfl := Except.ok.inj h
      exact .of_aside rfl rfl
  | sync offset length phases =>
    obtain ⟨⟨result, events⟩, hsync, h⟩ := Checked.bind_eq_ok.mp h
    obtain rfl := Except.ok.inj h
    exact .of_aside (Tag.tableCalls_sync hsync) rfl

end Action

/-- The step lemma: every command but a teardown calls its batch. -/
theorem batch (hs : w.Sound t) (hlawful : w.session.Lawful) (ht : w.session.tag = some t)
    (h : w.session.step c = .ok d) (hc : c ≠ .teardown) :
    w.Batch c d (Event.tableCalls d.events) := by
  obtain ⟨d, hrun, rfl⟩ := Session.step_eq_ok.mp h
  rw [Session.run_of_tag ht] at hrun
  cases c with
  | act name action =>
    cases hm : w.session.mapping? name with
    | some m =>
      rw [Session.runWith, hm] at hrun
      exact hs.batch_of_act hlawful ht hm hrun
    | none =>
      rw [Session.runWith, hm] at hrun
      obtain rfl := Except.ok.inj hrun
      refine .silent (fun _ _ _ => ⟨Reply.noConfusion, Reply.noConfusion⟩) fun other m hc hm' => ?_
      obtain rfl := Option.some.inj hc.subject?_eq
      rw [hm] at hm'
      cases hm'
  | create name limits =>
    refine .of_aside ?_ rfl
    cases hnew : Mapping.new t.memory.host.storage limits with
    | error reason =>
      rw [Session.runWith, hnew] at hrun
      obtain rfl := Except.ok.inj hrun
      rfl
    | ok m =>
      rw [Session.runWith, hnew] at hrun
      obtain rfl := Except.ok.inj hrun
      exact Session.tableCalls_dropped _ name
  | alloc size alignment boundary =>
    obtain ⟨⟨tag, result, events⟩, halloc, hrun⟩ := Checked.bind_eq_ok.mp hrun
    obtain rfl := Except.ok.inj hrun
    obtain ⟨-, -, hcalls⟩ := Tag.alloc_eq_ok halloc
    exact .of_aside hcalls rfl
  | drop name =>
    obtain rfl := Except.ok.inj hrun
    exact .of_aside (Session.tableCalls_dropped _ name) rfl
  | teardown => exact absurd rfl hc
  | _ =>
    obtain rfl := Except.ok.inj hrun
    exact .of_aside rfl rfl

end Sound

theorem bindings_after (w : Ledger) (c : Command) (d : Step) :
    (w.after c d).bindings = w.bindings.applyAll (Event.tableCalls d.events) :=
  Bindings.applyAll_append _ _ _

/-- What an effect binds was not bound, and what it unbinds was. -/
theorem Effect.fresh (he : Effect w t c calls w' t') (hs : w.Sound t) : w.bindings.Fresh calls := by
  have hturnover := he.turnover hs
  cases hturnover with
  | same _ _ hcalls => exact hs.occupied.fresh_traceless hcalls
  | @added x traits _ hvacant hfits _ _ hcalls =>
    rw [hcalls]
    exact hs.occupied.fresh_binds hvacant hfits.pages traits
  | @removed x htenancies _ hcalls =>
    rw [hcalls]
    exact hs.occupied.fresh_unbinds
      (List.mem_map.mpr ⟨x, htenancies.mem_iff.mpr List.mem_cons_self, rfl⟩)

/-- The run lemma: the commands call one batch each, which are flushed, and fresh one after
another. -/
theorem Reachable.batches {cs : List Command} (hw : w.Reachable) (ht : w.session.tag = some t)
    (hrun : w.runAll cs = .ok w') (hstay : .teardown ∉ cs) :
    ∃ batches, Batches w cs batches w' ∧ w'.calls = w.calls ++ batches.flatten ∧
      (∀ calls ∈ batches, TableCall.Flushed calls) ∧ w.bindings.Fresh batches.flatten := by
  induction cs generalizing w t with
  | nil =>
    obtain rfl := Except.ok.inj hrun
    exact ⟨[], .nil, (List.append_nil _).symm, nofun, trivial⟩
  | cons c cs ih =>
    obtain ⟨next, hnext, hrun⟩ := Checked.bind_eq_ok.mp hrun
    obtain ⟨d, hd, rfl⟩ := step_eq_ok.mp hnext
    obtain ⟨hc, hstay⟩ := not_or.mp (mt List.mem_cons.mpr hstay)
    have hs := hw.sound t ht
    obtain ⟨t₁, ht₁, he⟩ := hs.effect ht hd (Ne.symm hc)
    have hbatch := hs.batch hw.lawful ht hd (Ne.symm hc)
    obtain ⟨batches, hbatches, hcalls, hflushed, hfresh⟩ := ih (hw.step hnext) ht₁ hrun hstay
    refine ⟨_, .cons hd hbatch hbatches, ?_, ?_, ?_⟩
    · rw [hcalls, List.flatten_cons, ← List.append_assoc]
      rfl
    · intro calls hmem
      cases List.mem_cons.mp hmem with
      | inl he => exact he ▸ hbatch.flushed
      | inr hmem => exact hflushed calls hmem
    · rw [List.flatten_cons, Bindings.fresh_append]
      exact ⟨he.fresh hs, bindings_after w c d ▸ hfresh⟩

/-- The calls of a run from a new session are the batches of its commands, each with its flush. No
page is bound twice, and none unbound that is not bound. A teardown is flushed as well. -/
theorem calls_disciplined {tagName : String} {aperture : Option (BusAddr × Word)}
    {table : Option Table} {memory : HostMemory} {cache : Option Cache} {s : Session}
    {events : List Event} (hnew : Session.new tagName aperture table memory cache = .ok (s, events))
    {cs : List Command} (hrun : (start s).runAll cs = .ok w) (hstay : .teardown ∉ cs) :
    ∃ batches, Batches (start s) cs batches w ∧ w.calls = batches.flatten ∧
      (∀ calls ∈ batches, TableCall.Flushed calls) ∧ Bindings.empty.Fresh w.calls ∧
      ∀ d, w.session.step .teardown = .ok d → TableCall.Flushed (Event.tableCalls d.events) := by
  obtain ⟨-, t, ht, -, -⟩ := lawful_start hnew
  obtain ⟨batches, hbatches, hcalls, hflushed, hfresh⟩ :=
    (Reachable.start hnew).batches ht hrun hstay
  have heq : w.calls = batches.flatten := hcalls
  exact ⟨batches, hbatches, heq, hflushed, heq ▸ hfresh, fun d hd => flushed_of_teardown hd⟩

/-- Two pages are bound and unbound again, and the first of them is bound for another mapping. -/
theorem calls_disciplined_unwound :
    let cs : List Command := [.create "m" ⟨0x2000, 1, 0x1000, 0, {}⟩,
      .act "m" (.load (.raw [⟨⟨0x5000⟩, 0x2000⟩])), .create "n" ⟨0x1000, 1, 0x1000, 0, {}⟩,
      .act "n" (.load (.raw [⟨⟨0x8000⟩, 0x1000⟩])), .act "n" .unload, .act "n" .destroy]
    ∃ (s : Session) (events : List Event) (w : Ledger) (batches : List (List TableCall)),
      Session.new "plain" (some (⟨0x10000⟩, 0x10000)) none ⟨none, .plain⟩ none = .ok (s, events) ∧
      (start s).runAll cs = .ok w ∧ .teardown ∉ cs ∧
      w.calls = [.bind ⟨0x10000⟩ ⟨0x5000⟩ {}, .bind ⟨0x11000⟩ ⟨0x6000⟩ {}, .flush,
        .unbind ⟨0x10000⟩, .unbind ⟨0x11000⟩, .flush, .bind ⟨0x10000⟩ ⟨0x8000⟩ {}, .flush,
        .unbind ⟨0x10000⟩, .flush] ∧
      Batches (start s) cs batches w ∧ w.calls = batches.flatten ∧
      (∀ calls ∈ batches, TableCall.Flushed calls) ∧ Bindings.empty.Fresh w.calls := by
  intro cs
  have hrun : (do
      let w ← runFrom ⟨0x10000⟩ 0x10000 cs
      return w.calls : Checked _).toOption =
        some [.bind ⟨0x10000⟩ ⟨0x5000⟩ {}, .bind ⟨0x11000⟩ ⟨0x6000⟩ {}, .flush,
          .unbind ⟨0x10000⟩, .unbind ⟨0x11000⟩, .flush, .bind ⟨0x10000⟩ ⟨0x8000⟩ {}, .flush,
          .unbind ⟨0x10000⟩, .flush] := by decide +kernel
  obtain ⟨w, hw, hrun⟩ := Checked.bind_eq_ok.mp (Checked.eq_ok_of_toOption hrun)
  obtain ⟨⟨s, events⟩, hnew, hrunAll⟩ := Checked.bind_eq_ok.mp hw
  have hstay : .teardown ∉ cs := by simp [cs]
  obtain ⟨batches, hbatches, hcalls, hflushed, hfresh, -⟩ := calls_disciplined hnew hrunAll hstay
  exact ⟨s, events, w, batches, hnew, hrunAll, hstay, Except.ok.inj hrun, hbatches, hcalls,
    hflushed, hfresh⟩

end Ledger

end Aperture
