import Aperture.Ledger
import Aperture.Proofs.Handle.Load
import Aperture.Proofs.Session.Steps
import Mathlib.Data.List.Forall2

namespace Aperture

section Named

variable {α β : Type} {R : α → β → Prop} {l : List (String × α)} {l' : List (String × β)}

theorem lookup_rel (h : List.Forall₂ (fun x y => x.1 = y.1 ∧ R x.2 y.2) l l') (name : String) :
    Option.Rel R (l.lookup name) (l'.lookup name) := by
  induction h with
  | nil => exact .none
  | @cons x y rest rest' hxy _ ih =>
    obtain ⟨other, a⟩ := x
    obtain ⟨other', b⟩ := y
    obtain ⟨rfl, hab⟩ := hxy
    rw [List.lookup_cons, List.lookup_cons]
    cases name == other with
    | true => exact .some hab
    | false => exact ih

theorem filter_rel (h : List.Forall₂ (fun x y => x.1 = y.1 ∧ R x.2 y.2) l l') (name : String) :
    List.Forall₂ (fun x y => x.1 = y.1 ∧ R x.2 y.2) (l.filter (·.1 ≠ name))
      (l'.filter (·.1 ≠ name)) :=
  List.rel_filter (fun x y hxy => by simp only [hxy.1]) h

end Named

namespace Bench

variable {b : Bench} {s : Session} {name : String} {t : Tag} {h : Handle} {m : Mapping}

theorem handle?_put_of_ne {other : String} (hne : other ≠ name) (b : Bench) (h : Handle) :
    (b.put name h).handle? other = b.handle? other := by
  show ((name, h) :: b.handles.filter (·.1 ≠ name)).lookup other = b.handles.lookup other
  rw [List.lookup_cons, beq_false_of_ne hne]
  exact lookup_filter_ne hne

theorem handle?_remove_of_ne {other : String} (hne : other ≠ name) (b : Bench) :
    (b.remove name).handle? other = b.handle? other := lookup_filter_ne hne

theorem handle?_act_of_ne {action : Action} {d : BenchStep} {other : String} (hne : other ≠ name)
    (hact : b.act t name h action = .ok d) : d.bench.handle? other = b.handle? other := by
  cases action with
  | limits =>
    obtain rfl := Except.ok.inj hact
    rfl
  | setAlignment alignment =>
    rw [act] at hact
    cases halign : h.setAlignment alignment with
    | error reason =>
      rw [halign] at hact
      obtain rfl := Except.ok.inj hact
      rfl
    | ok h' =>
      rw [halign] at hact
      obtain rfl := Except.ok.inj hact
      exact handle?_put_of_ne hne b h'
  | sync offset length phases =>
    obtain ⟨_, -, hact⟩ := Checked.bind_eq_ok.mp hact
    obtain rfl := Except.ok.inj hact
    rfl
  | destroy =>
    obtain ⟨_, -, hact⟩ := Checked.bind_eq_ok.mp hact
    obtain rfl := Except.ok.inj hact
    exact handle?_remove_of_ne hne _
  | load p =>
    obtain ⟨_, -, hact⟩ := Checked.bind_eq_ok.mp hact
    obtain rfl := Except.ok.inj hact
    exact handle?_put_of_ne hne _ _
  | unload =>
    obtain ⟨_, -, hact⟩ := Checked.bind_eq_ok.mp hact
    obtain rfl := Except.ok.inj hact
    exact handle?_put_of_ne hne _ _

/-- What is done with the handle of a name leaves all other handles alone. -/
theorem handle?_step_of_ne {action : Action} {d : BenchStep} {other : String} (hne : other ≠ name)
    (hstep : b.step (.act name action) = .ok d) : d.bench.handle? other = b.handle? other := by
  obtain ⟨d', hrun, hstep⟩ := Checked.bind_eq_ok.mp hstep
  obtain rfl := Except.ok.inj hstep
  show d'.bench.handle? other = b.handle? other
  unfold run at hrun
  cases htag : b.tag with
  | none =>
    rw [htag] at hrun
    obtain rfl := Except.ok.inj hrun
    rfl
  | some t =>
    rw [htag] at hrun
    dsimp only [runWith] at hrun
    cases hself : b.handle? name with
    | none =>
      rw [hself] at hrun
      obtain rfl := Except.ok.inj hrun
      rfl
    | some h =>
      rw [hself] at hrun
      exact handle?_act_of_ne hne hrun

/-- The bench refines the session after a step, and both answer and do the same. -/
structure StepRefines (d : BenchStep) (d' : Step) : Prop where
  bench : d.bench.Refines d'.session
  reply : d.reply = d'.reply
  events : d.events = d'.events

namespace Refines

variable (hr : b.Refines s)

include hr

theorem handle?_rel (name : String) :
    Option.Rel Handle.Refines (b.handle? name) (s.mapping? name) := lookup_rel hr.handles name

theorem exists_handle (hm : s.mapping? name = some m) :
    ∃ h, b.handle? name = some h ∧ h.Refines m := by
  have hrel := hr.handle?_rel name
  rw [hm] at hrel
  generalize b.handle? name = h? at hrel
  cases hrel with
  | some hrefines => exact ⟨_, rfl, hrefines⟩

theorem withTag (t? : Option Tag) : Refines { b with tag := t? } { s with tag := t? } :=
  ⟨rfl, hr.table, hr.handles⟩

theorem remove (name : String) : (b.remove name).Refines (s.remove name) :=
  ⟨hr.tag, hr.table, filter_rel hr.handles name⟩

theorem put (name : String) (hm : h.Refines m) : (b.put name h).Refines (s.put name m) :=
  ⟨hr.tag, hr.table, .cons ⟨rfl, hm⟩ (hr.remove name).handles⟩

theorem settle (events : List Event) : (b.settle events).Refines (s.settle events) :=
  ⟨hr.tag, congrArg (Option.map _) hr.table, hr.handles⟩

theorem dropped_eq (name : String) : b.dropped name = s.dropped name := by
  unfold dropped Session.dropped
  have hrel := hr.handle?_rel name
  generalize b.handle? name = h? at hrel
  generalize s.mapping? name = m? at hrel
  cases hrel with
  | none => rfl
  | some hm => exact hm.dropped_eq

theorem forget (name : String) : StepRefines (b.forget name) (s.forget name) :=
  ⟨hr.remove name, rfl, hr.dropped_eq name⟩

theorem act_agrees (t : Tag) (name : String) (hm : h.Refines m) (action : Action) :
    Checked.Agree StepRefines (b.act t name h action) (s.act t name m action) := by
  cases action with
  | limits => exact .ok ⟨hr, congrArg Reply.limits hm.limits, rfl⟩
  | load p =>
    refine (Work.load_agrees hm p).bind fun x o hx => ?_
    obtain ⟨htag, hhandle, hresult, hevents⟩ := hx
    refine .ok ⟨?_, congrArg Reply.ofResult hresult, hevents⟩
    rw [htag]
    exact (hr.withTag _).put name hhandle
  | unload =>
    refine (Work.unload_agrees hm).bind fun k x hk => ?_
    obtain ⟨htag, hhandle, -, hevents⟩ := hk
    refine .ok ⟨?_, rfl, hevents⟩
    rw [htag]
    exact (hr.withTag _).put name hhandle
  | destroy =>
    refine (Work.destroy_agrees hm).bind fun x y hxy => ?_
    obtain ⟨htag, hevents⟩ := hxy
    refine .ok ⟨?_, rfl, hevents⟩
    rw [htag]
    exact (hr.withTag _).remove name
  | setAlignment alignment =>
    have hmade := Handle.setAlignment_agrees hm alignment
    rw [act, Session.act]
    generalize h.setAlignment alignment = x at hmade
    generalize m.setAlignment alignment = y at hmade
    cases hmade with
    | made hm' => exact .ok ⟨hr.put name hm', rfl, rfl⟩
    | refused reason => exact .ok ⟨hr, rfl, rfl⟩
  | sync offset length phases =>
    refine (Work.sync_agrees hm offset length phases).bind fun x y hxy => ?_
    exact .ok ⟨hr, congrArg Reply.ofResult hxy.1, hxy.2⟩

theorem runWith_agrees (t : Tag) (c : Command) :
    Checked.Agree StepRefines (b.runWith t c) (s.runWith t c) := by
  cases c with
  | create name limits =>
    have hmade := Handle.new_agrees t.memory.host.storage limits
    rw [runWith, Session.runWith]
    generalize Handle.new t.memory.host.storage limits = x at hmade
    generalize Mapping.new t.memory.host.storage limits = y at hmade
    cases hmade with
    | made hm =>
      exact .ok ⟨hr.put name hm, congrArg Reply.capacity hm.room.slots, hr.dropped_eq name⟩
    | refused reason => exact .ok ⟨hr, rfl, rfl⟩
  | act name action =>
    have hrel := hr.handle?_rel name
    rw [runWith, Session.runWith]
    generalize b.handle? name = h? at hrel
    generalize s.mapping? name = m? at hrel
    cases hrel with
    | none => exact .ok ⟨hr, rfl, rfl⟩
    | some hm => exact hr.act_agrees t name hm action
  | drop name => exact .ok (hr.forget name)
  | alloc size alignment boundary =>
    unfold runWith Session.runWith
    dsimp only
    rw [bind_assoc]
    exact .bind_same _ fun x _ => .ok ⟨hr.withTag _, rfl, rfl⟩
  | free memory => exact .ok ⟨hr.withTag _, rfl, rfl⟩
  | describe => exact .ok ⟨hr, rfl, rfl⟩
  | entry bus => exact .ok ⟨hr, by rw [bare, hr.table], rfl⟩
  | teardown =>
    unfold runWith Session.runWith
    dsimp only
    rw [bind_assoc]
    exact .bind_same _ fun x _ => .ok ⟨hr.withTag _, rfl, rfl⟩

theorem run_agrees (c : Command) : Checked.Agree StepRefines (b.run c) (s.run c) := by
  unfold run Session.run
  rw [hr.tag]
  cases s.tag with
  | some t => exact hr.runWith_agrees t c
  | none =>
    cases c with
    | drop name => exact .ok (hr.forget name)
    | _ => exact .ok ⟨hr, rfl, rfl⟩

/-- A bench answers and does what the session does that it refines, and goes on to refine it. -/
theorem step_agrees (c : Command) : Checked.Agree StepRefines (b.step c) (s.step c) := by
  unfold step Session.step
  refine (hr.run_agrees c).bind fun d d' hd => .ok ⟨?_, hd.reply, hd.events⟩
  rw [hd.events]
  exact hd.bench.settle _

end Refines

theorem refines_new {name : String} {aperture : Option (BusAddr × Word)} {table : Option Table}
    {memory : HostMemory} {cache : Option Cache} {events : List Event}
    (h : new name aperture table memory cache = .ok (b, events)) :
    ∃ s, Session.new name aperture table memory cache = .ok (s, events) ∧ b.Refines s := by
  obtain ⟨⟨s, noted⟩, hs, h⟩ := Checked.bind_eq_ok.mp h
  obtain ⟨rfl, rfl⟩ := Prod.mk.inj (Except.ok.inj h)
  obtain ⟨_, _, _, -, rfl⟩ := Session.new_eq_ok hs
  exact ⟨_, hs, rfl, rfl, .nil⟩

/-- The run lemma: each bench of a run refines the session of a ledger, with the same calls on the
table. -/
theorem Reachable.exists_ledger {calls : List TableCall} (hb : b.Reachable calls) :
    ∃ w : Ledger, w.Reachable ∧ w.calls = calls ∧ b.Refines w.session := by
  induction hb with
  | start h =>
    obtain ⟨s, hs, hr⟩ := refines_new h
    exact ⟨.start s, .start hs, rfl, hr⟩
  | @step b calls c d hb h ih =>
    obtain ⟨w, hw, rfl, hr⟩ := ih
    obtain ⟨d', hd', hstep⟩ := (hr.step_agrees c).of_ok h
    refine ⟨w.after c d', hw.step (Ledger.step_eq_ok.mpr ⟨d', hd', rfl⟩), ?_, hstep.bench⟩
    rw [hstep.events]
    rfl

end Bench

end Aperture
