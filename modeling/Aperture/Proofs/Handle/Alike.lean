import Aperture.Proofs.Handle.Bench

namespace Aperture

namespace Arena

theorem live_of_size_eq_zero {a : Arena} (h : a.size = 0) : a.live = [] := by
  rw [live, h, List.take_zero]

theorem find?_of_size_eq_zero {a : Arena} (h : a.size = 0) (f : FrameNo) : a.find? f = none := by
  have hnone : a.contains f = false := by simp [contains, h]
  rw [find?, hnone, if_neg Bool.false_ne_true]

end Arena

/-- Handles that stand for one mapping look alike. -/
theorem Handle.Refines.looksAs {h h' : Handle} {m : Mapping} (hr : h.Refines m)
    (hr' : h'.Refines m) : h'.LooksAs h := by
  cases hm : m.loaded with
  | none =>
    have hidle := hr.idle hm
    have hidle' := hr'.idle hm
    constructor
    case limits => rw [hr.limits, hr'.limits]
    case alignment => rw [hr.alignment, hr'.alignment]
    case stage => rw [hidle.stage, hidle'.stage]
    case capacity => rw [hr.room.slots, hr'.room.slots]
    case live => rw [Arena.live_of_size_eq_zero hidle.size, Arena.live_of_size_eq_zero hidle'.size]
    case find =>
      intro f
      rw [Arena.find?_of_size_eq_zero hidle.size, Arena.find?_of_size_eq_zero hidle'.size]
    case bound => rw [hidle.unbound, hidle'.unbound]
    case runs => rw [hidle.runs, hidle'.runs]
    case segments => rw [GatherList.segments, hidle'.segments, GatherList.segments, hidle.segments]
    case maxCount => rw [hr.maxCount, hr'.maxCount]
    case maxLength => rw [hr.maxLength, hr'.maxLength]
    case block => rw [hidle.block, hidle'.block]
    case shape => rw [hidle.shape, hidle'.shape]
    case base => rw [hidle.base, hidle'.base]
    case owner => rw [hidle.owner, hidle'.owner]
    case length => rw [hidle.length, hidle'.length]
  | some l =>
    have hl := hr.loaded l hm
    have hl' := hr'.loaded l hm
    constructor
    case limits => rw [hr.limits, hr'.limits]
    case alignment => rw [hr.alignment, hr'.alignment]
    case stage => rw [hl.stage, hl'.stage]
    case capacity => rw [hr.room.slots, hr'.room.slots]
    case live => rw [hl.frames.live, hl'.frames.live]
    case find =>
      intro f
      rw [hl.frames.find?_eq hl.wellFormed, hl'.frames.find?_eq hl.wellFormed]
    case bound => rw [hl.frames.base, hl'.frames.base]
    case runs => rw [hl.runs, hl'.runs]
    case segments => rw [hl.segments, hl'.segments]
    case maxCount => rw [hr.maxCount, hr'.maxCount]
    case maxLength => rw [hr.maxLength, hr'.maxLength]
    case block => rw [hl.block, hl'.block]
    case shape => rw [hl.shape, hl'.shape]
    case base => rw [hl.base, hl'.base]
    case owner => rw [hl.owner, hl'.owner]
    case length => rw [hl.length, hl'.length]

namespace Session

variable {s s' : Session} {name : String}

/-- The tags are the same, and so are the mappings, in whatever order they are kept. -/
structure Alike (s s' : Session) : Prop where
  tag : s.tag = s'.tag
  mapping : ∀ name, s.mapping? name = s'.mapping? name

/-- After alike steps the sessions are alike, and both have answered and done the same. -/
structure StepAlike (d d' : Step) : Prop where
  session : d.session.Alike d'.session
  reply : d.reply = d'.reply
  events : d.events = d'.events

namespace Alike

variable (h : s.Alike s')

include h

theorem withTag (t? : Option Tag) : Alike { s with tag := t? } { s' with tag := t? } :=
  ⟨rfl, h.mapping⟩

theorem beside {s₁ s₁' : Session} {m? : Option Mapping} (htag : s₁.tag = s₁'.tag)
    (hbeside : s₁.HasBeside s name m?) (hbeside' : s₁'.HasBeside s' name m?) : s₁.Alike s₁' := by
  refine ⟨htag, fun other => ?_⟩
  by_cases he : other = name
  · rw [he, hbeside.mapping?_self, hbeside'.mapping?_self]
  · rw [hbeside.mapping?_of_ne he, hbeside'.mapping?_of_ne he, h.mapping]

theorem put (name : String) (m : Mapping) : (s.put name m).Alike (s'.put name m) :=
  h.beside h.tag (hasBeside_put s name m) (hasBeside_put s' name m)

theorem remove (name : String) : (s.remove name).Alike (s'.remove name) :=
  h.beside h.tag (hasBeside_remove s name) (hasBeside_remove s' name)

theorem dropped_eq (name : String) : s.dropped name = s'.dropped name := by
  rw [dropped, dropped, h.mapping]

theorem act_agrees (t : Tag) (name : String) (m : Mapping) (action : Action) :
    Checked.Agree StepAlike (s.act t name m action) (s'.act t name m action) := by
  cases action with
  | limits => exact .ok ⟨h, rfl, rfl⟩
  | load p => exact .bind_same _ fun o _ => .ok ⟨(h.withTag _).put name _, rfl, rfl⟩
  | unload => exact .bind_same _ fun x _ => .ok ⟨(h.withTag _).put name _, rfl, rfl⟩
  | destroy => exact .bind_same _ fun x _ => .ok ⟨(h.withTag _).remove name, rfl, rfl⟩
  | setAlignment alignment =>
    rw [act, act]
    cases m.setAlignment alignment with
    | error reason => exact .ok ⟨h, rfl, rfl⟩
    | ok m' => exact .ok ⟨h.put name m', rfl, rfl⟩
  | sync offset length phases => exact .bind_same _ fun x _ => .ok ⟨h, rfl, rfl⟩

/-- But for the entries of their tables, sessions that are alike answer and do the same. -/
theorem step_agrees (c : Command) (hc : ∀ bus, c ≠ .entry bus) :
    Checked.Agree StepAlike (s.step c) (s'.step c) := by
  have hrun : Checked.Agree StepAlike (s.run c) (s'.run c) := by
    unfold run
    rw [h.tag]
    cases s'.tag with
    | none =>
      cases c with
      | drop name => exact .ok ⟨h.remove name, rfl, h.dropped_eq name⟩
      | _ => exact .ok ⟨h, rfl, rfl⟩
    | some t =>
      cases c with
      | create name limits =>
        unfold runWith
        dsimp only
        cases Mapping.new t.memory.host.storage limits with
        | error reason => exact .ok ⟨h, rfl, rfl⟩
        | ok m => exact .ok ⟨h.put name m, rfl, h.dropped_eq name⟩
      | act name action =>
        unfold runWith
        dsimp only
        rw [h.mapping]
        cases s'.mapping? name with
        | none => exact .ok ⟨h, rfl, rfl⟩
        | some m => exact h.act_agrees t name m action
      | alloc size alignment boundary =>
        exact .bind_same _ fun x _ => .ok ⟨h.withTag _, rfl, rfl⟩
      | free memory => exact .ok ⟨h.withTag _, rfl, rfl⟩
      | describe => exact .ok ⟨h, rfl, rfl⟩
      | entry bus => exact absurd rfl (hc bus)
      | drop name => exact .ok ⟨h.remove name, rfl, h.dropped_eq name⟩
      | teardown => exact .bind_same _ fun x _ => .ok ⟨h.withTag _, rfl, rfl⟩
  exact hrun.bind fun d d' hd => .ok ⟨⟨hd.session.tag, hd.session.mapping⟩, hd.reply, hd.events⟩

end Alike

end Session

namespace Bench

variable {b b' : Bench}

/-- The benches refine sessions that are alike. -/
def Indistinct (b b' : Bench) : Prop := ∃ s s', b.Refines s ∧ b'.Refines s' ∧ s.Alike s'

theorem Indistinct.step_agrees (h : b.Indistinct b') (c : Command) (hc : ∀ bus, c ≠ .entry bus) :
    Checked.Agree (fun d d' => d.bench.Indistinct d'.bench ∧ d.reply = d'.reply ∧
      d.events = d'.events) (b.step c) (b'.step c) := by
  obtain ⟨s, s', hr, hr', halike⟩ := h
  have hfirst := (hr.step_agrees c).trans (halike.step_agrees c hc)
    (U := fun d e => ∃ e', d.bench.Refines e'.session ∧ e'.session.Alike e.session ∧
      d.reply = e.reply ∧ d.events = e.events) fun d e' e hd he =>
        ⟨e', hd.bench, he.session, hd.reply.trans he.reply, hd.events.trans he.events⟩
  refine hfirst.trans (hr'.step_agrees c).symm fun d e d' hd hd' => ?_
  obtain ⟨e', hrefines, halike', hreply, hevents⟩ := hd
  exact ⟨⟨_, _, hrefines, hd'.bench, halike'⟩, hreply.trans hd'.reply.symm,
    hevents.trans hd'.events.symm⟩

theorem answers_cons (b : Bench) (c : Command) (cs : List Command) :
    b.answers (c :: cs) = (do
      let d ← b.step c
      return (d.reply, d.events) :: (← d.bench.answers cs)) := by
  simp only [answers, runAll, bind_assoc, Checked.pure_eq, Checked.ok_bind, List.map_cons]

/-- The run lemma: nothing that is asked of the benches, but an entry of the table, tells them
apart. -/
theorem Indistinct.answers_eq {cs : List Command} (hcs : ∀ c ∈ cs, ∀ bus, c ≠ .entry bus)
    (h : b.Indistinct b') : b.answers cs = b'.answers cs := by
  induction cs generalizing b b' with
  | nil => rfl
  | cons c cs ih =>
    rw [answers_cons, answers_cons]
    refine (Checked.Agree.bind (h.step_agrees c (hcs c List.mem_cons_self)) ?_).eq
    rintro d d' ⟨hbench, hreply, hevents⟩
    have hrest := ih (fun c hc => hcs c (List.mem_cons_of_mem _ hc)) hbench
    rw [hreply, hevents, hrest]
    exact .refl _

end Bench

end Aperture
