import Aperture.Session
import Mathlib.Data.List.Nodup

namespace Aperture

section Named

variable {α β : Type}

/-- With each name once, picking out one name and filtering it out take a list apart. -/
theorem filterMap_perm_lookup (f : String × α → Option β) (name : String) {l : List (String × α)}
    (h : (l.map (·.1)).Nodup) :
    (l.filterMap f).Perm (((l.lookup name).bind fun a => f (name, a)).toList ++
      (l.filter (·.1 ≠ name)).filterMap f) := by
  induction l with
  | nil => exact .refl _
  | cons x l ih =>
    obtain ⟨other, a⟩ := x
    obtain ⟨hnew, hrest⟩ := List.nodup_cons.mp h
    by_cases he : other = name
    · subst he
      have hothers : l.filter (·.1 ≠ other) = l := by
        refine List.filter_eq_self.mpr fun y hy => ?_
        have hne : y.1 ≠ other := fun hyo => hnew (List.mem_map.mpr ⟨y, hy, hyo⟩)
        exact decide_eq_true hne
      have hkeep : ((other, a) :: l).filter (·.1 ≠ other) = l := by
        rw [List.filter_cons_of_neg (by simp), hothers]
      rw [hkeep, List.lookup_cons_self, Option.bind_some, List.filterMap_cons]
      cases f (other, a) <;> exact .refl _
    · have hlookup : ((other, a) :: l).lookup name = l.lookup name := by
        rw [List.lookup_cons, beq_false_of_ne (Ne.symm he)]
      have hkeep : ((other, a) :: l).filter (·.1 ≠ name) =
          (other, a) :: l.filter (·.1 ≠ name) := List.filter_cons_of_pos (by simpa using he)
      rw [hlookup, hkeep, List.filterMap_cons, List.filterMap_cons]
      cases f (other, a) with
      | none => exact ih hrest
      | some b => exact ((ih hrest).cons b).trans List.perm_middle.symm

theorem mem_of_lookup {l : List (String × α)} {name : String} {a : α}
    (h : l.lookup name = some a) : (name, a) ∈ l := by
  induction l with
  | nil => cases h
  | cons x l ih =>
    obtain ⟨other, b⟩ := x
    rw [List.lookup_cons] at h
    cases he : name == other with
    | true =>
      rw [he] at h
      obtain rfl := Option.some.inj h
      rw [beq_iff_eq.mp he]
      exact List.mem_cons_self
    | false =>
      rw [he] at h
      exact List.mem_cons_of_mem _ (ih h)

theorem lookup_filter_ne {l : List (String × α)} {name other : String} (h : other ≠ name) :
    (l.filter (·.1 ≠ name)).lookup other = l.lookup other := by
  induction l with
  | nil => rfl
  | cons x l ih =>
    obtain ⟨key, a⟩ := x
    by_cases he : key = name
    · rw [List.filter_cons_of_neg (by simpa using he), ih, List.lookup_cons, he,
        beq_false_of_ne h]
    · rw [List.filter_cons_of_pos (by simpa using he), List.lookup_cons, List.lookup_cons, ih]

end Named

theorem Tag.new_eq_ok {name : String} {first : BusAddr} {size : Word} {memory : HostMemory}
    {cache : Option Cache} {t : Tag} {events : List Event}
    (h : Tag.new name first size memory cache = .ok (t, events)) :
    Pool.new first.word size = .ok t.pool ∧ t.memory = memory ∧ t.recorded = ⟨0, 0⟩ := by
  unfold Tag.new at h
  split at h
  · cases h
  · split at h
    · cases h
    · obtain ⟨pool, hpool, h⟩ := Checked.bind_eq_ok.mp h
      obtain ⟨rfl, -⟩ := by simpa using Except.ok.inj h
      exact ⟨hpool, rfl, rfl⟩

def Step.settled (d : Step) : Step := { d with session := d.session.settle d.events }

namespace Session

variable {s : Session} {name other : String}

theorem step_eq_ok {c : Command} {d : Step} :
    s.step c = .ok d ↔ ∃ d', s.run c = .ok d' ∧ d = d'.settled := by
  unfold step
  rw [Checked.bind_eq_ok]
  simp only [Checked.pure_eq, Except.ok.injEq, eq_comm, Step.settled]

theorem run_of_tag {t : Tag} (ht : s.tag = some t) (c : Command) : s.run c = s.runWith t c := by
  unfold run
  rw [ht]

/-- With a tag, a step on a mapping is what the action does, once the table has seen the calls. -/
theorem step_act {t : Tag} {m : Mapping} {action : Action} (ht : s.tag = some t)
    (hm : s.mapping? name = some m) :
    s.step (.act name action) = (s.act t name m action).map Step.settled := by
  have hrun : s.run (.act name action) = s.act t name m action := by
    rw [run_of_tag ht, runWith, hm]
  unfold step
  rw [hrun]
  cases s.act t name m action <;> rfl

def loadStep (s : Session) (name : String) (o : Tag.Outcome) : Step :=
  Step.settled ⟨{ s with tag := some o.tag }.put name o.mapping, .ofResult o.result, o.events⟩

theorem step_load {t : Tag} {m : Mapping} (ht : s.tag = some t) (hm : s.mapping? name = some m)
    (p : Payload) : s.step (.act name (.load p)) = (t.load m p).map (s.loadStep name) := by
  rw [step_act ht hm, act]
  cases t.load m p <;> rfl

theorem new_eq_ok {aperture : Option (BusAddr × Word)}
    {table : Option Table} {memory : HostMemory} {cache : Option Cache}
    {events : List Event} (h : new name aperture table memory cache = .ok (s, events)) :
    ∃ first size tag, Tag.new name first size memory cache = .ok (tag, events) ∧
      s = ⟨some tag, table, []⟩ := by
  unfold new at h
  cases aperture <;> cases table <;> simp only at h
  all_goals
    obtain ⟨bounds, -, h⟩ := Checked.bind_eq_ok.mp h
    obtain ⟨⟨tag, noted⟩, htag, h⟩ := Checked.bind_eq_ok.mp h
    obtain ⟨rfl, rfl⟩ := Prod.mk.inj (Except.ok.inj h)
    exact ⟨_, _, tag, htag, rfl⟩

theorem new_of_table {t : Table} {memory : HostMemory} {cache : Option Cache} {events : List Event}
    (h : new name none (some t) memory cache = .ok (s, events)) :
    ∃ size tag, t.byteSize = .ok size ∧
      Tag.new name t.aperture size memory cache = .ok (tag, events) ∧
      s = ⟨some tag, some t, []⟩ := by
  obtain ⟨bounds, hbounds, h⟩ := Checked.bind_eq_ok.mp h
  obtain ⟨size, hsize, rfl⟩ := Checked.map_eq_ok.mp hbounds
  obtain ⟨⟨tag, noted⟩, htag, h⟩ := Checked.bind_eq_ok.mp h
  obtain ⟨rfl, rfl⟩ := Prod.mk.inj (Except.ok.inj h)
  exact ⟨size, tag, hsize, htag, rfl⟩

theorem tag_eq_none_of_step {c : Command} {d : Step} (ht : s.tag = none)
    (h : s.step c = .ok d) : d.session.tag = none := by
  obtain ⟨d', hrun, rfl⟩ := step_eq_ok.mp h
  unfold run at hrun
  rw [ht] at hrun
  cases c <;> obtain rfl := Except.ok.inj hrun <;> exact ht

theorem tag_eq_none_of_teardown {d : Step} (h : s.step .teardown = .ok d) :
    d.session.tag = none := by
  cases ht : s.tag with
  | none => exact tag_eq_none_of_step ht h
  | some t =>
    obtain ⟨d', hrun, rfl⟩ := step_eq_ok.mp h
    rw [run_of_tag ht] at hrun
    obtain ⟨events, -, hrun⟩ := Checked.bind_eq_ok.mp hrun
    obtain rfl := Except.ok.inj hrun
    rfl

theorem table_of_act {t : Tag} {m : Mapping} {action : Action} {d : Step}
    (h : s.act t name m action = .ok d) : d.session.table = s.table := by
  cases action with
  | limits =>
    obtain rfl := Except.ok.inj h
    rfl
  | setAlignment alignment =>
    unfold act at h
    cases halign : m.setAlignment alignment with
    | error reason =>
      simp only [halign] at h
      obtain rfl := Except.ok.inj h
      rfl
    | ok m' =>
      simp only [halign] at h
      obtain rfl := Except.ok.inj h
      rfl
  | _ =>
    obtain ⟨_, -, h⟩ := Checked.bind_eq_ok.mp h
    obtain rfl := Except.ok.inj h
    rfl

theorem table_of_runWith {t : Tag} {c : Command} {d : Step} (h : s.runWith t c = .ok d) :
    d.session.table = s.table := by
  cases c with
  | create name limits =>
    unfold runWith at h
    cases hnew : Mapping.new t.memory.host.storage limits with
    | error reason =>
      simp only [hnew] at h
      obtain rfl := Except.ok.inj h
      rfl
    | ok m =>
      simp only [hnew] at h
      obtain rfl := Except.ok.inj h
      rfl
  | act name action =>
    unfold runWith at h
    cases hm : s.mapping? name with
    | none =>
      simp only [hm] at h
      obtain rfl := Except.ok.inj h
      rfl
    | some m =>
      simp only [hm] at h
      exact table_of_act h
  | alloc size alignment boundary =>
    obtain ⟨_, -, h⟩ := Checked.bind_eq_ok.mp h
    obtain rfl := Except.ok.inj h
    rfl
  | teardown =>
    obtain ⟨_, -, h⟩ := Checked.bind_eq_ok.mp h
    obtain rfl := Except.ok.inj h
    rfl
  | _ =>
    obtain rfl := Except.ok.inj h
    rfl

theorem table_of_step {c : Command} {d : Step} (h : s.step c = .ok d) :
    d.session.table = s.table.map fun t => (Event.tableCalls d.events).foldl Table.apply t := by
  obtain ⟨d, hrun, rfl⟩ := step_eq_ok.mp h
  have htable : d.session.table = s.table := by
    unfold run at hrun
    cases ht : s.tag with
    | some t =>
      rw [ht] at hrun
      exact table_of_runWith hrun
    | none =>
      rw [ht] at hrun
      cases c <;> obtain rfl := Except.ok.inj hrun <;> rfl
  exact congrArg (Option.map fun t => (Event.tableCalls d.events).foldl Table.apply t) htable

theorem tableCalls_dropped (s : Session) (name : String) :
    Event.tableCalls (s.dropped name) = [] := by
  unfold dropped
  split
  · rfl
  · unfold Mapping.dropped
    split <;> rfl

theorem mem_mappings {m : Mapping} (h : s.mapping? name = some m) : (name, m) ∈ s.mappings :=
  mem_of_lookup h

/-- The session has at most one mapping of the name, `m?`, and the others as `s` has them. -/
def HasBeside (s' s : Session) (name : String) (m? : Option Mapping) : Prop :=
  s'.mappings = m?.toList.map (name, ·) ++ (s.remove name).mappings

theorem hasBeside_put (s : Session) (name : String) (m : Mapping) :
    (s.put name m).HasBeside s name (some m) := rfl

theorem hasBeside_remove (s : Session) (name : String) :
    (s.remove name).HasBeside s name none := rfl

namespace HasBeside

variable {s' : Session} {m? : Option Mapping}

theorem mapping?_self (h : s'.HasBeside s name m?) : s'.mapping? name = m? := by
  unfold mapping?
  rw [h]
  cases m? with
  | none =>
    refine List.lookup_eq_none_iff.mpr fun x hx => ?_
    have hne : x.1 ≠ name := of_decide_eq_true (List.mem_filter.mp hx).2
    exact bne_iff_ne.mpr hne.symm
  | some m => exact List.lookup_cons_self

theorem mapping?_of_ne (h : s'.HasBeside s name m?) (hne : other ≠ name) :
    s'.mapping? other = s.mapping? other := by
  unfold mapping?
  rw [h]
  cases m? with
  | none => exact lookup_filter_ne hne
  | some m =>
    refine Eq.trans ?_ (lookup_filter_ne hne)
    show ((name, m) :: (s.remove name).mappings).lookup other = _
    rw [List.lookup_cons, beq_false_of_ne hne]
    rfl

theorem nodup (h : s'.HasBeside s name m?) (hs : (s.mappings.map (·.1)).Nodup) :
    (s'.mappings.map (·.1)).Nodup := by
  have hrest : ((s.remove name).mappings.map (·.1)).Nodup :=
    hs.sublist (List.filter_sublist.map _)
  rw [h]
  cases m? with
  | none => exact hrest
  | some m =>
    refine List.nodup_cons.mpr ⟨?_, hrest⟩
    intro hin
    obtain ⟨x, hx, he⟩ := List.mem_map.mp hin
    exact of_decide_eq_true (List.mem_filter.mp hx).2 he

theorem forall_mem_beside (h : s'.HasBeside s name m?) {P : Mapping → Prop}
    (hs : ∀ x ∈ (s.remove name).mappings, P x.2) (hm : ∀ m, m? = some m → P m) :
    ∀ x ∈ s'.mappings, P x.2 := by
  intro x hx
  rw [h] at hx
  cases List.mem_append.mp hx with
  | inl hnew =>
    obtain ⟨m, hmem, rfl⟩ := List.mem_map.mp hnew
    exact hm m (Option.mem_toList.mp hmem)
  | inr hold => exact hs x hold

theorem forall_mem (h : s'.HasBeside s name m?) {P : Mapping → Prop}
    (hs : ∀ x ∈ s.mappings, P x.2) (hm : ∀ m, m? = some m → P m) : ∀ x ∈ s'.mappings, P x.2 :=
  h.forall_mem_beside (fun x hx => hs x (List.mem_of_mem_filter hx)) hm

end HasBeside

end Session

end Aperture
