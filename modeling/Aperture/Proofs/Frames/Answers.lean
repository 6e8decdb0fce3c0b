import Aperture.Proofs.Frames.Roll

namespace Aperture

namespace Arena

theorem holds_ofCapacity (capacity : Nat) :
    (ofCapacity capacity).Holds (.ofCapacity capacity) := by
  have hsizes : (ofCapacity capacity).order.size = (ofCapacity capacity).slots.size := by
    rw [ofCapacity, Array.size_replicate, Array.size_replicate]
  have hcapacity : (ofCapacity capacity).slots.size = capacity := Array.size_replicate
  have hclear := holds_clear hsizes
  rw [hcapacity] at hclear
  exact hclear

namespace Holds

variable {a : Arena} {s s' : FrameSet}

theorem insert_error (h : a.Holds s) (hs : s.WellFormed) {x : PhysAddr} {why : Refusal}
    (hx : s.insert x = .error why) : a.insert x.pageNo = .error why := by
  unfold Arena.insert
  rcases hs.insert_cases x with ⟨-, heq⟩ | ⟨hnew, hfull, heq⟩ | ⟨-, -, heq⟩
  · rw [heq] at hx
    cases hx
  · obtain rfl := Except.error.inj (heq.symm.trans hx)
    rw [h.size_eq, ← h.capacity] at hfull
    have hfree : ¬ a.contains x.pageNo := fun hin => hnew (h.contains_iff.mp hin)
    rw [if_neg hfree, if_pos hfull]
  · rw [heq] at hx
    cases hx

theorem assign_error (h : a.Holds s) {page : PageNo .bus} {e : Fault}
    (hassign : s.assign page = .error e) : a.assign page = .error e := by
  rw [Arena.assign, h.live, FrameSet.toList]
  rw [FrameSet.assign] at hassign
  cases hslots : FrameSet.assignFrom page 0 s.slots.toList with
  | error e' =>
    rw [hslots] at hassign
    exact congrArg Except.error (Except.error.inj hassign)
  | ok slots =>
    rw [hslots] at hassign
    cases hassign

theorem clear (h : a.Holds s) : a.clear.Holds s.clear := by
  rw [FrameSet.clear, ← h.capacity]
  exact holds_clear h.order_size

theorem busAddr?_eq (h : a.Holds s) (hs : s.WellFormed) (x : PhysAddr) :
    a.busAddr? x = s.busAddr? x := by
  rw [Arena.busAddr?, h.find?_eq hs]
  rfl

theorem pages_eq (h : a.Holds s) : a.pages = s.pages := by
  rw [Arena.pages, h.live]
  rfl

theorem contains_eq (h : a.Holds s) (hs : s.WellFormed) (x : PhysAddr) :
    a.contains x.pageNo = s.contains x :=
  Bool.eq_iff_iff.mpr (h.contains_iff.trans hs.contains_iff.symm)

end Holds

/-- The same answer, with the arena that comes of the call holding the set that does, or the same
fault. -/
inductive SameOutcome : Checked (FrameAnswer × FrameSet) → Checked (FrameAnswer × Arena) → Prop where
  | answered (answer : FrameAnswer) {a : Arena} {s : FrameSet} (h : a.Holds s) :
      SameOutcome (.ok (answer, s)) (.ok (answer, a))
  | faulted (e : Fault) : SameOutcome (.error e) (.error e)

namespace Holds

variable {a : Arena} {s : FrameSet} (h : a.Holds s)

include h

/-- What is read off alike and changes nothing has the same outcome. -/
theorem sameOutcome_query {α : Type} (x : Checked α) (answer : α → FrameAnswer) :
    SameOutcome (do return (answer (← x), s)) (do return (answer (← x), a)) := by
  cases x with
  | ok value => exact .answered (answer value) h
  | error e => exact .faulted e

theorem sameOutcome (hs : s.WellFormed) (c : FrameCall) :
    SameOutcome (s.carryOut c) (a.carryOut c) := by
  cases c with
  | insert x =>
    rw [FrameSet.carryOut, Arena.carryOut]
    cases hx : s.insert x with
    | ok grown =>
      obtain ⟨a', ha', hgrown, -⟩ := h.insert hs hx
      rw [ha']
      exact .answered .done hgrown
    | error why =>
      rw [h.insert_error hs hx]
      exact .answered (.refused why) h
  | assign page =>
    rw [FrameSet.carryOut, Arena.carryOut]
    cases hassign : s.assign page with
    | ok assigned =>
      obtain ⟨a', ha', hassigned⟩ := h.assign hassign
      rw [ha']
      exact .answered .done hassigned
    | error e =>
      rw [h.assign_error hassign]
      exact .faulted e
  | clear => exact .answered .done h.clear
  | contains x =>
    rw [FrameSet.carryOut, Arena.carryOut, h.contains_eq hs]
    exact .answered _ h
  | translate x =>
    rw [FrameSet.carryOut, Arena.carryOut, h.busAddr?_eq hs]
    exact h.sameOutcome_query _ _
  | pages =>
    rw [FrameSet.carryOut, Arena.carryOut, h.pages_eq]
    exact h.sameOutcome_query _ _

end Holds

/-- The arena holds a set that follows the roll. -/
def Follows (a : Arena) (r : Roll) : Prop :=
  ∃ s : FrameSet, a.Holds s ∧ s.Follows r

theorem Follows.directs {a : Arena} {r : Roll} (h : a.Follows r) (c : FrameCall) :
    r.Directs Follows c (a.carryOut c) := by
  obtain ⟨s, hholds, hs⟩ := h
  have hsame := hholds.sameOutcome hs.wellFormed c
  rcases hs.directs c with ⟨hin, s', hcarried, hnext⟩ | ⟨hout, e, hfault⟩
  · rw [hcarried] at hsame
    generalize a.carryOut c = outcome at hsame
    cases hsame with
    | answered _ hholds' => exact .inl ⟨hin, _, rfl, s', hholds', hnext⟩
  · rw [hfault] at hsame
    generalize a.carryOut c = outcome at hsame
    cases hsame with
    | faulted => exact .inr ⟨hout, e, rfl⟩

end Arena

namespace Roll

/-- Whatever follows a roll answers any calls in range as the roll does, and no others. -/
theorem answers_eq_ok_iff {σ : Type} {carryOut : σ → FrameCall → Checked (FrameAnswer × σ)}
    {Follows : σ → Roll → Prop}
    (hstep : ∀ {s r}, Follows s r → ∀ c, r.Directs Follows c (carryOut s c)) {s : σ} {r : Roll}
    (h : Follows s r) {cs : List FrameCall} {answers : List FrameAnswer} :
    FrameCall.answers carryOut s cs = .ok answers ↔ r.AllInRange cs ∧ answers = r.answers cs := by
  induction cs generalizing s r answers with
  | nil =>
    rw [FrameCall.answers, AllInRange, Roll.answers, true_and, Except.ok.injEq]
    exact eq_comm
  | cons c cs ih =>
    rw [FrameCall.answers, AllInRange, Roll.answers]
    rcases hstep h c with ⟨hin, s', hcarried, hnext⟩ | ⟨hout, e, hfault⟩
    · rw [hcarried, Checked.ok_bind, Checked.bind_eq_ok]
      simp only [ih hnext, Checked.pure_eq, Except.ok.injEq]
      constructor
      · intro h
        obtain ⟨rest, ⟨hrest, rfl⟩, rfl⟩ := h
        exact ⟨⟨hin, hrest⟩, rfl⟩
      · intro h
        obtain ⟨⟨-, hrest⟩, rfl⟩ := h
        exact ⟨_, ⟨hrest, rfl⟩, rfl⟩
    · rw [hfault]
      constructor
      · intro h
        cases h
      · intro h
        exact absurd h.1.1 hout

/-- A set and an arena that are new give the answers of a new roll to any calls that stay in the
range of words, whatever is asked in whichever order, and to no others. -/
theorem answers_agree (capacity : Nat) (cs : List FrameCall) (answers : List FrameAnswer) :
    ((FrameSet.ofCapacity capacity).answers cs = .ok answers ↔
      (ofCapacity capacity).AllInRange cs ∧ answers = (ofCapacity capacity).answers cs) ∧
    ((Arena.ofCapacity capacity).answers cs = .ok answers ↔
      (ofCapacity capacity).AllInRange cs ∧ answers = (ofCapacity capacity).answers cs) := by
  have hset := FrameSet.follows_ofCapacity capacity
  have harena : (Arena.ofCapacity capacity).Follows (ofCapacity capacity) :=
    ⟨_, Arena.holds_ofCapacity capacity, hset⟩
  exact ⟨answers_eq_ok_iff FrameSet.Follows.directs hset,
    answers_eq_ok_iff Arena.Follows.directs harena⟩

/-- A frame that comes after an assignment has no page until the next one, and a frame that is
refused is not there. -/
example : ((Arena.ofCapacity 2).answers [.insert ⟨0x7080⟩, .assign ⟨0x10⟩, .insert ⟨0x3000⟩,
      .insert ⟨0x7fff⟩, .insert ⟨0x5000⟩, .contains ⟨0x5000⟩, .translate ⟨0x3004⟩, .pages,
      .assign ⟨0x20⟩, .translate ⟨0x3004⟩, .clear, .translate ⟨0x3004⟩]).toOption =
    some [.done, .done, .done, .done, .refused .tooManyFrames, .held false, .translated none,
      .pages [(0x7000, some 0x10000), (0x3000, none)], .done, .translated (some 0x21004), .done,
      .translated none] := by
  decide +kernel

end Roll

end Aperture
