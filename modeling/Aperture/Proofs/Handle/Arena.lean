import Aperture.Handle.Load
import Aperture.Proofs.Frames.Answers
import Aperture.Proofs.Gather.Append

namespace Aperture

theorem FrameSet.capacity_insert {s s' : FrameSet} {x : PhysAddr} (h : s.insert x = .ok s') :
    s'.capacity = s.capacity := by
  unfold FrameSet.insert at h
  split at h
  · obtain rfl := Except.ok.inj h
    rfl
  · split at h
    · cases h
    · obtain rfl := Except.ok.inj h
      rfl

theorem FrameSet.WellFormed.of_assign {s s' : FrameSet} (h : s.WellFormed) {page : PageNo .bus}
    (hassign : s.assign page = .ok s') : s'.WellFormed ∧ s'.capacity = s.capacity := by
  obtain ⟨slots, hslots, hassign⟩ := Checked.bind_eq_ok.mp hassign
  obtain rfl := Except.ok.inj hassign
  exact ⟨h.congr rfl rfl (map_frame_assignFrom hslots), rfl⟩

namespace Arena

variable {a : Arena} {s : FrameSet} {n : Nat}

/-- There is room for that many frames. -/
structure HasRoom (a : Arena) (n : Nat) : Prop where
  slots : a.slots.size = n
  order : a.order.size = n

theorem HasRoom.holds_clear (h : a.HasRoom n) : a.clear.Holds (.ofCapacity n) := by
  have hclear := Arena.holds_clear (h.order.trans h.slots.symm)
  rw [h.slots] at hclear
  exact hclear

theorem HasRoom.clear (h : a.HasRoom n) : a.clear.HasRoom n := ⟨h.slots, h.order⟩

theorem Holds.hasRoom (h : a.Holds s) : a.HasRoom s.capacity :=
  ⟨h.capacity, h.order_size.trans h.capacity⟩

/-- What filling an arena comes to where a set comes to that. -/
inductive RecordedAs (capacity : Nat) : Arena × Option Declined → Except Declined FrameSet → Prop
  | recorded {a : Arena} {s : FrameSet} (h : a.Holds s) (hs : s.WellFormed)
      (hcapacity : s.capacity = capacity) : RecordedAs capacity (a, none) (.ok s)
  /-- A record that is full stays as full as it is. -/
  | full {a : Arena} (d : Declined) (h : a.HasRoom capacity) :
      RecordedAs capacity (a, some d) (.error d)

namespace Holds

variable (h : a.Holds s)

include h

theorem recordRuns_agrees (hs : s.WellFormed) (runs : List (Run .phys)) :
    Checked.Agree (RecordedAs s.capacity) (a.recordRuns runs) (s.record runs) := by
  induction runs generalizing a s with
  | nil => exact .ok (.recorded h hs rfl)
  | cons r rest ih =>
    rw [recordRuns, FrameSet.record]
    cases r.isEmpty with
    | true => exact ih h hs
    | false =>
      refine .bind_same _ fun reach _ => ?_
      by_cases hlong : pageSize < reach.toNat
      · simp only [if_pos hlong]
        exact .error _
      simp only [if_neg hlong]
      cases hinsert : s.insert r.addr with
      | error reason =>
        rw [h.insert_error hs hinsert, h.capacity]
        exact .ok (.full _ h.hasRoom)
      | ok grown =>
        obtain ⟨a', ha', hholds, hwell⟩ := h.insert hs hinsert
        rw [ha', ← FrameSet.capacity_insert hinsert]
        exact ih hholds hwell

theorem bindCalls_eq (traits : Traits) : a.bindCalls traits = s.bindCalls traits := by
  rw [bindCalls, FrameSet.bindCalls, bound, FrameSet.bound, h.pages_eq]

theorem unbindCalls_eq : a.unbindCalls = s.unbindCalls := by
  rw [unbindCalls, FrameSet.unbindCalls, bound, FrameSet.bound, h.pages_eq]

theorem assign_agrees (hs : s.WellFormed) (page : PageNo .bus) :
    Checked.Agree (fun a' s' => a'.Holds s' ∧ s'.WellFormed ∧ s'.capacity = s.capacity)
      (a.assign page) (s.assign page) := by
  cases hassign : s.assign page with
  | ok assigned =>
    obtain ⟨a', ha', hholds⟩ := h.assign hassign
    rw [ha']
    exact .ok ⟨hholds, hs.of_assign hassign⟩
  | error f =>
    rw [h.assign_error hassign]
    exact .error f

end Holds

end Arena

namespace GatherList

/-- What gathering in an arena comes to where a set comes to that. -/
inductive GatheredAs (rules : SegmentRules) :
    GatherList × Option Declined → Except Declined GatherList → Prop
  | whole {g : GatherList} (hrules : g.rules = rules) : GatheredAs rules (g, none) (.ok g)
  | cut {g : GatherList} (d : Declined) (hrules : g.rules = rules) :
      GatheredAs rules (g, some d) (.error d)

theorem gather_agrees {a : Arena} {s : FrameSet} (h : a.Holds s) (hs : s.WellFormed)
    (g : GatherList) (runs : List (Run .phys)) :
    Checked.Agree (GatheredAs g.rules) (g.gather a runs) (g.appendRuns s runs) := by
  induction runs generalizing g with
  | nil => exact .ok (.whole rfl)
  | cons r rest ih =>
    rw [gather, appendRuns, h.busAddr?_eq hs]
    cases r.isEmpty with
    | true => exact ih g
    | false =>
      refine .bind_same _ fun bus? _ => ?_
      cases bus? with
      | none => exact .ok (.cut _ rfl)
      | some bus =>
        dsimp only
        cases happend : g.append ⟨bus, r.length⟩ with
        | error f => exact .error f
        | ok appended =>
          have hrules := (appends_of_appendFrom happend).rules_eq
          obtain ⟨grown, reason?⟩ := appended
          cases reason? with
          | some reason => exact .ok (.cut _ hrules)
          | none =>
            rw [← hrules]
            exact ih grown

end GatherList

end Aperture
