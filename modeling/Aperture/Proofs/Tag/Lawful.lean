import Aperture.Proofs.Tag.Load

namespace Aperture

/-- Alignment and boundary are powers of two, if they are not zero. -/
structure Recorded.WellFormed (r : Recorded) : Prop where
  alignment : r.alignment.IsBoundary
  boundary : r.boundary.IsBoundary

namespace Mapping

/-- As many frames can be recorded as the largest payload asks for, whose runs take up no more
memory than has addresses. -/
structure IsSized (m : Mapping) : Prop where
  capacity : m.frames.capacity = FrameSet.capacityFor m.limits.maxSize
  storage : (m.limits.maxSize.toNat + (pageSize - 1)) / pageSize + 1 ≤ 2 ^ 44

/-- The limits are well-formed, the segments keep them, and the addresses of as many pages as can be
recorded are words. -/
structure IsMade (m : Mapping) : Prop where
  limits : m.limits.WellFormed
  alignment : m.alignment.IsPowerOfTwo
  capacity : m.frames.capacity * pageSize < 2 ^ 64
  maxCount : m.segments.rules.maxCount = m.limits.maxSegments
  maxLength : m.segments.rules.maxLength = m.limits.maxLength

variable {m m' : Mapping}

variable {storage : Storage}

theorem isSized_new {l : Limits} (h : Mapping.new storage l = .ok m) : m.IsSized := by
  unfold Mapping.new at h
  obtain ⟨_, -, h⟩ := Checked.bind_eq_ok.mp h
  obtain ⟨_, hstorage, h⟩ := Checked.bind_eq_ok.mp h
  obtain ⟨segments, -, h⟩ := Checked.bind_eq_ok.mp h
  obtain rfl := Except.ok.inj h
  have hroom := Storage.ask_eq_ok_iff.mp hstorage
  have hbounded := storage.bounded
  exact ⟨rfl, by dsimp only; omega⟩

theorem Alike.isSized (h : m.Alike m') (hm : m.IsSized) : m'.IsSized := by
  refine ⟨?_, ?_⟩
  · rw [h.frames, h.limits]
    exact hm.capacity
  · rw [h.limits]
    exact hm.storage

theorem IsSized.capacity_lt (h : m.IsSized) : m.frames.capacity * pageSize < 2 ^ 64 := by
  have hroom := h.storage
  rw [h.capacity]
  unfold FrameSet.capacityFor FrameSet.slack FrameSet.minCapacity
  unfold pageSize at *
  omega

theorem isMade_new {l : Limits} (h : Mapping.new storage l = .ok m) : m.IsMade := by
  have hcapacity := (isSized_new h).capacity_lt
  unfold Mapping.new at h
  obtain ⟨_, hvalid, h⟩ := Checked.bind_eq_ok.mp h
  obtain ⟨_, -, h⟩ := Checked.bind_eq_ok.mp h
  obtain ⟨segments, hsegments, h⟩ := Checked.bind_eq_ok.mp h
  obtain rfl := Except.ok.inj h
  have hlimits : l.WellFormed := by
    unfold Limits.validate at hvalid
    split at hvalid
    · assumption
    · cases hvalid
  have hrules : segments.rules.maxCount = l.maxSegments ∧
      segments.rules.maxLength = l.maxLength := by
    obtain ⟨rules, hrules, hcount, hlength, -⟩ := GatherList.new_eq_ok hsegments
    rw [hrules]
    exact ⟨hcount, hlength⟩
  exact ⟨hlimits, Addr.isPowerOfTwo_page, hcapacity, hrules.1, hrules.2⟩

theorem IsMade.withLoaded (h : m.IsMade) (l? : Option Loaded) :
    IsMade { m with loaded := l? } := ⟨h.limits, h.alignment, h.capacity, h.maxCount, h.maxLength⟩

theorem IsMade.setAlignment (h : m.IsMade) {alignment : Word}
    (halign : m.setAlignment alignment = .ok m') : m'.IsMade := by
  unfold Mapping.setAlignment at halign
  split at halign
  · cases halign
  · next hpow =>
    split at halign
    · obtain rfl := Except.ok.inj halign
      exact h
    · obtain rfl := Except.ok.inj halign
      exact ⟨h.limits, not_not.mp hpow, h.capacity, h.maxCount, h.maxLength⟩

end Mapping

namespace Tag

variable {t t' : Tag} {m m' : Mapping}

structure Alike (t t' : Tag) : Prop where
  name : t'.name = t.name
  memory : t'.memory = t.memory
  cache : t'.cache = t.cache
  recorded : t'.recorded = t.recorded

theorem Alike.refl (t : Tag) : t.Alike t := ⟨rfl, rfl, rfl, rfl⟩

theorem alike_unmap {frames : FrameSet} {block : Block} {events : List Event}
    (h : t.unmap frames block = .ok (t', events)) : t.Alike t' := by
  unfold unmap at h
  obtain ⟨calls, -, h⟩ := Checked.bind_eq_ok.mp h
  split at h
  · obtain ⟨rfl, -⟩ := by simpa using Except.ok.inj h
    exact ⟨rfl, rfl, rfl, rfl⟩
  · obtain ⟨rfl, -⟩ := by simpa using Except.ok.inj h
    exact .refl t

section Load

variable {p : Payload} {o : Outcome}

theorem alike_declined (t : Tag) (m : Mapping) (d : Declined) :
    t.Alike (t.declined m d).tag ∧
      ∃ l?, (t.declined m d).mapping = { m with loaded := l? } := ⟨.refl t, m.loaded, rfl⟩

theorem alike_bindRuns {length : Word} {runs : List (Run .phys)} {frames : FrameSet} {b : Block}
    (h : bindRuns t m p length runs frames b = .ok o) :
    t.Alike o.tag ∧ ∃ l?, o.mapping = { m with loaded := l? } := by
  unfold bindRuns at h
  obtain ⟨assigned, -, h⟩ := Checked.bind_eq_ok.mp h
  obtain ⟨calls, -, h⟩ := Checked.bind_eq_ok.mp h
  obtain ⟨segments, -, h⟩ := Checked.bind_eq_ok.mp h
  obtain ⟨gathered, -, h⟩ := Checked.bind_eq_ok.mp h
  cases gathered with
  | error d =>
    obtain ⟨⟨undone, unbinds⟩, hunmap, h⟩ := Checked.bind_eq_ok.mp h
    obtain rfl := Except.ok.inj h
    exact ⟨alike_unmap hunmap, m.loaded, rfl⟩
  | ok gathered =>
    obtain rfl := Except.ok.inj h
    exact ⟨.refl t, _, rfl⟩

theorem alike_mapRuns {length : Word} {runs : List (Run .phys)}
    (h : t.mapRuns m p length runs = .ok o) :
    t.Alike o.tag ∧ ∃ l?, o.mapping = { m with loaded := l? } := by
  unfold mapRuns at h
  obtain ⟨recorded, -, h⟩ := Checked.bind_eq_ok.mp h
  cases recorded with
  | error d =>
    obtain rfl := Except.ok.inj h
    exact alike_declined t m _
  | ok frames =>
    obtain ⟨size, -, h⟩ := Checked.bind_eq_ok.mp h
    obtain ⟨reserved, -, h⟩ := Checked.bind_eq_ok.mp h
    cases reserved with
    | error reason =>
      obtain rfl := Except.ok.inj h
      exact alike_declined t m _
    | ok found =>
      obtain ⟨block, pool⟩ := found
      obtain ⟨halike, hmapping⟩ := alike_bindRuns (t := { t with pool := pool }) h
      exact ⟨⟨halike.name, halike.memory, halike.cache, halike.recorded⟩, hmapping⟩

theorem alike_load (h : t.load m p = .ok o) :
    t.Alike o.tag ∧ ∃ l?, o.mapping = { m with loaded := l? } := by
  rcases load_cases h with ⟨d, rfl, -⟩ | ⟨length, -, -, -, h⟩
  · exact alike_declined t m d
  · exact alike_mapRuns h

end Load

theorem alike_unload {events : List Event} (h : t.unload m = .ok (t', m', events)) :
    t.Alike t' ∧ ∃ l?, m' = { m with loaded := l? } := by
  unfold unload at h
  split at h
  · obtain ⟨rfl, rfl, -⟩ := by simpa using Except.ok.inj h
    exact ⟨.refl t, _, rfl⟩
  · obtain ⟨⟨tag, calls⟩, hunmap, h⟩ := Checked.bind_eq_ok.mp h
    obtain ⟨rfl, rfl, -⟩ := by simpa using Except.ok.inj h
    exact ⟨alike_unmap hunmap, none, rfl⟩

theorem alike_destroy {events : List Event} (h : t.destroy m = .ok (t', events)) :
    t.Alike t' := by
  unfold destroy at h
  split at h
  · obtain ⟨⟨tag, mapping, calls⟩, hunload, h⟩ := Checked.bind_eq_ok.mp h
    obtain ⟨rfl, -⟩ := by simpa using Except.ok.inj h
    exact (alike_unload hunload).1
  · obtain ⟨rfl, -⟩ := by simpa using Except.ok.inj h
    exact .refl t

theorem recorded_alloc {size alignment boundary : Word} {result : Except Refusal (Run .phys)}
    {events : List Event} (h : t.alloc size alignment boundary = .ok (t', result, events)) :
    t'.recorded = if alignment.IsBoundary ∧ boundary.IsBoundary then ⟨alignment, boundary⟩
      else t.recorded := by
  unfold alloc at h
  by_cases haccepted : alignment.IsBoundary ∧ boundary.IsBoundary
  · rw [if_pos haccepted] at h ⊢
    obtain ⟨allocated, -, h⟩ := Checked.bind_eq_ok.mp h
    cases allocated with
    | error d =>
      obtain ⟨rfl, -, -⟩ := by simpa using Except.ok.inj h
      rfl
    | ok found =>
      obtain ⟨rfl, -, -⟩ := by simpa using Except.ok.inj h
      rfl
  · rw [if_neg haccepted] at h ⊢
    obtain ⟨rfl, -, -⟩ := by simpa using Except.ok.inj h
    rfl

theorem recorded_free (t : Tag) (r : Run .phys) : (t.free r).1.recorded = t.recorded := by
  unfold free
  split <;> rfl

end Tag

end Aperture
