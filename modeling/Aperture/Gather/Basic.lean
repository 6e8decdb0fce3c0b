import Aperture.Frames.Basic

namespace Aperture

structure SegmentRules where
  maxCount : Word
  maxLength : Word
  /-- No segment crosses a multiple of this, unless it is zero. -/
  boundary : Word
  maxCount_pos : 0 < maxCount.toNat
  maxLength_pos : 0 < maxLength.toNat
  isBoundary : boundary.IsBoundary

namespace SegmentRules

/-- How many bytes from `a` on lie in its boundary block; without an end in sight, as many as a
word can hold. -/
def room (rules : SegmentRules) (a : BusAddr) : Nat :=
  if rules.boundary = 0 then 0xffffffffffffffff
  else match a.word.nextBlock? rules.boundary with
    | some next => next.toNat - a.word.toNat
    | none => 0xffffffffffffffff

theorem room_pos (rules : SegmentRules) (a : BusAddr) : 0 < rules.room a := by
  unfold room
  split
  · omega
  · split
    · next h =>
      have := Word.toNat_lt_of_nextBlock? h
      omega
    · omega

def sameBlock (rules : SegmentRules) (a b : BusAddr) : Bool :=
  rules.boundary == 0 ||
    a.word.toNat / rules.boundary.toNat == b.word.toNat / rules.boundary.toNat

end SegmentRules

structure GatherList where
  rules : SegmentRules
  /-- The segments, the last one first. -/
  newestFirst : List (Run .bus)
  count : Nat
  count_eq : count = newestFirst.length

namespace GatherList

/-- The rules and the segments are all there is to a list. -/
theorem eq_of_newestFirst {g h : GatherList} (hrules : g.rules = h.rules)
    (hsegments : g.newestFirst = h.newestFirst) : g = h := by
  obtain ⟨rules, segments, count, rfl⟩ := g
  obtain ⟨_, _, _, rfl⟩ := h
  simp_all

def empty (rules : SegmentRules) : GatherList := ⟨rules, [], 0, rfl⟩

def new (storage : Storage) (maxCount maxLength boundary : Word) : Except Refusal GatherList :=
  if h : 0 < maxCount.toNat ∧ 0 < maxLength.toNat ∧ boundary.IsBoundary then do
    storage.ask maxCount.toNat
    return .empty ⟨maxCount, maxLength, boundary, h.1, h.2.1, h.2.2⟩
  else .error .invalid

/-- A new list is empty, with the limits that it was asked for. -/
theorem new_eq_ok {storage : Storage} {maxCount maxLength boundary : Word} {g : GatherList}
    (h : new storage maxCount maxLength boundary = .ok g) :
    ∃ rules, g = empty rules ∧ rules.maxCount = maxCount ∧ rules.maxLength = maxLength ∧
      rules.boundary = boundary := by
  unfold new at h
  split at h
  · obtain ⟨-, -, h⟩ := Checked.bind_eq_ok.mp h
    exact ⟨_, (Except.ok.inj h).symm, rfl, rfl, rfl⟩
  · cases h

def segments (g : GatherList) : List (Run .bus) := g.newestFirst.reverse

def clear (g : GatherList) : GatherList := .empty g.rules

def push (g : GatherList) (r : Run .bus) : GatherList :=
  ⟨g.rules, r :: g.newestFirst, g.count + 1, congrArg (· + 1) g.count_eq⟩

def reset (g : GatherList) (boundary : Word) : Checked GatherList :=
  if h : boundary.IsBoundary then
    .ok (.empty { g.rules with boundary := boundary, isBoundary := h })
  else .error .boundary

def total (g : GatherList) : Checked Word :=
  Word.total (g.segments.map (·.length))

/-- The list with its last segment grown by `part` bytes, if they continue that segment at `a` and
the merged segment keeps the rules. -/
def extend? (g : GatherList) (a : BusAddr) (part : Nat) : Checked (Option GatherList) :=
  match h : g.newestFirst with
  | [] => .ok none
  | last :: older => do
    let stop ← last.stop
    let merged := last.length.toNat + part
    if stop = a ∧ g.rules.sameBlock last.addr a ∧ merged ≤ g.rules.maxLength.toNat then
      let grown : Run .bus := { last with length := .ofNat 64 merged }
      return some ⟨g.rules, grown :: older, g.count, by rw [g.count_eq, h]; rfl⟩
    else return none

/-- Appends `remaining` bytes from `a` on. When the segments run out, those appended before stay. -/
def appendFrom (g : GatherList) (a : BusAddr) (remaining : Nat) :
    Checked (GatherList × Option Refusal) :=
  if remaining = 0 then .ok (g, none)
  else do
    let piece := min remaining (g.rules.room a)
    match ← g.extend? a piece with
    | some grown =>
      let next ← a.plus piece
      grown.appendFrom next (remaining - piece)
    | none =>
      if g.rules.maxCount.toNat ≤ g.count then return (g, some .tooManySegments)
      let part := min piece g.rules.maxLength.toNat
      let next ← a.plus part
      (g.push ⟨a, .ofNat 64 part⟩).appendFrom next (remaining - part)
termination_by remaining
decreasing_by
  all_goals
    have := g.rules.room_pos a
    have := g.rules.maxLength_pos
    omega

def append (g : GatherList) (r : Run .bus) : Checked (GatherList × Option Refusal) :=
  g.appendFrom r.addr r.length.toNat

/-- Appends the bus ranges of all runs that are not empty, or tells why that cannot be done. -/
def appendRuns (g : GatherList) (frames : FrameSet) :
    List (Run .phys) → Checked (Except Declined GatherList)
  | [] => .ok (.ok g)
  | r :: rest =>
    if r.isEmpty then g.appendRuns frames rest
    else do
      match ← frames.busAddr? r.addr with
      | none => return .error ⟨.invalid, some (.neverBound r.addr)⟩
      | some bus =>
        match ← g.append ⟨bus, r.length⟩ with
        | (_, some reason) => return .error ⟨reason, none⟩
        | (grown, none) => grown.appendRuns frames rest

end GatherList

end Aperture
