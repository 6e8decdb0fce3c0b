import Aperture.Frames.Basic

namespace Aperture

namespace Run

def pageNos (runs : List (Run .phys)) : List FrameNo :=
  (runs.filter fun r => !r.isEmpty).map (·.addr.pageNo)

/-- The distinct frames that some runs touch, in the order of first touch. -/
def frames (runs : List (Run .phys)) : List FrameNo := (pageNos runs).eraseDups

end Run

namespace FrameSet

def toList (s : FrameSet) : List FrameSlot := s.slots.toList

def frames (s : FrameSet) : List FrameNo := s.toList.map (·.frame)

/-- The tree finds the slot of each frame and nothing else, and there is room for all slots. -/
structure WellFormed (s : FrameSet) : Prop where
  slotOf_eq_some_iff : ∀ (frame : FrameNo) i,
    s.slotOf[frame.word]? = some i ↔ s.toList[i]?.map (·.frame) = some frame
  size_le : s.size ≤ s.capacity

theorem wellFormed_ofCapacity (capacity : Nat) : (ofCapacity capacity).WellFormed := by
  constructor <;> simp [ofCapacity, toList, size]

theorem toList_add (s : FrameSet) (frame : FrameNo) :
    (s.add frame).toList = s.toList ++ [⟨frame, none⟩] := by
  simp [add, toList]

theorem size_eq (s : FrameSet) : s.size = s.frames.length := by
  simp [size, frames, toList]

theorem frames_add (s : FrameSet) (f : FrameNo) : (s.add f).frames = s.frames ++ [f] := by
  simp [frames, toList_add]

theorem WellFormed.add {s : FrameSet} (h : s.WellFormed) {frame : FrameNo}
    (hnew : frame ∉ s.toList.map (·.frame)) (hroom : s.size < s.capacity) :
    (s.add frame).WellFormed := by
  have hsize : s.size = s.toList.length := by simp [size, toList]
  refine ⟨fun other i => ?_, by simpa [FrameSet.add, size] using Nat.succ_le_of_lt hroom⟩
  rw [toList_add]
  have hslot : (s.add frame).slotOf[other.word]? =
      if frame = other then some s.toList.length else s.slotOf[other.word]? := by
    have hword : frame.word = other.word ↔ frame = other :=
      ⟨fun e => congrArg PageNo.mk e, congrArg PageNo.word⟩
    simp only [FrameSet.add, Std.TreeMap.getElem?_insert, Std.compare_eq_iff_eq, hsize, hword]
  rw [hslot]
  by_cases he : frame = other
  · subst he
    simp only [if_true, Option.some.injEq]
    constructor
    · rintro rfl
      simp
    · intro hi
      rw [← List.getElem?_map, List.map_append] at hi
      rcases Nat.lt_or_ge i s.toList.length with hlt | hge
      · rw [List.getElem?_append_left (by simpa using hlt)] at hi
        exact absurd (List.mem_of_getElem? hi) hnew
      · rw [List.getElem?_append_right (by simpa using hge)] at hi
        have hi := (List.getElem?_eq_some_iff.mp hi).1
        simp only [List.length_map, List.length_singleton] at hi
        omega
  · rw [if_neg he, h.slotOf_eq_some_iff]
    rcases Nat.lt_or_ge i s.toList.length with hlt | hge
    · rw [List.getElem?_append_left hlt]
    · rw [List.getElem?_eq_none hge, List.getElem?_append_right hge]
      cases i - s.toList.length <;> simp [he]

end FrameSet

end Aperture
