import Aperture.Frames.History
import Mathlib.Algebra.Ring.Nat

namespace Aperture

structure Roll where
  capacity : Nat
  /-- The numbers of the frames and of their pages. -/
  entries : List (Nat × Option Nat)
  distinct : (entries.map (·.1)).Nodup
  length_le : entries.length ≤ capacity

namespace Roll

def ofCapacity (capacity : Nat) : Roll := ⟨capacity, [], .nil, Nat.zero_le _⟩

def frames (r : Roll) : List Nat := r.entries.map (·.1)

/-- The page that a frame was given since it was inserted. -/
def page? (r : Roll) (frame : Nat) : Option Nat :=
  (r.entries.find? fun e => e.1 == frame).bind (·.2)

theorem distinct_append {entries : List (Nat × Option Nat)} {frame : Nat}
    (h : (entries.map Prod.fst).Nodup) (hnew : frame ∉ entries.map Prod.fst) :
    ((entries ++ [(frame, none)]).map Prod.fst).Nodup := by
  rw [List.map_append, List.nodup_append]
  refine ⟨h, by simp, fun f hf g hg => ?_⟩
  obtain rfl := List.mem_singleton.mp hg
  exact fun he => hnew (he ▸ hf)

def insert (r : Roll) (frame : Nat) : Except Refusal Roll :=
  if hnew : frame ∈ r.frames then .ok r
  else if hfull : r.entries.length = r.capacity then .error .tooManyFrames
  else .ok {
    capacity := r.capacity
    entries := r.entries ++ [(frame, none)]
    distinct := distinct_append r.distinct hnew
    length_le := by
      have := r.length_le
      rw [List.length_append, List.length_singleton]
      omega }

theorem map_fst_assigned (entries : List (Nat × Option Nat)) (page : Nat) :
    (entries.mapIdx fun k e => (e.1, some (page + k))).map (·.1) = entries.map (·.1) := by
  apply List.ext_getElem?
  intro k
  rw [List.getElem?_map, List.getElem?_mapIdx, List.getElem?_map, Option.map_map]
  rfl

def assign (r : Roll) (page : Nat) : Roll where
  capacity := r.capacity
  entries := r.entries.mapIdx fun k e => (e.1, some (page + k))
  distinct := by
    rw [map_fst_assigned]
    exact r.distinct
  length_le := by
    rw [List.length_mapIdx]
    exact r.length_le

def carryOut (r : Roll) : FrameCall → FrameAnswer × Roll
  | .insert a =>
    match r.insert (a.word.toNat / pageSize) with
    | .ok grown => (.done, grown)
    | .error why => (.refused why, r)
  | .assign page => (.done, r.assign page.word.toNat)
  | .clear => (.done, ofCapacity r.capacity)
  | .contains a => (.held (a.word.toNat / pageSize ∈ r.frames), r)
  | .translate a =>
    let page := r.page? (a.word.toNat / pageSize)
    (.translated (page.map fun q => q * pageSize + a.word.toNat % pageSize), r)
  | .pages => (.pages (r.entries.map fun e => (e.1 * pageSize, e.2.map (· * pageSize))), r)

def answers (r : Roll) : List FrameCall → List FrameAnswer
  | [] => []
  | c :: cs => (r.carryOut c).1 :: (r.carryOut c).2.answers cs

/-- The numbers of the pages that a call gives, and the addresses of those it asks for, are
words. -/
def InRange (r : Roll) : FrameCall → Prop
  | .assign page => page.word.toNat + r.entries.length ≤ 2 ^ 64
  | .translate a => ∀ q, r.page? (a.word.toNat / pageSize) = some q → q * pageSize < 2 ^ 64
  | .pages => ∀ e ∈ r.entries, ∀ q, e.2 = some q → q * pageSize < 2 ^ 64
  | .insert _ | .clear | .contains _ => True

def AllInRange (r : Roll) : List FrameCall → Prop
  | [] => True
  | c :: cs => r.InRange c ∧ (r.carryOut c).2.AllInRange cs

end Roll

end Aperture
