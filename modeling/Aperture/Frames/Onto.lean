import Aperture.Frames.History
import Mathlib.Algebra.Ring.Nat
import Mathlib.Data.Set.Function

namespace Aperture

/-- All bytes of the `n` pages from this one on have addresses. -/
def PageNo.HasAfter (page : PageNo .bus) (n : Nat) : Prop :=
  ∀ k < n, (page.word.toNat + k) * pageSize < 2 ^ 64

instance (page : PageNo .bus) (n : Nat) : Decidable (page.HasAfter n) :=
  inferInstanceAs (Decidable (∀ k < n, _))

/-- What can be read off a record of frames. -/
structure FrameView where
  contains : PhysAddr → Bool
  busAddr? : PhysAddr → Checked (Option BusAddr)
  pages : Checked (List (PhysAddr × Option BusAddr))
  byteSize : Checked Word

namespace FrameSet

/-- The frames of the addresses that a record of some capacity keeps. -/
def firstFrames (capacity : Nat) (as : List PhysAddr) : List FrameNo :=
  ((as.map (·.pageNo)).eraseDups).take capacity

/-- Inserts the addresses one after the other; one that is refused changes nothing. -/
def fill (s : FrameSet) : List PhysAddr → FrameSet
  | [] => s
  | a :: rest =>
    match s.insert a with
    | .ok grown => grown.fill rest
    | .error _ => s.fill rest

def view (s : FrameSet) : FrameView := ⟨s.contains, s.busAddr?, s.pages, s.byteSize⟩

end FrameSet

namespace Arena

def fill (a : Arena) : List PhysAddr → Arena
  | [] => a
  | x :: rest =>
    match a.insert x.pageNo with
    | .ok grown => grown.fill rest
    | .error _ => a.fill rest

def view (a : Arena) : FrameView :=
  ⟨fun x => a.contains x.pageNo, a.busAddr?, a.pages, a.byteSize⟩

end Arena

/-- The bytes of the frames are mapped by `bus` one to one onto those of as many pages from `page`
on, frame by frame in order, and both readings of the record follow `bus`. -/
structure FrameView.Onto (v : FrameView) (frames : List FrameNo) (page : PageNo .bus)
    (bus : PhysAddr → BusAddr) : Prop where
  recorded : ∀ a, v.contains a = true ↔ a.pageNo ∈ frames
  found : ∀ a, v.busAddr? a = .ok (if v.contains a then some (bus a) else none)
  bijective : Set.BijOn bus {a | v.contains a = true}
    {b | page.word.toNat * pageSize ≤ b.word.toNat ∧
      b.word.toNat < page.word.toNat * pageSize + frames.length * pageSize}
  pageOffset : ∀ a, v.contains a = true → (bus a).pageOffset = a.pageOffset
  pageNo : ∀ a b, v.contains a = true → v.contains b = true →
    ((bus a).pageNo = (bus b).pageNo ↔ a.pageNo = b.pageNo)
  byteSize : ∀ w, v.byteSize = .ok w ↔ w.toNat = frames.length * pageSize
  listed : ∃ entries, v.pages = .ok entries ∧ entries.length = frames.length ∧
    ∀ k f, frames[k]? = some f → ∃ start own, entries[k]? = some (start, some own) ∧
      start.word.toNat = f.word.toNat * pageSize ∧
      own.word.toNat = (page.word.toNat + k) * pageSize ∧
      ∀ a, a.pageNo = f → (bus a).word.toNat = own.word.toNat + a.pageOffset

end Aperture
