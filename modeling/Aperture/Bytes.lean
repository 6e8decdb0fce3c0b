import Aperture.Gather.Basic
import Aperture.Table.Call
import Aperture.Word.Rounding

namespace Aperture

namespace VirtSpace

/-- Where the byte at the virtual address `n` is in memory. -/
def byte? (v : VirtSpace) (n : Nat) : Option Nat :=
  if h : n < 2 ^ 64 then (v.lookup ⟨.ofNatLT n h⟩).map (·.word.toNat) else none

/-- Pages are mapped as a whole: all of a page is in one frame, and an address lies as far into the
frame as into the page. It does not suffice that offsets are kept. A walk looks up one address in
each page and takes the others to follow it, so where a page is in several frames, the bytes of a
payload are not those that are found. -/
def IsPaged (v : VirtSpace) : Prop :=
  ∀ a, match v.lookup a.pageBase with
    | none => v.lookup a = none
    | some p => p.pageOffset = 0 ∧ v.lookup a = p.plus? a.pageOffset

/-- An address lies as far into its frame as into its page, wherever the frame is. -/
def KeepsOffsets (v : VirtSpace) : Prop :=
  ∀ a p, v.lookup a = some p → p.pageOffset = a.pageOffset

/-- Different pages of the run are in different frames. -/
def Separates (v : VirtSpace) (r : Run .virt) : Prop :=
  ∀ a b : VirtAddr, a.word.toNat ∈ r.bytes → b.word.toNat ∈ r.bytes → ∀ p q,
    v.lookup a = some p → v.lookup b = some q → p.pageNo = q.pageNo → a.pageNo = b.pageNo

end VirtSpace

def frameAt (n : Nat) : FrameNo := ⟨.ofNat 64 (n / pageSize)⟩

namespace Payload

/-- Where the bytes of a payload are in memory, in order, if all of them are somewhere. -/
def bytes? : Payload → Option (List Nat)
  | linear base length space => (Run.bytes ⟨base, length⟩).mapM space.byte?
  | chain pieces space | scatter pieces space => (pieces.flatMap Run.bytes).mapM space.byte?
  | raw runs => (runs.flatMap Run.bytes).mapM fun n => if n < 2 ^ 64 then some n else none

/-- The distinct frames that hold bytes of a payload, in the order of first touch. -/
def frames (p : Payload) : List FrameNo := ((p.bytes?.getD []).map frameAt).eraseDups

def IsPaged (p : Payload) : Prop := ∀ v, p.space? = some v → v.IsPaged

theorem isPaged_of_raw {p : Payload} (h : p.shape = .raw) : p.IsPaged := by
  cases p with
  | raw runs => exact fun v hv => by cases hv
  | linear | chain | scatter => cases h

end Payload

namespace GatherList

def bytes (g : GatherList) : List Nat := g.segments.flatMap Run.bytes

end GatherList

namespace Bindings

/-- Where the byte at the bus address `n` is in memory. -/
def byte? (b : Bindings) (n : Nat) : Option Nat :=
  (b ⟨.ofNat 64 (n / pageSize * pageSize)⟩).map fun p => p.word.toNat + n % pageSize

end Bindings

namespace Addr

variable {s : Space}

theorem pageNo_pageBase (a : Addr s) : a.pageBase.pageNo = a.pageNo := by
  have h : a.pageBase.pageNo.word = a.pageNo.word := BitVec.eq_of_toNat_eq (by
    rw [toNat_pageNo, toNat_pageNo, toNat_pageBase]
    exact Nat.mul_div_cancel _ (by decide))
  exact congrArg PageNo.mk h

theorem pageOffset_pageBase (a : Addr s) : a.pageBase.pageOffset = 0 := by
  rw [pageOffset_eq, toNat_pageBase]
  exact Nat.mul_mod_left _ _

end Addr

namespace VirtSpace

theorem isPaged_ofPages (id : Nat) (pages : List (PageNo .virt × Array FrameNo)) :
    (ofPages id pages).IsPaged := by
  intro a
  simp only [ofPages, Addr.pageNo_pageBase, Addr.pageOffset_pageBase]
  generalize (pages.filterMap _).getLast? = found
  cases found with
  | none => rfl
  | some f =>
    have hoff : a.pageOffset < pageSize := a.pageOffset_lt
    unfold pageSize at hoff
    simp only [Option.map_some, Addr.pageOffset_eq, Nat.add_zero]
    refine ⟨?_, (Addr.plus?_eq_some_iff.mpr ?_).symm⟩
    · simp only [BitVec.toNat_ofNat, pageSize]
      omega
    · rw [← Addr.pageOffset_eq]
      simp only [BitVec.toNat_ofNat, pageSize]
      omega

end VirtSpace

end Aperture
