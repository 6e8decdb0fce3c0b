import Aperture.Frames.Touched
import Aperture.Pool.Placement
import Aperture.Table.Call
import Mathlib.Algebra.Ring.Nat

namespace Aperture

/-- The first address of a page whose bytes all have addresses. -/
def PageNo.base {s : Space} (p : PageNo s) : Addr s := ⟨.ofNat 64 (p.word.toNat * pageSize)⟩

namespace Block

/-- The block is that many whole pages of the bus. -/
structure IsPages (b : Block) (n : Nat) : Prop where
  aligned : pageSize ∣ b.start.toNat
  size : b.size.toNat = n * pageSize
  fits : b.start.toNat + n * pageSize ≤ 2 ^ 64

def Holds (b : Block) (a : BusAddr) : Prop :=
  b.start.toNat ≤ a.word.toNat ∧ a.word.toNat < b.stop

def page (b : Block) (k : Nat) : BusAddr := ⟨.ofNat 64 (b.start.toNat + k * pageSize)⟩

/-- The page that each of the frames has, and where that frame is in memory. -/
def layout (b : Block) (frames : List FrameNo) : List (BusAddr × PhysAddr) :=
  frames.mapIdx fun k f => (b.page k, f.base)

/-- The calls that bind frames to the pages of the block. -/
def binds (b : Block) (frames : List FrameNo) (traits : Traits) : List TableCall :=
  (b.layout frames).map (fun (bus, phys) => .bind bus phys traits) ++ [.flush]

def unbinds (b : Block) (frames : List FrameNo) : List TableCall :=
  (b.layout frames).map (fun (bus, _) => .unbind bus) ++ [.flush]

/-- Where `a` is on the bus when the frames have the pages of the block. -/
def busAddr (b : Block) (frames : List FrameNo) (a : PhysAddr) : BusAddr :=
  ⟨.ofNat 64 (b.start.toNat + frames.idxOf a.pageNo * pageSize + a.pageOffset)⟩

/-- Where the runs that are not empty are on the bus. -/
def ranges (b : Block) (frames : List FrameNo) (runs : List (Run .phys)) : List (Run .bus) :=
  (runs.filter fun r => !r.isEmpty).map fun r => ⟨b.busAddr frames r.addr, r.length⟩

end Block

/-- The set holds the frames, which have the pages of the block in order. -/
structure FrameSet.LaidIn (s : FrameSet) (b : Block) (frames : List FrameNo) : Prop where
  wellFormed : s.WellFormed
  slots : s.toList = frames.mapIdx fun k f => ⟨f, some (b.page k).pageNo⟩

end Aperture
