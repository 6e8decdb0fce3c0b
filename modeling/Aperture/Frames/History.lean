import Aperture.Frames.Arena

namespace Aperture

inductive FrameCall where
  | insert (a : PhysAddr)
  | assign (page : PageNo .bus)
  | clear
  | contains (a : PhysAddr)
  | translate (a : PhysAddr)
  | pages

/-- What is answered to a call, with addresses as numbers. -/
inductive FrameAnswer where
  | done
  | refused (why : Refusal)
  | held (yes : Bool)
  | translated (bus : Option Nat)
  | pages (entries : List (Nat × Option Nat))
deriving DecidableEq

namespace FrameAnswer

def ofBus (bus : Option BusAddr) : FrameAnswer := translated (bus.map (·.word.toNat))

def ofPages (entries : List (PhysAddr × Option BusAddr)) : FrameAnswer :=
  pages (entries.map fun (phys, bus) => (phys.word.toNat, bus.map (·.word.toNat)))

end FrameAnswer

/-- The answers to some calls one after the other, unless a fault ends them. -/
def FrameCall.answers {σ : Type} (carryOut : σ → FrameCall → Checked (FrameAnswer × σ)) (s : σ) :
    List FrameCall → Checked (List FrameAnswer)
  | [] => .ok []
  | c :: cs => do
    let first ← carryOut s c
    let rest ← answers carryOut first.2 cs
    return first.1 :: rest

namespace FrameSet

def carryOut (s : FrameSet) : FrameCall → Checked (FrameAnswer × FrameSet)
  | .insert a =>
    match s.insert a with
    | .ok grown => .ok (.done, grown)
    | .error why => .ok (.refused why, s)
  | .assign page => do return (.done, ← s.assign page)
  | .clear => .ok (.done, s.clear)
  | .contains a => .ok (.held (s.contains a), s)
  | .translate a => do return (.ofBus (← s.busAddr? a), s)
  | .pages => do return (.ofPages (← s.pages), s)

def answers (s : FrameSet) (cs : List FrameCall) : Checked (List FrameAnswer) :=
  FrameCall.answers carryOut s cs

end FrameSet

namespace Arena

def ofCapacity (capacity : Nat) : Arena where
  slots := Array.replicate capacity ⟨⟨0⟩, none⟩
  order := Array.replicate capacity 0
  size := 0
  base := none

def busAddr? (a : Arena) (x : PhysAddr) : Checked (Option BusAddr) :=
  match (a.find? x.pageNo).bind (·.page) with
  | none => .ok none
  | some page => do
    let start ← page.start
    let bus ← start.plus x.pageOffset
    return some bus

/-- The live slots' frames and pages by their starts, in order of insertion. -/
def pages (a : Arena) : Checked (List (PhysAddr × Option BusAddr)) :=
  a.live.mapM fun slot => do
    let phys ← slot.frame.start
    match slot.page with
    | none => return (phys, none)
    | some page => return (phys, some (← page.start))

def carryOut (a : Arena) : FrameCall → Checked (FrameAnswer × Arena)
  | .insert x =>
    match a.insert x.pageNo with
    | .ok grown => .ok (.done, grown)
    | .error why => .ok (.refused why, a)
  | .assign page => do return (.done, ← a.assign page)
  | .clear => .ok (.done, a.clear)
  | .contains x => .ok (.held (a.contains x.pageNo), a)
  | .translate x => do return (.ofBus (← a.busAddr? x), a)
  | .pages => do return (.ofPages (← a.pages), a)

def answers (a : Arena) (cs : List FrameCall) : Checked (List FrameAnswer) :=
  FrameCall.answers carryOut a cs

end Arena

end Aperture
