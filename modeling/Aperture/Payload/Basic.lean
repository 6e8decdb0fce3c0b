import Aperture.Run

namespace Aperture

/-- A virtual address space: its identifier and where its pages are. -/
structure VirtSpace where
  id : Nat
  lookup : VirtAddr → Option PhysAddr
  /-- It is the kernel's own, whose pages stay where they are. -/
  isKernel : Bool

namespace VirtSpace

/-- The identifier of the kernel's own space. -/
def kernelId : Nat := 0

def describeId (id : Nat) : String :=
  "ContextId(" ++ toString id ++ ")"

/-- A space in which each entry maps the pages from one on to the frames listed; a later entry
overrides an earlier one. The identifier alone tells whether it is the kernel's. -/
def ofPages (id : Nat) (pages : List (PageNo .virt × Array FrameNo)) : VirtSpace where
  id := id
  lookup a :=
    let page := a.pageNo.word
    let found := pages.filterMap fun (first, frames) =>
      if first.word ≤ page then frames[page.toNat - first.word.toNat]? else none
    found.getLast?.map fun f => ⟨.ofNat 64 (f.word.toNat * pageSize + a.pageOffset)⟩
  isKernel := id == kernelId

end VirtSpace

/-- How a payload is described; `unbound` stands for none. -/
inductive Shape where
  | unbound
  | linear
  | chain
  | scatter
  | raw
deriving DecidableEq

namespace Shape

def name : Shape → String
  | unbound => "Unbound"
  | linear => "Linear"
  | chain => "Chain"
  | scatter => "Scatter"
  | raw => "Raw"

end Shape

inductive Payload where
  /-- Virtually contiguous memory. -/
  | linear (base : VirtAddr) (length : Word) (space : VirtSpace)
  | chain (pieces : List (Run .virt)) (space : VirtSpace)
  /-- A scatter list, which only the kernel's space may hold. -/
  | scatter (pieces : List (Run .virt)) (space : VirtSpace)
  | raw (runs : List (Run .phys))

namespace Payload

def shape : Payload → Shape
  | linear .. => .linear
  | chain .. => .chain
  | scatter .. => .scatter
  | raw _ => .raw

/-- The number of bytes, if it fits in a word. -/
def length? : Payload → Option Word
  | linear _ length _ => some length
  | chain pieces _ | scatter pieces _ => Word.total? (pieces.map (·.length))
  | raw runs => Word.total? (runs.map (·.length))

def isEmpty (p : Payload) : Bool := p.length? == some 0

def space? : Payload → Option VirtSpace
  | linear _ _ space | chain _ space | scatter _ space => some space
  | raw _ => none

def base? : Payload → Option VirtAddr
  | linear base _ _ => some base
  | _ => none

/-- Shape, length and owner in one line. -/
def describe (p : Payload) : String :=
  let length := (p.length?.map fun n => toString n.toNat).getD "overflow"
  let owner := (p.space?.map fun v => ", context: " ++ VirtSpace.describeId v.id).getD ""
  "Buffer \x7b kind: " ++ p.shape.name ++ ", len: " ++ length ++ owner ++ " \x7d"

end Payload

end Aperture
