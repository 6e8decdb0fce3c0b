import Aperture.Event
import Aperture.Tag.Mapping

namespace Aperture

/-- The alignment and boundary of the last allocation of host memory that was well-formed; zero
stands for none. -/
structure Recorded where
  alignment : Word
  boundary : Word

structure Tag where
  name : String
  /-- The addresses of the aperture. -/
  pool : Pool
  memory : HostMemory
  cache : Option Cache
  recorded : Recorded

namespace Tag

/-- The last address that a device limited to 24 bits can reach. -/
def lowWindowEnd : Word := 0xffffff

def new (name : String) (start : BusAddr) (size : Word) (memory : HostMemory)
    (cache : Option Cache) : Checked (Tag × List Event) :=
  if start.pageOffset ≠ 0 then .error .apertureStart
  else if size = 0 ∨ size.toNat % pageSize ≠ 0 then .error .apertureSize
  else do
    let pool ← Pool.new start.word size
    return (⟨name, pool, memory, cache, ⟨0, 0⟩⟩, [.notice (.opened name size start)])

def start (t : Tag) : BusAddr := ⟨t.pool.first⟩

def outstanding (t : Tag) : Checked Word := t.pool.allocated

/-- The boundary for a load: the recorded one, or else the mapping's own. -/
def boundaryFor (t : Tag) (m : Mapping) : Word :=
  if t.recorded.boundary = 0 then m.limits.boundary else t.recorded.boundary

/-- The alignment for a load: the largest of the recorded one, the mapping's own and a page. -/
def alignmentFor (t : Tag) (m : Mapping) : Word :=
  (t.recorded.alignment.larger m.alignment).larger (.ofNat 64 pageSize)

/-- The part of the aperture a load may use, if not all of it. -/
def windowFor (t : Tag) (m : Mapping) : Option (Word × Word) :=
  if m.limits.traits.low then some (t.pool.first, lowWindowEnd) else none

/-- Allocates host memory; a well-formed alignment and boundary constrain all later loads, even if
there is no memory to be had. -/
def alloc (t : Tag) (size alignment boundary : Word) :
    Checked (Tag × Except Refusal (Run .phys) × List Event) :=
  if alignment.IsBoundary ∧ boundary.IsBoundary then do
    let t := { t with recorded := ⟨alignment, boundary⟩ }
    match ← t.memory.alloc size alignment boundary with
    | .error d => return (t, .error d.reason, d.notices.map .notice)
    | .ok (run, memory) => return ({ t with memory := memory }, .ok run, [])
  else .ok (t, .error .invalid, [])

def free (t : Tag) (r : Run .phys) : Tag × Except Refusal Unit :=
  match t.memory.free r with
  | .error reason => (t, .error reason)
  | .ok memory => ({ t with memory := memory }, .ok ())

/-- Points every page of the aperture away from memory, and flushes once. -/
def teardown (t : Tag) : Checked (List Event) := do
  let outstanding ← t.outstanding
  let warning : List Event :=
    if outstanding = 0 then [] else [.notice (.tornDown t.name outstanding)]
  let pages ← (List.range (t.pool.size.toNat / pageSize)).mapM fun i =>
    t.start.plus (i * pageSize)
  return warning ++ pages.map (fun bus => .table (.unbind bus)) ++ [.table .flush]

end Tag

/-- What is noted when a mapping is dropped: a loaded one takes its block with it. -/
def Mapping.dropped (m : Mapping) : List Event :=
  match m.loaded with
  | none => []
  | some l => [.notice (.dropped l.block.size l.block.start)]

end Aperture
