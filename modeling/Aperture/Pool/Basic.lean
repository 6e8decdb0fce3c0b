import Aperture.Pool.Block
import Aperture.Refusal

namespace Aperture

/-- A wish for a block: `alignment` is a power of two, `boundary` a power of two the block may not
cross or zero, and `window` an inclusive range the block must lie in. -/
structure Request where
  size : Word
  alignment : Word
  boundary : Word
  window : Option (Word × Word)

/-- What a well-formed request asks of a position. -/
structure Fit where
  size : Word
  /-- Positions are multiples of this. -/
  unit : Word
  /-- Blocks cross no multiple of this, unless it is zero. -/
  boundary : Word

namespace Request

def WellFormed (r : Request) : Prop :=
  r.size ≠ 0 ∧ r.size.toNat % pageSize = 0 ∧ r.alignment.IsPowerOfTwo ∧ r.boundary.IsBoundary

instance (r : Request) : Decidable r.WellFormed :=
  inferInstanceAs (Decidable (_ ∧ _ ∧ _ ∧ _))

/-- The alignment is at least a page, and a block larger than the boundary may cross it. -/
def fit (r : Request) : Fit where
  size := r.size
  unit := r.alignment.larger 4096
  boundary := if r.size ≤ r.boundary then r.boundary else 0

end Request

namespace Fit

def last? (f : Fit) (start : Word) : Option Word :=
  start.plus? (f.size.toNat - 1)

/-- The block at `start`, which ends at `last`, crosses a multiple of the boundary. -/
def crosses (f : Fit) (start last : Word) : Bool :=
  f.boundary != 0 && start.toNat / f.boundary.toNat != last.toNat / f.boundary.toNat

def place? (f : Fit) (lo hi : Word) : Option Word := do
  let start ← lo.roundUp? f.unit
  let last ← f.last? start
  let start ← if f.crosses start last then start.roundUp? (f.boundary.larger f.unit) else some start
  let last ← f.last? start
  if last ≤ hi then some start else none

/-- The first position inside `[cursor, hi]` that overlaps none of the blocks, which are sorted. -/
def search? (f : Fit) (hi : Word) : Word → List Block → Checked (Option Word)
  | cursor, [] => .ok (f.place? cursor hi)
  | cursor, b :: bs => do
    let last ← b.last
    if last < cursor then f.search? hi cursor bs
    else if hi < b.start then return f.place? cursor hi
    else
      let inGap := if cursor < b.start then f.place? cursor (b.start - 1) else none
      match inGap with
      | some start => return some start
      | none =>
        match last.plus? 1 with
        | none => return none
        | some next => if hi < next then return none else f.search? hi next bs

end Fit

structure Pool where
  first : Word
  size : Word
  size_pos : 0 < size.toNat
  fits : first.toNat + (size.toNat - 1) < 0x10000000000000000
  /-- What is handed out, sorted by start. -/
  blocks : List Block

namespace Pool

/-- A pool of `size` bytes from `first`, with nothing handed out. -/
def new (first size : Word) : Checked Pool :=
  if hs : 0 < size.toNat then
    if hf : first.toNat + (size.toNat - 1) < 0x10000000000000000 then .ok ⟨first, size, hs, hf, []⟩
    else .error .poolWraps
  else .error .emptyPool

def last (p : Pool) : Word :=
  .ofNatLT (p.first.toNat + (p.size.toNat - 1)) p.fits

def insert (b : Block) : List Block → List Block
  | [] => [b]
  | c :: cs => if c.start < b.start then c :: insert b cs else b :: c :: cs

/-- Reserves the block of lowest start that meets the request. -/
def reserve (p : Pool) (r : Request) : Checked (Except Refusal (Block × Pool)) :=
  if r.WellFormed then
    let window := r.window.getD (p.first, p.last)
    let lo := p.first.larger window.1
    let hi := p.last.smaller window.2
    if hi < lo then .ok (.error .spaceExhausted)
    else do
      match ← r.fit.search? hi lo p.blocks with
      | none => return .error .spaceExhausted
      | some start =>
        let block : Block := ⟨start, r.size⟩
        return .ok (block, { p with blocks := insert block p.blocks })
  else .ok (.error .invalid)

/-- Takes back a block exactly as it was handed out. -/
def release (p : Pool) (b : Block) : Except Refusal Pool :=
  if b ∈ p.blocks then .ok { p with blocks := p.blocks.erase b } else .error .notFound

def allocated (p : Pool) : Checked Word :=
  Word.total (p.blocks.map (·.size))

def free (p : Pool) : Checked Word := do
  p.size.minus (← p.allocated).toNat

end Pool

end Aperture
