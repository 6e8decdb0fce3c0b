import Aperture.Pool.Basic

namespace Aperture

namespace Pool

inductive Call where
  | reserve (r : Request)
  | release (b : Block)

inductive Outcome where
  | reserved (b : Block)
  | released (b : Block)
  | refused (why : Refusal)
deriving DecidableEq

/-- What lives after an outcome, when `live` lived before it. -/
def Outcome.next (live : List Block) : Outcome → List Block
  | reserved b => b :: live
  | released b => live.erase b
  | refused _ => live

def live (outcomes : List Outcome) : List Block :=
  outcomes.foldl Outcome.next []

/-- The block was reserved, and was not released after that. -/
def Outstanding (outcomes : List Outcome) (b : Block) : Prop :=
  ∃ before after, outcomes = before ++ .reserved b :: after ∧ .released b ∉ after

/-- Carries out a call. One that is refused leaves the pool as it is. -/
def carryOut (p : Pool) : Call → Checked (Outcome × Pool)
  | .reserve r => do
    match ← p.reserve r with
    | .ok (b, q) => return (.reserved b, q)
    | .error why => return (.refused why, p)
  | .release b =>
    match p.release b with
    | .ok q => .ok (.released b, q)
    | .error why => .ok (.refused why, p)

def runAll (p : Pool) : List Call → Checked (List Outcome × Pool)
  | [] => .ok ([], p)
  | c :: cs => do
    let first ← p.carryOut c
    let rest ← first.2.runAll cs
    return (first.1 :: rest.1, rest.2)

end Pool

end Aperture
