import Aperture.Gather.Pieces

namespace Aperture

namespace GatherList

inductive Call where
  | append (r : Run .bus)
  | clear
  | reset (boundary : Word)

/-- Carries out a call. An append that is refused keeps the segments appended before. -/
def carryOut (g : GatherList) : Call → Checked (Option Refusal × GatherList)
  | .append r => do
    let (grown, refusal) ← g.append r
    return (refusal, grown)
  | .clear => .ok (none, g.clear)
  | .reset boundary => do return (none, ← g.reset boundary)

def runAll (g : GatherList) : List Call → Checked (List (Option Refusal) × GatherList)
  | [] => .ok ([], g)
  | c :: cs => do
    let first ← g.carryOut c
    let rest ← first.2.runAll cs
    return (first.1 :: rest.1, rest.2)

def Call.boundaryAfter (boundary : Word) : Call → Word
  | append _ | clear => boundary
  | reset next => next

/-- The boundary of the last reset among some calls, or the one from before them. -/
def boundaryAfter (boundary : Word) (cs : List Call) : Word :=
  cs.foldl Call.boundaryAfter boundary

end GatherList

end Aperture
