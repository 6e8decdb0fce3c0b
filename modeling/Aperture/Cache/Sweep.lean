import Aperture.Cache

namespace Aperture

namespace LineCache

/-- The first line boundary that is not below `n`. -/
def lineCeiling (n : Nat) : Nat := (n + (lineSize - 1)) / lineSize * lineSize

/-- The address is the start of a line that holds one of the bytes. -/
structure IsLineOf (bytes : List Nat) (line : VirtAddr) : Prop where
  aligned : lineSize ∣ line.word.toNat
  shared : ∃ n ∈ bytes, line.word.toNat ≤ n ∧ n < line.word.toNat + lineSize

/-- The lines that hold some of the bytes: in ascending order, each once, and no others. -/
structure AreLinesOf (bytes : List Nat) (lines : List VirtAddr) : Prop where
  ascending : lines.Pairwise fun a b => a.word < b.word
  mem_iff : ∀ line, line ∈ lines ↔ IsLineOf bytes line

/-- A sweep from a line on comes to these flushes, and to a fault if a step leaves the space. -/
inductive Sweeps (stop : VirtAddr) : VirtAddr → List VirtAddr → Option Fault → Prop
  | done {line : VirtAddr}
      (hout : stop.word ≤ line.word) :
      Sweeps stop line [] none
  | stuck {line : VirtAddr} {f : Fault}
      (hin : line.word < stop.word)
      (hstep : line.plus lineSize = .error f) :
      Sweeps stop line [line] (some f)
  | next {line after : VirtAddr} {lines : List VirtAddr} {fault : Option Fault}
      (hin : line.word < stop.word)
      (hstep : line.plus lineSize = .ok after)
      (hrest : Sweeps stop after lines fault) :
      Sweeps stop line (line :: lines) fault

/-- Sweeping a range: from the line of its first byte up to its end, which is worked out before. -/
inductive SweepsRun (r : Run .virt) : List VirtAddr → Option Fault → Prop
  | empty
      (hempty : r.length = 0) :
      SweepsRun r [] none
  | wraps {first : VirtAddr} {f : Fault}
      (hsome : r.length ≠ 0)
      (hfirst : r.addr.alignDown (.ofNat 64 lineSize) = .ok first)
      (hstop : r.stop = .error f) :
      SweepsRun r [] (some f)
  | swept {first stop : VirtAddr} {lines : List VirtAddr} {fault : Option Fault}
      (hsome : r.length ≠ 0)
      (hfirst : r.addr.alignDown (.ofNat 64 lineSize) = .ok first)
      (hstop : r.stop = .ok stop)
      (hsweep : Sweeps stop first lines fault) :
      SweepsRun r lines fault

end LineCache

end Aperture
