import Aperture.Proofs.Frames.Laid
import Aperture.Proofs.Gather.Append

namespace Aperture

namespace GatherList

/-- Appends bus ranges in order, as long as there is room. -/
def appendAll (g : GatherList) : List (Run .bus) → Checked (Except Refusal GatherList)
  | [] => .ok (.ok g)
  | r :: rest => do
    match ← g.append r with
    | (_, some reason) => return .error reason
    | (grown, none) => grown.appendAll rest

/-- Gathering runs whose frames are laid into a block appends their ranges there; no frame is found
missing. -/
theorem appendRuns_eq {g : GatherList} {s : FrameSet} {b : Block} {frames : List FrameNo}
    (hs : s.LaidIn b frames) (hb : b.IsPages frames.length) {runs : List (Run .phys)}
    (hruns : ∀ r ∈ runs, r.isEmpty = false → r.addr.pageNo ∈ frames) :
    g.appendRuns s runs =
      (g.appendAll (b.ranges frames runs)).map fun outcome =>
        outcome.mapError fun reason => ⟨reason, none⟩ := by
  induction runs generalizing g with
  | nil => rfl
  | cons r rest ih =>
    have hrest : ∀ r' ∈ rest, r'.isEmpty = false → r'.addr.pageNo ∈ frames :=
      fun r' hr' => hruns r' (by simp [hr'])
    unfold appendRuns
    cases he : r.isEmpty with
    | true =>
      have hskip : b.ranges frames (r :: rest) = b.ranges frames rest := by
        simp [Block.ranges, he]
      rw [if_pos rfl, hskip]
      exact ih hrest
    | false =>
      have hfirst : b.ranges frames (r :: rest) =
          ⟨b.busAddr frames r.addr, r.length⟩ :: b.ranges frames rest := by
        simp [Block.ranges, he]
      rw [if_neg Bool.false_ne_true, hs.busAddr?_eq hb (hruns r (by simp) he), hfirst, appendAll,
        Checked.ok_bind]
      dsimp only
      cases hout : g.append ⟨b.busAddr frames r.addr, r.length⟩ with
      | error f => rfl
      | ok out =>
        obtain ⟨grown, refusal⟩ := out
        cases refusal with
        | none => exact ih hrest
        | some reason => rfl

/-- What appending ranges can come to: too many segments, or a list of exactly their bytes more. -/
theorem appendAll_cases {g : GatherList} {ranges : List (Run .bus)}
    {outcome : Except Refusal GatherList} (h : g.appendAll ranges = .ok outcome) :
    match outcome with
    | .error reason => reason = .tooManySegments
    | .ok g' => g'.rules = g.rules ∧ g'.bytes = g.bytes ++ ranges.flatMap Run.bytes ∧
        (g.NoneEmpty → g'.NoneEmpty) := by
  induction ranges generalizing g with
  | nil =>
    obtain rfl := Except.ok.inj h
    simp
  | cons r rest ih =>
    rw [appendAll] at h
    obtain ⟨out, hout, h⟩ := Checked.bind_eq_ok.mp h
    have happends := appends_of_appendFrom hout
    have hrules := happends.rules_eq
    have hrefusal := happends.refusal_eq
    have hbytes := happends.bytes_eq
    have hnonempty := happends.noneEmpty
    obtain ⟨grown, refusal⟩ := out
    cases refusal with
    | some reason =>
      obtain rfl := Except.ok.inj h
      cases hrefusal with
      | inl hnone => cases hnone
      | inr hmany => exact Option.some.inj hmany
    | none =>
      have hrest := ih h
      cases outcome with
      | error reason => exact hrest
      | ok g' =>
        obtain ⟨hrules', hbytes', hnonempty'⟩ := hrest
        refine ⟨hrules'.trans hrules, ?_, fun hg => hnonempty' (hnonempty hg)⟩
        rw [hbytes', hbytes rfl, List.flatMap_cons, List.append_assoc]
        rfl

end GatherList

end Aperture
