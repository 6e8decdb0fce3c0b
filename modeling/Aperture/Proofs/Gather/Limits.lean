import Aperture.Gather.History
import Aperture.Proofs.Gather.Exact

namespace Aperture

namespace SegmentRules

variable {rules : SegmentRules}

/-- Bytes before the next boundary cross none, unless they run past the last address. -/
theorem not_crosses_of_le_room {a : BusAddr} {n : Nat} (hn : 0 < n) (hroom : n ≤ rules.room a)
    (hfit : a.word.toNat + n < 2 ^ 64) :
    ¬ Stretch.Crosses ⟨a.word.toNat, n⟩ rules.boundary.toNat := by
  have hreach : min n (rules.room a) =
      Stretch.reach rules.boundary.toNat ⟨a.word.toNat, n⟩ :=
    min_room_eq_reach (by omega) (by omega)
  have hfirst : ¬ Stretch.Crosses ⟨a.word.toNat, Stretch.reach rules.boundary.toNat
      ⟨a.word.toNat, n⟩⟩ rules.boundary.toNat :=
    Stretch.reach_not_crosses (s := ⟨a.word.toNat, n⟩) hn
  rw [← hreach, Nat.min_eq_left hroom] at hfirst
  exact hfirst

end SegmentRules

namespace GatherList

variable {g g' : GatherList} {a : BusAddr} {n : Nat}

/-- The segments are not too many, and each of them is allowed and ends inside the address
space. -/
structure KeepsLimits (g : GatherList) : Prop where
  count_le : g.count ≤ g.rules.maxCount.toNat
  allows : ∀ s ∈ g.built, g.rules.Allows s
  inside : g.EndsInside

theorem keepsLimits_empty (rules : SegmentRules) : (empty rules).KeepsLimits :=
  ⟨Nat.zero_le _, fun s hs => (by cases hs), fun r hr => (by cases hr)⟩

theorem KeepsLimits.grow (h : g.KeepsLimits) {grown : GatherList} {last : Run .bus}
    {older : List (Run .bus)} {piece : Nat} (hgrown : grown.GrownFrom g piece last older)
    (hjoins : g.rules.Joins last.stretch ⟨a.word.toNat, piece⟩) (hpos : 0 < piece)
    (hroom : piece ≤ g.rules.room a) (hfit : a.word.toNat + piece < 2 ^ 64) :
    grown.KeepsLimits := by
  refine ⟨?_, ?_, hgrown.endsInside hjoins h.inside hfit⟩
  · rw [hgrown.count_eq, hgrown.rules]
    exact h.count_le
  · rw [hgrown.built_eq hjoins, hgrown.rules]
    exact SegmentRules.forall_allows_addPiece h.allows hpos
      (SegmentRules.not_crosses_of_le_room hpos hroom hfit)

theorem KeepsLimits.push (h : g.KeepsLimits) (hcount : g.count < g.rules.maxCount.toNat)
    (hpos : 0 < n) (hroom : n ≤ g.rules.room a) (hmax : n ≤ g.rules.maxLength.toNat)
    (hfit : a.word.toNat + n < 2 ^ 64) : (g.push ⟨a, .ofNat 64 n⟩).KeepsLimits := by
  have hstretch : (⟨a, .ofNat 64 n⟩ : Run .bus).stretch = ⟨a.word.toNat, n⟩ :=
    Run.stretch_ofNat (by omega)
  refine ⟨hcount, fun s hs => ?_, fun r hr => ?_⟩
  · rw [built_push, hstretch] at hs
    cases List.mem_cons.mp hs with
    | inl he =>
      subst he
      exact ⟨hpos, hmax, SegmentRules.not_crosses_of_le_room hpos hroom hfit⟩
    | inr hold => exact h.allows s hold
  · cases List.mem_cons.mp hr with
    | inl he =>
      rw [he, hstretch]
      exact hfit
    | inr hold => exact h.inside r hold

theorem Appends.keepsLimits {out : GatherList × Option Refusal} (h : Appends g a n out)
    (hg : g.KeepsLimits) : out.1.KeepsLimits := by
  induction h with
  | done => exact hg
  | full => exact hg
  | @grow g grown a next remaining last older out hpos hgrown hjoins hnext rest ih =>
    have hroom := g.rules.room_pos a
    have hfit := next.word.isLt
    rw [hnext] at hfit
    exact ih (hg.grow hgrown hjoins (by omega) (by omega) hfit)
  | @push g a next remaining out hpos hgrow hcount hnext rest ih =>
    have hroom := g.rules.room_pos a
    have hmax := g.rules.maxLength_pos
    have hfit := next.word.isLt
    rw [hnext] at hfit
    exact ih (hg.push hcount (by omega) (by omega) (by omega) hfit)

/-- What a call does to the rules: a reset sets the boundary, and nothing else changes. -/
structure SetTo (g' g : GatherList) (boundary : Word) : Prop where
  maxCount : g'.rules.maxCount = g.rules.maxCount
  maxLength : g'.rules.maxLength = g.rules.maxLength
  boundary : g'.rules.boundary = boundary

/-- What a call can do: append a range, or leave nothing in the list. -/
theorem carryOut_cases {c : Call} {refusal : Option Refusal}
    (h : g.carryOut c = .ok (refusal, g')) :
    g'.SetTo g (c.boundaryAfter g.rules.boundary) ∧
      ((∃ a n, Appends g a n (g', refusal)) ∨ g' = empty g'.rules) := by
  cases c with
  | append r =>
    obtain ⟨out, hout, h⟩ := Checked.bind_eq_ok.mp h
    obtain ⟨rfl, rfl⟩ := Prod.mk.inj (Except.ok.inj h)
    have happends := appends_of_appendFrom hout
    have hrules := happends.rules_eq
    exact ⟨⟨by rw [hrules], by rw [hrules], by rw [hrules]; rfl⟩, .inl ⟨_, _, happends⟩⟩
  | clear =>
    obtain ⟨-, rfl⟩ := Prod.mk.inj (Except.ok.inj h)
    exact ⟨⟨rfl, rfl, rfl⟩, .inr rfl⟩
  | reset boundary =>
    obtain ⟨emptied, hreset, h⟩ := Checked.bind_eq_ok.mp h
    obtain ⟨-, rfl⟩ := Prod.mk.inj (Except.ok.inj h)
    unfold reset at hreset
    split at hreset
    · obtain rfl := Except.ok.inj hreset
      exact ⟨⟨rfl, rfl, rfl⟩, .inr rfl⟩
    · cases hreset

section Kept

variable {P : GatherList → Prop} (hempty : ∀ rules, P (empty rules))
  (happend : ∀ {g : GatherList} {a : BusAddr} {n : Nat} {out : GatherList × Option Refusal},
    Appends g a n out → P g → P out.1)

include hempty happend

theorem carryOut_keeps {c : Call} {refusal : Option Refusal}
    (h : g.carryOut c = .ok (refusal, g')) (hg : P g) : P g' := by
  obtain ⟨-, ⟨a, n, happends⟩ | hnothing⟩ := carryOut_cases h
  · exact happend happends hg
  · exact hnothing ▸ hempty _

/-- What is true of an empty list and kept by an append stays true whatever is called. -/
theorem runAll_keeps {cs : List Call} {refusals : List (Option Refusal)}
    (h : g.runAll cs = .ok (refusals, g')) (hg : P g) : P g' := by
  induction cs generalizing g refusals with
  | nil =>
    obtain ⟨-, rfl⟩ := Prod.mk.inj (Except.ok.inj h)
    exact hg
  | cons c cs ih =>
    obtain ⟨first, hfirst, h⟩ := Checked.bind_eq_ok.mp h
    obtain ⟨rest, hrest, h⟩ := Checked.bind_eq_ok.mp h
    obtain ⟨-, rfl⟩ := Prod.mk.inj (Except.ok.inj h)
    exact ih hrest (carryOut_keeps hempty happend hfirst hg)

end Kept

theorem runAll_setTo {cs : List Call} {refusals : List (Option Refusal)}
    (h : g.runAll cs = .ok (refusals, g')) :
    g'.SetTo g (boundaryAfter g.rules.boundary cs) := by
  induction cs generalizing g refusals with
  | nil =>
    obtain ⟨-, rfl⟩ := Prod.mk.inj (Except.ok.inj h)
    exact ⟨rfl, rfl, rfl⟩
  | cons c cs ih =>
    obtain ⟨first, hfirst, h⟩ := Checked.bind_eq_ok.mp h
    obtain ⟨rest, hrest, h⟩ := Checked.bind_eq_ok.mp h
    obtain ⟨-, rfl⟩ := Prod.mk.inj (Except.ok.inj h)
    have hset := (carryOut_cases hfirst).1
    have hrules := ih hrest
    rw [hset.boundary] at hrules
    exact ⟨hrules.maxCount.trans hset.maxCount, hrules.maxLength.trans hset.maxLength,
      hrules.boundary⟩

theorem runAll_keepsLimits {cs : List Call} {refusals : List (Option Refusal)}
    (h : g.runAll cs = .ok (refusals, g')) (hg : g.KeepsLimits) :
    g'.KeepsLimits ∧ g'.SetTo g (boundaryAfter g.rules.boundary cs) :=
  ⟨runAll_keeps keepsLimits_empty Appends.keepsLimits h hg, runAll_setTo h⟩

theorem KeepsLimits.append_isOk (h : g.KeepsLimits) {r : Run .bus}
    (hr : r.stretch.stop < 2 ^ 64) : ∃ out, g.append r = .ok out := by
  have hgathers := appendFrom_gathers h.inside h.count_le r.length.isLt (Nat.le_of_lt hr)
  cases hout : g.append r with
  | ok out => exact ⟨out, rfl⟩
  | error f =>
    rw [show g.appendFrom r.addr r.length.toNat = .error f from hout] at hgathers
    cases hgathers with
    | overrun htop => exact absurd htop.2.1 (Nat.ne_of_lt hr)

theorem of_new {storage : Storage} {maxCount maxLength boundary : Word}
    (h : GatherList.new storage maxCount maxLength boundary = .ok g) :
    g.KeepsLimits ∧ g.rules.maxCount = maxCount ∧ g.rules.maxLength = maxLength ∧
      g.rules.boundary = boundary := by
  obtain ⟨rules, rfl, hrules⟩ := new_eq_ok h
  exact ⟨keepsLimits_empty rules, hrules⟩

/-- Whatever is asked of a new list, and whatever is refused: if every call comes to an end, the
segments are at most as many as there may be, each is not empty and at most as long as it may be,
and its first and last byte lie in the same block of the boundary that was set last. -/
theorem limits_after_calls {storage : Storage} {maxCount maxLength boundary : Word}
    (hnew : GatherList.new storage maxCount maxLength boundary = .ok g) {cs : List Call}
    {refusals : List (Option Refusal)} (hrun : g.runAll cs = .ok (refusals, g')) :
    g'.rules.boundary = boundaryAfter boundary cs ∧
      g'.segments.length ≤ maxCount.toNat ∧
      ∀ r ∈ g'.segments, 0 < r.length.toNat ∧ r.length.toNat ≤ maxLength.toNat ∧
        r.addr.word.toNat + r.length.toNat < 2 ^ 64 ∧
        (g'.rules.boundary ≠ 0 →
          r.addr.word.toNat / g'.rules.boundary.toNat =
            (r.addr.word.toNat + r.length.toNat - 1) / g'.rules.boundary.toNat) := by
  obtain ⟨hkeeps, hcount, hlength, hboundary⟩ := of_new hnew
  obtain ⟨hlimits, hset⟩ := runAll_keepsLimits hrun hkeeps
  refine ⟨hboundary ▸ hset.boundary, ?_, fun r hr => ?_⟩
  · rw [segments, List.length_reverse, ← g'.count_eq, ← hcount, ← hset.maxCount]
    exact hlimits.count_le
  · have hmem : r ∈ g'.newestFirst := List.mem_reverse.mp hr
    have hallowed := hlimits.allows r.stretch (List.mem_map_of_mem hmem)
    have hle := hallowed.le
    rw [hset.maxLength, hlength] at hle
    exact ⟨hallowed.pos, hle, hlimits.inside r hmem, fun _ =>
      (Stretch.not_crosses_iff hallowed.pos).mp hallowed.uncrossed⟩

/-- In the last block of the address space a segment grows twice, and a second one is opened when it
would be too long. Then there is no room for a third, not even for a range that runs past the last
address. -/
theorem limits_after_calls_at_top :
    let calls : List Call := [.append ⟨⟨0x1000⟩, 0x5000⟩, .reset 0x4000,
      .append ⟨⟨0xffffffffffffc000⟩, 0x1000⟩, .append ⟨⟨0xffffffffffffd000⟩, 0x1000⟩,
      .append ⟨⟨0xffffffffffffe000⟩, 0x800⟩, .append ⟨⟨0xffffffffffffe800⟩, 0x1000⟩,
      .append ⟨⟨0xffffffffffffff00⟩, 0x1000⟩]
    ∃ g g' refusals, GatherList.new .ample 2 0x3000 0 = .ok g ∧ g.runAll calls = .ok (refusals, g') ∧
      refusals = [none, none, none, none, none, none, some .tooManySegments] ∧
      g'.segments = [⟨⟨0xffffffffffffc000⟩, 0x2800⟩, ⟨⟨0xffffffffffffe800⟩, 0x1000⟩] ∧
      g'.rules.boundary = 0x4000 ∧ g'.segments.length ≤ 2 ∧
      ∀ r ∈ g'.segments, 0 < r.length.toNat ∧ r.length.toNat ≤ 0x3000 ∧
        r.addr.word.toNat + r.length.toNat < 2 ^ 64 ∧
        (g'.rules.boundary ≠ 0 →
          r.addr.word.toNat / g'.rules.boundary.toNat =
            (r.addr.word.toNat + r.length.toNat - 1) / g'.rules.boundary.toNat) := by
  intro calls
  have hrun : ((GatherList.new .ample 2 0x3000 0).toOption.bind fun g =>
      (g.runAll calls).toOption.map fun (refusals, g') => (refusals, g'.segments)) =
      some ([none, none, none, none, none, none, some .tooManySegments],
        [⟨⟨0xffffffffffffc000⟩, 0x2800⟩, ⟨⟨0xffffffffffffe800⟩, 0x1000⟩]) := by
    decide +kernel
  obtain ⟨g, hg, hrun⟩ := Option.bind_eq_some_iff.mp hrun
  obtain ⟨⟨refusals, g'⟩, hg', hlast⟩ := Option.map_eq_some_iff.mp hrun
  obtain ⟨hrefusals, hsegments⟩ := Prod.mk.inj hlast
  have hnew := Checked.eq_ok_of_toOption hg
  have hcalls := Checked.eq_ok_of_toOption hg'
  obtain ⟨hboundary, hlength, hall⟩ := limits_after_calls hnew hcalls
  exact ⟨g, g', refusals, hnew, hcalls, hrefusals, hsegments, hboundary, hlength, hall⟩

end GatherList

end Aperture
