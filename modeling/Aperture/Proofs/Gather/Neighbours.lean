import Aperture.Proofs.Gather.Account
import Mathlib.Data.List.Chain

namespace Aperture

namespace SegmentRules

variable {rules : SegmentRules} {built older : List Stretch} {last piece : Stretch}

/-- A range that goes on after its first piece goes on in the next boundary block. -/
theorem div_after_room {a : BusAddr} {n : Nat} (hlong : rules.room a < n) (hlt : n < 2 ^ 64) :
    rules.boundary.toNat ≠ 0 ∧ (a.word.toNat + rules.room a) / rules.boundary.toNat =
      a.word.toNat / rules.boundary.toNat + 1 := by
  rcases rules.room_cases a with ⟨-, hroom⟩ | ⟨hne, -, hroom⟩
  · omega
  · rw [hroom]
    exact ⟨hne, Nat.mul_div_cancel _ (Nat.pos_of_ne_zero hne)⟩

/-- No segment and the one after it may be one; the last segment comes first. -/
def Apart (rules : SegmentRules) (built : List Stretch) : Prop :=
  built.IsChain fun newer older => ¬ rules.Joins older newer

/-- The last segment may grow: it starts where it did and is only longer. -/
theorem Apart.grow (h : rules.Apart (last :: older)) (k : Nat) :
    rules.Apart (⟨last.start, last.length + k⟩ :: older) := by
  cases older with
  | nil => exact .singleton _
  | cons before older =>
    obtain ⟨hlast, holder⟩ := List.isChain_cons_cons.mp h
    exact List.isChain_cons_cons.mpr
      ⟨fun hjoins => hlast (hjoins.front (Nat.le_add_right ..)), holder⟩

/-- A segment that is opened with part of a piece, the whole of which the last one cannot take. -/
theorem Apart.push (h : rules.Apart built) (hpos : ∀ s ∈ built, 0 < s.length)
    (hgrows : ¬ rules.Grows built piece) :
    rules.Apart (⟨piece.start, min piece.length rules.maxLength.toNat⟩ :: built) := by
  cases built with
  | nil => exact .singleton _
  | cons last older =>
    refine List.isChain_cons_cons.mpr ⟨fun hjoins => ?_, h⟩
    rcases Nat.le_total piece.length rules.maxLength.toNat with hle | hle
    · rw [Nat.min_eq_left hle] at hjoins
      exact hgrows (grows_cons_iff.mpr hjoins)
    · -- the part is as long as a segment may be, and the last one is not empty
      rw [Nat.min_eq_right hle] at hjoins
      have hlast := hpos last (by simp)
      have hfits : last.length + rules.maxLength.toNat ≤ rules.maxLength.toNat := hjoins.2.2
      omega

end SegmentRules

namespace GatherList

variable {g g' grown : GatherList} {a next : BusAddr} {n : Nat} {last : Run .bus}
  {older : List (Run .bus)} {out : GatherList × Option Refusal}

theorem Appends.apart (h : Appends g a n out) (hnone : g.NoneEmpty)
    (hg : g.rules.Apart g.built) : out.1.rules.Apart out.1.built := by
  induction h with
  | done => exact hg
  | full => exact hg
  | grow _ hgrown hjoins _ _ ih =>
    refine ih (hnone.grow hgrown hjoins) ?_
    rw [hgrown.rules, built, hgrown.after, List.map_cons, stretch_grown hjoins]
    rw [built, hgrown.before] at hg
    exact hg.grow _
  | @push g a next n out hpos hgrow _ _ _ ih =>
    obtain ⟨hpart, hlt⟩ := part_lt g.rules a hpos
    refine ih (hnone.push a hpart hlt) ?_
    rw [built_push, Run.stretch_ofNat hlt]
    refine hg.push (fun s hs => ?_) (mt canGrow_iff.mpr hgrow)
    obtain ⟨r, hr, rfl⟩ := List.mem_map.mp hs
    exact hnone r hr

/-- A segment and the one after it could not be one. -/
theorem not_joins_of_apart (h : g.rules.Apart g.built) {i : Nat} {s s' : Run .bus}
    (hs : g.segments[i]? = some s) (hs' : g.segments[i + 1]? = some s') :
    ¬ g.rules.Joins s.stretch s'.stretch := by
  have hchain : (g.segments.map Run.stretch).IsChain fun s s' => ¬ g.rules.Joins s s' := by
    rw [map_stretch_segments, List.isChain_reverse]
    exact h
  obtain ⟨hi, rfl⟩ := List.getElem?_eq_some_iff.mp hs
  obtain ⟨hi', rfl⟩ := List.getElem?_eq_some_iff.mp hs'
  have hpair := List.isChain_iff_getElem.mp hchain i (by rw [List.length_map]; exact hi')
  rw [List.getElem_map, List.getElem_map] at hpair
  exact hpair

/-- Once the last segment has taken the first piece of a range, it takes no more of it. -/
theorem not_canGrow_after (hgrown : grown.GrownFrom g (min n (g.rules.room a)) last older)
    (hjoins : g.rules.Joins last.stretch ⟨a.word.toNat, min n (g.rules.room a)⟩)
    (hnext : next.word.toNat = a.word.toNat + min n (g.rules.room a)) (hlt : n < 2 ^ 64)
    (hrest : 0 < n - min n (g.rules.room a)) (piece : Nat) : ¬ grown.CanGrow next piece := by
  have hlong : g.rules.room a < n := by omega
  obtain ⟨hne, hblock⟩ := SegmentRules.div_after_room hlong hlt
  intro hgrow
  obtain ⟨s, rest, hs, hjoins'⟩ := hgrow
  obtain ⟨rfl, -⟩ := List.cons.inj (hgrown.after.symm.trans hs)
  rw [hgrown.rules] at hjoins'
  rw [Nat.min_eq_right (Nat.le_of_lt hlong)] at hnext
  -- the last segment and the first piece share a block, and what comes next is in another one
  have hsame := hjoins.2.1.resolve_left hne
  have hsame' : last.stretch.start / g.rules.boundary.toNat =
      next.word.toNat / g.rules.boundary.toNat := hjoins'.2.1.resolve_left hne
  rw [hnext, hblock] at hsame'
  exact absurd (hsame.symm.trans hsame') (Nat.ne_of_lt (Nat.lt_succ_self _))

/-- A range whose first piece the last segment cannot take leaves all segments as they are. -/
theorem Appends.keeps_newest (h : Appends g a n out)
    (hstuck : 0 < n → ¬ g.CanGrow a (min n (g.rules.room a))) :
    ∃ more, out.1.newestFirst = more ++ g.newestFirst := by
  cases h with
  | done => exact ⟨[], rfl⟩
  | full => exact ⟨[], rfl⟩
  | grow hpos hgrown hjoins => exact absurd ⟨_, _, hgrown.before, hjoins⟩ (hstuck hpos)
  | push _ _ _ _ hrest =>
    obtain ⟨more, opened, hout, -⟩ := hrest.keeps_older rfl
    exact ⟨more ++ [opened], by rw [hout]; simp⟩

/-- The last segment stays as it is, or takes the first piece of the range and no more. -/
theorem Appends.last_whole (h : Appends g a n out) (hlt : n < 2 ^ 64)
    (hlast : g.newestFirst = last :: older) :
    ∃ more s, out.1.newestFirst = more ++ s :: older ∧
      (s = last ∨ s.addr = last.addr ∧
        s.length.toNat = last.length.toNat + min n (g.rules.room a)) := by
  by_cases hstuck : 0 < n → ¬ g.CanGrow a (min n (g.rules.room a))
  · obtain ⟨more, hout⟩ := h.keeps_newest hstuck
    exact ⟨more, last, hout.trans (by rw [hlast]), .inl rfl⟩
  cases h with
  | done => exact ⟨[], last, hlast, .inl rfl⟩
  | full => exact ⟨[], last, hlast, .inl rfl⟩
  | push hpos hgrow => exact absurd (fun _ => hgrow) hstuck
  | grow hpos hgrown hjoins hnext hrest =>
    obtain ⟨rfl, rfl⟩ := List.cons.inj (hgrown.before.symm.trans hlast)
    obtain ⟨more, hout⟩ := hrest.keeps_newest fun hmore =>
      not_canGrow_after hgrown hjoins hnext hlt hmore _
    rw [hgrown.after] at hout
    exact ⟨more, _, hout, .inr ⟨rfl, congrArg Stretch.length (stretch_grown hjoins)⟩⟩

/-- In a list that calls on a new one have left, refused or not, a segment that follows directly on
the one before it, in the same boundary block, would make it too long. And an append leaves the last
segment as it is, or gives it all of the range up to the next boundary. -/
theorem neighbours_apart {storage : Storage} {maxCount maxLength boundary : Word}
    (hnew : GatherList.new storage maxCount maxLength boundary = .ok g) {cs : List Call}
    {refusals : List (Option Refusal)} (hrun : g.runAll cs = .ok (refusals, g')) :
    g'.rules.boundary = boundaryAfter boundary cs ∧
    (∀ i s s', g'.segments[i]? = some s → g'.segments[i + 1]? = some s' →
      s.stretch.stop = s'.stretch.start →
      (g'.rules.boundary.toNat = 0 ∨ s.addr.word.toNat / g'.rules.boundary.toNat =
        s'.addr.word.toNat / g'.rules.boundary.toNat) →
      maxLength.toNat < s.length.toNat + s'.length.toNat) ∧
    ∀ (r : Run .bus) (grown : GatherList) (refusal : Option Refusal),
      g'.append r = .ok (grown, refusal) → ∀ last, g'.segments.getLast? = some last →
      ∃ s, grown.segments[g'.segments.length - 1]? = some s ∧
        (s = last ∨ s.addr = last.addr ∧ s.length.toNat =
          last.length.toNat + (r.stretch.firstPiece g'.rules.boundary.toNat).length) := by
  obtain ⟨rules, rfl, -, hlength, hboundary⟩ := new_eq_ok hnew
  have hset := runAll_setTo hrun
  have hmax : g'.rules.maxLength = maxLength := hset.maxLength.trans hlength
  have hnothing (rules : SegmentRules) :
      (empty rules).NoneEmpty ∧ rules.Apart (empty rules).built :=
    ⟨fun r hr => (by cases hr), .nil⟩
  have hkept : g'.NoneEmpty ∧ g'.rules.Apart g'.built :=
    runAll_keeps (P := fun g => g.NoneEmpty ∧ g.rules.Apart g.built) hnothing
      (fun h hg => ⟨h.noneEmpty hg.1, h.apart hg.1 hg.2⟩) hrun (hnothing rules)
  refine ⟨hboundary ▸ hset.boundary, fun i s s' hs hs' hmeet hblock => ?_,
    fun r grown refusal happend last hlast => ?_⟩
  · have hjoins := not_joins_of_apart hkept.2 hs hs'
    by_contra hle
    rw [← hmax] at hle
    exact hjoins ⟨hmeet, hblock, Nat.le_of_not_lt hle⟩
  · rw [segments_getLast?] at hlast
    obtain ⟨older, hlast⟩ := List.head?_eq_some_iff.mp hlast
    have happends : Appends g' r.addr r.length.toNat (grown, refusal) :=
      appends_of_appendFrom happend
    obtain ⟨more, s, hout, hs⟩ := happends.last_whole r.length.isLt hlast
    have hbelow : g'.segments.length - 1 = older.length := by rw [segments, hlast]; simp
    rw [hbelow, Run.stretch, SegmentRules.firstPiece_eq _ _ r.length.isLt]
    exact ⟨s, (getElem?_segments_of_newestFirst hout).1, hs⟩

/-- Two segments that could not be one, the second right after the first: it takes the next range up
to the boundary, and the rest of that range opens a third. -/
theorem neighbours_apart_in_block :
    let calls : List Call := [.append ⟨⟨0x1000⟩, 0x5000⟩, .reset 0x4000,
      .append ⟨⟨0x4000⟩, 0x2800⟩, .append ⟨⟨0x6800⟩, 0x1000⟩]
    let range : Run .bus := ⟨⟨0x7800⟩, 0x1000⟩
    ∃ g g' refusals grown, GatherList.new .ample 3 0x3000 0 = .ok g ∧
      g.runAll calls = .ok (refusals, g') ∧ g'.append range = .ok (grown, none) ∧
      g'.segments = [⟨⟨0x4000⟩, 0x2800⟩, ⟨⟨0x6800⟩, 0x1000⟩] ∧
      grown.segments = [⟨⟨0x4000⟩, 0x2800⟩, ⟨⟨0x6800⟩, 0x1800⟩, ⟨⟨0x8000⟩, 0x800⟩] ∧
      0x3000 < 0x2800 + 0x1000 ∧
      ∃ s, grown.segments[1]? = some s ∧ (s = ⟨⟨0x6800⟩, 0x1000⟩ ∨ s.addr = ⟨0x6800⟩ ∧
        s.length.toNat = 0x1000 + (range.stretch.firstPiece 0x4000).length) := by
  intro calls range
  have hrun : ((GatherList.new .ample 3 0x3000 0).toOption.bind fun g =>
      (g.runAll calls).toOption.bind fun (_, g') =>
        (g'.append range).toOption.map fun out =>
          (out.2, g'.segments, out.1.segments)) =
      some (none, [⟨⟨0x4000⟩, 0x2800⟩, ⟨⟨0x6800⟩, 0x1000⟩],
        [⟨⟨0x4000⟩, 0x2800⟩, ⟨⟨0x6800⟩, 0x1800⟩, ⟨⟨0x8000⟩, 0x800⟩]) := by
    decide +kernel
  obtain ⟨g, hg, hrun⟩ := Option.bind_eq_some_iff.mp hrun
  obtain ⟨⟨refusals, g'⟩, hg', hrun⟩ := Option.bind_eq_some_iff.mp hrun
  obtain ⟨⟨grown, refusal⟩, hgrown, hlast⟩ := Option.map_eq_some_iff.mp hrun
  obtain ⟨rfl, hsegments⟩ := Prod.mk.inj hlast
  obtain ⟨hbefore, hafter⟩ := Prod.mk.inj hsegments
  have hnew := Checked.eq_ok_of_toOption hg
  have hcalls := Checked.eq_ok_of_toOption hg'
  have happend := Checked.eq_ok_of_toOption hgrown
  obtain ⟨hboundary, hapart, hwhole⟩ := neighbours_apart hnew hcalls
  have hboundary : g'.rules.boundary = 0x4000 := hboundary
  rw [hboundary, hbefore] at hapart hwhole
  exact ⟨g, g', refusals, grown, hnew, hcalls, happend, hbefore, hafter,
    hapart 0 _ _ rfl rfl rfl (.inr rfl), hwhole range grown none happend _ rfl⟩

end GatherList

end Aperture
