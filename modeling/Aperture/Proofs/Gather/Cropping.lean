import Aperture.Proofs.Gather.Limits

namespace Aperture

namespace SegmentRules

variable {rules : SegmentRules}

theorem addPiece_keeps (rules : SegmentRules) (newer : List Stretch) (s : Stretch)
    (older : List Stretch) (piece : Stretch) :
    ∃ newer' s', rules.addPiece (newer ++ s :: older) piece = newer' ++ s' :: older := by
  by_cases h : rules.Grows (newer ++ s :: older) piece
  · obtain ⟨last, rest, heq, hjoins⟩ := h
    rw [heq, addPiece_of_joins hjoins]
    cases newer with
    | nil =>
      obtain ⟨-, rfl⟩ := List.cons.inj heq
      exact ⟨[], _, rfl⟩
    | cons newest newer =>
      obtain ⟨-, rfl⟩ := List.cons.inj heq
      exact ⟨_ :: newer, s, rfl⟩
  · rw [addPiece_of_not_grows h]
    exact ⟨_ ++ newer, s, (List.append_assoc ..).symm⟩

theorem addRange_keeps (rules : SegmentRules) (s : Stretch) (older : List Stretch)
    (range : Stretch) : ∃ newer s', rules.addRange (s :: older) range = newer ++ s' :: older := by
  have hfold (pieces newer : List Stretch) (s : Stretch) : ∃ newer' s',
      pieces.foldl rules.addPiece (newer ++ s :: older) = newer' ++ s' :: older := by
    induction pieces generalizing newer s with
    | nil => exact ⟨newer, s, rfl⟩
    | cons piece pieces ih =>
      obtain ⟨newer', s', hpiece⟩ := rules.addPiece_keeps newer s older piece
      rw [List.foldl_cons, hpiece]
      exact ih newer' s'
  exact hfold (range.cut rules.boundary.toNat) [] s

/-- Where there are more than `count` segments, the first `count` of them are there to stay. -/
theorem take_reverse_addRange {built : List Stretch} {count : Nat} (h : count < built.length)
    (range : Stretch) :
    (rules.addRange built range).reverse.take count = built.reverse.take count := by
  obtain ⟨s, older, rfl⟩ := List.exists_cons_of_length_pos (Nat.zero_lt_of_lt h)
  obtain ⟨newer, s', hrange⟩ := rules.addRange_keeps s older range
  have hle : count ≤ older.reverse.length := by
    rw [List.length_reverse]
    exact Nat.le_of_lt_succ h
  rw [hrange, List.reverse_append, List.reverse_cons, List.reverse_cons, List.append_assoc,
    List.take_append_of_le_length hle, List.take_append_of_le_length hle]

end SegmentRules

namespace GatherList

variable {g h : GatherList} {a : BusAddr} {n : Nat} {out out' : GatherList × Option Refusal}

theorem stretch_injective : Function.Injective (Run.stretch (s := .bus)) := by
  intro r r' h
  obtain ⟨⟨start⟩, length⟩ := r
  obtain ⟨⟨start'⟩, length'⟩ := r'
  obtain ⟨hstart, hlength⟩ := Stretch.mk.inj h
  obtain rfl : start = start' := BitVec.eq_of_toNat_eq hstart
  obtain rfl : length = length' := BitVec.eq_of_toNat_eq hlength
  rfl

theorem eq_of_stretches (hrules : g.rules = h.rules)
    (hsegments : g.segments.map Run.stretch = h.segments.map Run.stretch) : g = h :=
  eq_of_newestFirst hrules
    (List.reverse_injective (stretch_injective.list_map hsegments))

/-- The list has the first of the segments `target` that the merge rule makes, all of them unless
there are too many; then the append is refused. -/
structure Crops (rules : SegmentRules) (target : List Stretch)
    (out : GatherList × Option Refusal) : Prop where
  sameRules : out.1.rules = rules
  segments : out.1.segments.map Run.stretch = target.reverse.take rules.maxCount.toNat
  refusal : out.2 = if target.length ≤ rules.maxCount.toNat then none else some .tooManySegments

theorem Crops.unique {rules : SegmentRules} {target : List Stretch} (hout : Crops rules target out)
    (hout' : Crops rules target out') : out = out' := by
  refine Prod.ext (eq_of_stretches (hout.sameRules.trans hout'.sameRules.symm) ?_) ?_
  · rw [hout.segments, hout'.segments]
  · rw [hout.refusal, hout'.refusal]

theorem Crops.built_eq {rules : SegmentRules} {target : List Stretch}
    (h : Crops rules target (g, none)) : g.built = target := by
  have hrefusal := h.refusal
  split at hrefusal
  · next hfew =>
    have hsegments := h.segments
    rw [map_stretch_segments, List.take_of_length_le (by rw [List.length_reverse]; exact hfew)]
      at hsegments
    exact List.reverse_injective hsegments
  · cases hrefusal

theorem Crops.many {rules : SegmentRules} {target : List Stretch} {reason : Refusal}
    (h : Crops rules target (g, some reason)) : rules.maxCount.toNat < target.length := by
  refine Nat.lt_of_not_le fun hfew => ?_
  have hrefusal := h.refusal
  rw [if_pos hfew] at hrefusal
  cases hrefusal

theorem Crops.addRange {rules : SegmentRules} {target : List Stretch}
    (hout : Crops rules target out) (hmany : rules.maxCount.toNat < target.length)
    (range : Stretch) : Crops rules (rules.addRange target range) out := by
  have hmore := Nat.lt_of_lt_of_le hmany (rules.length_le_addRange target range)
  refine ⟨hout.sameRules, ?_, ?_⟩
  · rw [hout.segments, SegmentRules.take_reverse_addRange hmany]
  · rw [hout.refusal, if_neg (Nat.not_le_of_lt hmany), if_neg (Nat.not_le_of_lt hmore)]

theorem Appends.crops (h : Appends g a n out) (hcount : g.count ≤ g.rules.maxCount.toNat)
    (hlt : n < 2 ^ 64) (hfit : a.word.toNat + n ≤ 2 ^ 64) :
    Crops g.rules (g.rules.addRange g.built ⟨a.word.toNat, n⟩) out := by
  induction h with
  | done g a =>
    have hall : g.built.length ≤ g.rules.maxCount.toNat := g.length_built ▸ hcount
    rw [SegmentRules.addRange_of_empty (s := ⟨a.word.toNat, 0⟩) rfl]
    refine ⟨rfl, ?_, (if_pos hall).symm⟩
    rw [map_stretch_segments, List.take_of_length_le (by rw [List.length_reverse]; exact hall)]
  | @grow g grown a next n last older out hpos hgrown hjoins hnext hrest ih =>
    have hfew : grown.count ≤ grown.rules.maxCount.toNat := by
      rw [hgrown.count_eq, hgrown.rules]
      exact hcount
    have hreach : min n (g.rules.room a) = _ := SegmentRules.min_room_eq_reach hlt hfit
    have hcrops := ih hfew (by omega) (by omega)
    rw [hgrown.rules, hgrown.built_eq hjoins, hnext, hreach] at hcrops
    rw [SegmentRules.addRange_of_pos g.rules g.built hpos]
    exact hcrops
  | @full g a n hpos hgrow hfull =>
    have hopens := canGrow_iff.not.mp hgrow
    rw [SegmentRules.min_room_eq_reach hlt hfit] at hopens
    have hlength : g.built.reverse.length = g.rules.maxCount.toNat := by
      rw [List.length_reverse, length_built]
      exact Nat.le_antisymm hcount hfull
    have hmore := SegmentRules.length_lt_addRange (s := ⟨a.word.toNat, n⟩) hpos hopens
    rw [← List.length_reverse, hlength] at hmore
    refine ⟨rfl, ?_, (if_neg (Nat.not_le_of_lt hmore)).symm⟩
    rw [SegmentRules.addRange_of_not_grows (s := ⟨a.word.toNat, n⟩) hpos hopens,
      SegmentRules.take_reverse_addRange (by rw [List.length_cons, ← hlength]; simp),
      List.reverse_cons, List.take_left' hlength, map_stretch_segments]
  | @push g a next n out hpos hgrow hroom hnext hrest ih =>
    obtain ⟨-, hpart⟩ := part_lt g.rules a hpos
    have hopens := canGrow_iff.not.mp hgrow
    rw [SegmentRules.min_room_eq_reach hlt hfit] at hopens
    have hcrops := ih hroom (by omega) (by omega)
    rw [built_push, Run.stretch_ofNat hpart, hnext,
      SegmentRules.min_room_eq_reach hlt hfit] at hcrops
    rw [SegmentRules.addRange_of_not_grows (s := ⟨a.word.toNat, n⟩) hpos hopens]
    exact hcrops

end GatherList

end Aperture
