import Aperture.Proofs.Gather.Cutting
import Aperture.Shift

namespace Aperture

namespace Stretch

variable {s w : Stretch} {unit : Nat}

theorem shift_start (k : Nat) (s : Stretch) : (s.shift k).start = s.start + k := rfl

theorem shift_shift (j k : Nat) (s : Stretch) : (s.shift j).shift k = s.shift (j + k) :=
  congrArg (Stretch.mk · s.length) (Nat.add_assoc ..)

theorem shift_stop (k : Nat) (s : Stretch) : (s.shift k).stop = s.stop + k :=
  Nat.add_right_comm ..

theorem map_shift_shift {runs : List (Run .bus)} {ranges : List Stretch} {j : Nat} (k : Nat)
    (h : runs.map Run.stretch = ranges.map (shift j)) :
    runs.map (fun r => r.stretch.shift k) = ranges.map (shift (j + k)) := by
  have hboth := congrArg (List.map (shift k)) h
  rw [List.map_map, List.map_map] at hboth
  exact hboth.trans (List.map_congr_left fun s _ => shift_shift j k s)

theorem reach_of_not_crosses (h : ¬ s.Crosses unit) : s.reach unit = s.length := by
  by_cases hz : unit = 0
  · exact if_pos hz
  have hreach : s.reach unit = min s.length (unit - s.start % unit) := if_neg hz
  rw [hreach]
  refine Nat.min_eq_left (Nat.le_of_not_lt fun hlt => h ⟨s.start / unit + 1, ?_⟩)
  have hdiv := Nat.div_add_mod s.start unit
  have hmod := Nat.mod_lt s.start (Nat.pos_of_ne_zero hz)
  rw [Nat.succ_mul, Nat.mul_comm]
  unfold stop
  omega

theorem cut_of_not_crosses (hs : 0 < s.length) (h : ¬ s.Crosses unit) : s.cut unit = [s] := by
  rw [cut_eq_cons hs, reach_of_not_crosses h]
  exact congrArg _ (cut_of_empty (Nat.sub_self _))

theorem not_crosses_zero (s : Stretch) : ¬ s.Crosses 0 := by
  intro h
  obtain ⟨k, hlo, -⟩ := h
  rw [Nat.mul_zero] at hlo
  exact Nat.not_lt_zero _ hlo

theorem cut_shift (k : Nat) (s : Stretch) : (s.shift k).cut 0 = (s.cut 0).map (shift k) := by
  rcases Nat.eq_zero_or_pos s.length with hz | hs
  · rw [cut_of_empty hz, cut_of_empty (s := s.shift k) hz]
    rfl
  · rw [cut_of_not_crosses hs (not_crosses_zero _),
      cut_of_not_crosses (s := s.shift k) hs (not_crosses_zero _)]
    rfl

theorem chop_shift {size : Nat} (hpos : 0 < size) (k : Nat) (s : Stretch) :
    (s.shift k).chop size hpos = (s.chop size hpos).map (shift k) := by
  induction hn : s.length using Nat.strongRecOn generalizing s with
  | ind n ih =>
    rcases Nat.eq_zero_or_pos s.length with hz | hs
    · rw [chop_of_empty hz, chop_of_empty (s := s.shift k) hz]
      rfl
    rcases Nat.lt_or_ge size s.length with hlt | hle
    · have hrest := ih (s.length - size) (by omega) ⟨s.start + size, s.length - size⟩ rfl
      rw [chop_of_lt hlt, chop_of_lt (s := s.shift k) hlt, List.map_cons, ← hrest]
      simp only [shift, Nat.add_right_comm]
    · rw [chop_of_le hs hle, chop_of_le (s := s.shift k) hs hle]
      rfl

def StartsIn (s w : Stretch) : Prop := w.start ≤ s.start ∧ s.start < w.stop

theorem StartsIn.div_eq (h : ¬ w.Crosses unit) (hs : s.StartsIn w) :
    s.start / unit = w.start / unit := by
  obtain ⟨hlo, hhi⟩ := hs
  have hpart : ¬ Crosses ⟨w.start, s.start + 1 - w.start⟩ unit :=
    not_crosses_of_inside h (Nat.le_refl _)
      (by show w.start + (s.start + 1 - w.start) ≤ w.stop; omega)
  rw [not_crosses_iff (show 0 < s.start + 1 - w.start by omega)] at hpart
  have hend : (⟨w.start, s.start + 1 - w.start⟩ : Stretch).stop - 1 = s.start := by
    show w.start + (s.start + 1 - w.start) - 1 = s.start
    omega
  rw [hend] at hpart
  exact hpart.symm

end Stretch

namespace SegmentRules

variable {rules : SegmentRules} {built : List Stretch} {w range piece : Stretch}

/-- Without a boundary, the rules are the limits on the number and the length. -/
theorem unbounded_congr {rules' : SegmentRules} (hcount : rules.maxCount = rules'.maxCount)
    (hlength : rules.maxLength = rules'.maxLength) : rules.unbounded = rules'.unbounded := by
  obtain ⟨_, _, _, _, _, _⟩ := rules
  obtain ⟨_, _, _, _, _, _⟩ := rules'
  obtain rfl : _ = _ := hcount
  obtain rfl : _ = _ := hlength
  rfl

section Window

variable (huncrossed : ¬ w.Crosses rules.boundary.toNat)

include huncrossed

theorem joins_unbounded_iff {last : Stretch} (hlast : last.StartsIn w) (hpiece : piece.StartsIn w) :
    rules.unbounded.Joins last piece ↔ rules.Joins last piece := by
  have hblock : last.start / rules.boundary.toNat = piece.start / rules.boundary.toNat :=
    (hlast.div_eq huncrossed).trans (hpiece.div_eq huncrossed).symm
  constructor
  · intro h
    exact ⟨h.1, .inr hblock, h.2.2⟩
  · intro h
    exact ⟨h.1, .inl rfl, h.2.2⟩

theorem addPiece_unbounded (hbuilt : ∀ s ∈ built, s.StartsIn w) (hpiece : piece.StartsIn w) :
    rules.unbounded.addPiece built piece = rules.addPiece built piece := by
  cases built with
  | nil => rfl
  | cons last older =>
    have hjoins := joins_unbounded_iff huncrossed (hbuilt last (by simp)) hpiece
    by_cases hj : rules.Joins last piece
    · rw [addPiece_of_joins hj, addPiece_of_joins (hjoins.mpr hj)]
    · rw [addPiece_of_not_grows (mt grows_cons_iff.mp hj),
        addPiece_of_not_grows (mt grows_cons_iff.mp (mt hjoins.mp hj))]
      rfl

theorem addRange_unbounded (hbuilt : ∀ s ∈ built, s.StartsIn w) (hpos : 0 < range.length)
    (hstart : w.start ≤ range.start) (hstop : range.stop ≤ w.stop) :
    rules.unbounded.addRange built range = rules.addRange built range := by
  have hin : range.StartsIn w := ⟨hstart, by unfold Stretch.stop at *; omega⟩
  have hcut := Stretch.cut_of_not_crosses hpos
    (Stretch.not_crosses_of_inside huncrossed hstart hstop)
  have hcut' : range.cut rules.unbounded.boundary.toNat = [range] :=
    Stretch.cut_of_not_crosses hpos (Stretch.not_crosses_zero _)
  rw [addRange, addRange, hcut, hcut']
  exact addPiece_unbounded huncrossed hbuilt hin

end Window

theorem forall_startsIn_addPiece (hbuilt : ∀ s ∈ built, s.StartsIn w)
    (hstart : w.start ≤ piece.start) (hstop : piece.stop ≤ w.stop) :
    ∀ s ∈ rules.addPiece built piece, s.StartsIn w := by
  intro s hs
  by_cases h : rules.Grows built piece
  · obtain ⟨last, older, rfl, hj⟩ := h
    rw [addPiece_of_joins hj] at hs
    cases List.mem_cons.mp hs with
    | inl he =>
      subst he
      exact hbuilt last (by simp)
    | inr hold => exact hbuilt s (List.mem_cons_of_mem _ hold)
  · rw [addPiece_of_not_grows h] at hs
    cases List.mem_append.mp hs with
    | inl hnew =>
      obtain ⟨hpos, -, hlo, hhi⟩ := Stretch.forall_mem_chop s (List.mem_reverse.mp hnew)
      have hfirst : s.start < s.stop := Nat.lt_add_of_pos_right hpos
      exact ⟨Nat.le_trans hstart hlo, Nat.lt_of_lt_of_le hfirst (Nat.le_trans hhi hstop)⟩
    | inr hold => exact hbuilt s hold

/-- In a window that crosses no boundary the boundary makes no difference. -/
theorem segmentsOf_unbounded {ranges : List Stretch}
    (huncrossed : ¬ w.Crosses rules.boundary.toNat)
    (hranges : ∀ r ∈ ranges, 0 < r.length ∧ w.start ≤ r.start ∧ r.stop ≤ w.stop) :
    rules.unbounded.segmentsOf ranges = rules.segmentsOf ranges := by
  have hfold {built : List Stretch} (hbuilt : ∀ s ∈ built, s.StartsIn w) :
      ranges.foldl rules.unbounded.addRange built = ranges.foldl rules.addRange built := by
    induction ranges generalizing built with
    | nil => rfl
    | cons r ranges ih =>
      obtain ⟨hpos, hstart, hstop⟩ := hranges r (by simp)
      rw [List.foldl_cons, List.foldl_cons,
        addRange_unbounded huncrossed hbuilt hpos hstart hstop]
      refine ih (fun r' hr' => hranges r' (by simp [hr'])) ?_
      rw [addRange, Stretch.cut_of_not_crosses hpos
        (Stretch.not_crosses_of_inside huncrossed hstart hstop)]
      exact forall_startsIn_addPiece hbuilt hstart hstop
  rw [segmentsOf, segmentsOf, hfold fun s hs => by cases hs]

section Shift

variable (k : Nat)

theorem joins_shift_iff {last : Stretch} :
    rules.unbounded.Joins (last.shift k) (piece.shift k) ↔ rules.unbounded.Joins last piece := by
  unfold Joins
  rw [Stretch.shift_stop, Stretch.shift_start, Nat.add_right_cancel_iff]
  exact and_congr_right fun _ => and_congr_left fun _ => iff_of_true (.inl rfl) (.inl rfl)

theorem addPiece_shift (built : List Stretch) (piece : Stretch) :
    rules.unbounded.addPiece (built.map (Stretch.shift k)) (piece.shift k) =
      (rules.unbounded.addPiece built piece).map (Stretch.shift k) := by
  cases built with
  | nil =>
    show ((piece.shift k).chop _ _).reverse = _
    rw [Stretch.chop_shift, ← List.map_reverse]
    rfl
  | cons last older =>
    have hjoins : rules.unbounded.Joins (last.shift k) (piece.shift k) ↔
        rules.unbounded.Joins last piece := joins_shift_iff k
    rw [List.map_cons]
    by_cases hj : rules.unbounded.Joins last piece
    · rw [addPiece_of_joins hj, addPiece_of_joins (hjoins.mpr hj)]
      rfl
    · rw [addPiece_of_not_grows (mt grows_cons_iff.mp hj),
        addPiece_of_not_grows (mt grows_cons_iff.mp (mt hjoins.mp hj)), Stretch.chop_shift,
        List.map_append, List.map_reverse, List.map_cons]

theorem addRange_shift (built : List Stretch) (range : Stretch) :
    rules.unbounded.addRange (built.map (Stretch.shift k)) (range.shift k) =
      (rules.unbounded.addRange built range).map (Stretch.shift k) := by
  have hcut : (range.shift k).cut rules.unbounded.boundary.toNat =
      (range.cut rules.unbounded.boundary.toNat).map (Stretch.shift k) := Stretch.cut_shift k range
  rw [addRange, addRange, hcut]
  induction range.cut rules.unbounded.boundary.toNat generalizing built with
  | nil => rfl
  | cons piece pieces ih =>
    rw [List.map_cons, List.foldl_cons, List.foldl_cons, addPiece_shift, ih]

theorem segmentsOf_shift (ranges : List Stretch) :
    rules.unbounded.segmentsOf (ranges.map (Stretch.shift k)) =
      (rules.unbounded.segmentsOf ranges).map (Stretch.shift k) := by
  have hfold (built : List Stretch) :
      (ranges.map (Stretch.shift k)).foldl rules.unbounded.addRange (built.map (Stretch.shift k)) =
        (ranges.foldl rules.unbounded.addRange built).map (Stretch.shift k) := by
    induction ranges generalizing built with
    | nil => rfl
    | cons range ranges ih =>
      rw [List.map_cons, List.foldl_cons, List.foldl_cons, addRange_shift, ih]
  rw [segmentsOf, segmentsOf, List.map_reverse]
  exact congrArg List.reverse (hfold [])

end Shift

end SegmentRules

end Aperture
