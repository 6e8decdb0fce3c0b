import Aperture.Gather.Pieces
import Aperture.Word.Rounding

namespace Aperture

namespace Stretch

theorem not_crosses_iff {s : Stretch} {unit : Nat} (hs : 0 < s.length) :
    ¬ s.Crosses unit ↔ s.start / unit = (s.stop - 1) / unit := by
  rcases Nat.eq_zero_or_pos unit with hz | hpos
  · simp [Crosses, hz]
  have hmono : s.start / unit ≤ (s.stop - 1) / unit :=
    Nat.div_le_div_right (by unfold stop; omega)
  constructor
  · intro h
    by_contra hne
    refine h ⟨(s.stop - 1) / unit, ?_, ?_⟩
    · exact (Nat.div_lt_iff_lt_mul hpos).mp (by omega)
    · have := Nat.div_mul_le_self (s.stop - 1) unit
      unfold stop at *
      omega
  · intro h hcross
    obtain ⟨k, hlo, hhi⟩ := hcross
    have hfirst := (Nat.div_lt_iff_lt_mul hpos).mpr hlo
    have hlast := (Nat.le_div_iff_mul_le hpos).mpr (show k * unit ≤ s.stop - 1 by omega)
    omega

/-- Nothing that lies inside a stretch crosses what the stretch does not. -/
theorem not_crosses_of_inside {s t : Stretch} {unit : Nat} (h : ¬ s.Crosses unit)
    (hstart : s.start ≤ t.start) (hstop : t.stop ≤ s.stop) : ¬ t.Crosses unit := by
  intro hcross
  obtain ⟨k, hlo, hhi⟩ := hcross
  exact h ⟨k, by omega, by omega⟩

theorem stop_merge {last piece : Stretch} (hmeet : last.stop = piece.start) :
    (⟨last.start, last.length + piece.length⟩ : Stretch).stop = piece.stop := by
  show last.start + (last.length + piece.length) = piece.start + piece.length
  rw [← hmeet, stop, Nat.add_assoc]

/-- A piece that crosses no multiple and goes on in the block of the stretch before it. -/
theorem not_crosses_merge {last piece : Stretch} {unit : Nat} (hmeet : last.stop = piece.start)
    (hblock : unit = 0 ∨ last.start / unit = piece.start / unit) (hpiece : 0 < piece.length)
    (h : ¬ piece.Crosses unit) : ¬ Crosses ⟨last.start, last.length + piece.length⟩ unit := by
  rw [not_crosses_iff hpiece] at h
  rw [not_crosses_iff (Nat.add_pos_right _ hpiece)]
  rw [stop_merge hmeet, ← h]
  cases hblock with
  | inl hz => simp [hz]
  | inr heq => exact heq

def reach (unit : Nat) (s : Stretch) : Nat :=
  if unit = 0 then s.length else min s.length (unit - s.start % unit)

theorem reach_le (unit : Nat) (s : Stretch) : s.reach unit ≤ s.length := by
  unfold reach
  split <;> omega

theorem reach_pos (unit : Nat) {s : Stretch} (hs : 0 < s.length) : 0 < s.reach unit := by
  unfold reach
  split
  · exact hs
  · have := Nat.mod_lt s.start (show 0 < unit by omega)
    omega

theorem reach_not_crosses {unit : Nat} {s : Stretch} (hs : 0 < s.length) :
    ¬ Crosses ⟨s.start, s.reach unit⟩ unit := by
  have hpos := reach_pos unit hs
  rw [not_crosses_iff (show 0 < (⟨s.start, s.reach unit⟩ : Stretch).length from hpos)]
  show s.start / unit = (s.start + s.reach unit - 1) / unit
  unfold reach at *
  split at hpos
  · next hz => simp [hz]
  · next hne =>
    rw [if_neg hne]
    have hunit : 0 < unit := by omega
    have hmod := Nat.mod_lt s.start hunit
    have hdiv := Nat.div_add_mod s.start unit
    refine (Nat.div_eq_of_lt_le ?_ ?_).symm
    · have := Nat.div_mul_le_self s.start unit
      omega
    · rw [Nat.succ_mul, Nat.mul_comm]
      omega

theorem cut_of_empty {unit : Nat} {s : Stretch} (hs : s.length = 0) : s.cut unit = [] := by
  rw [cut, if_pos hs]

theorem cut_eq_cons {unit : Nat} {s : Stretch} (hs : 0 < s.length) :
    s.cut unit = ⟨s.start, s.reach unit⟩ ::
      cut unit ⟨s.start + s.reach unit, s.length - s.reach unit⟩ := by
  have hlast (h : s.reach unit = s.length) : [s] = ⟨s.start, s.reach unit⟩ ::
      cut unit ⟨s.start + s.reach unit, s.length - s.reach unit⟩ := by
    rw [cut_of_empty (show s.length - s.reach unit = 0 by omega), h]
  rw [cut, if_neg (by omega)]
  by_cases hz : unit = 0
  · rw [if_pos hz]
    exact hlast (if_pos hz)
  rw [if_neg hz]
  simp only
  by_cases hle : s.length ≤ unit - s.start % unit
  · rw [if_pos hle]
    exact hlast ((if_neg hz).trans (Nat.min_eq_left hle))
  · have hreach : s.reach unit = unit - s.start % unit :=
      (if_neg hz).trans (Nat.min_eq_right (by omega))
    rw [if_neg hle, hreach]

/-- Taking bytes off the front of the first piece leaves the rest of the pieces as they are. -/
theorem reach_of_part {unit part : Nat} {s : Stretch} (hpart : part < s.reach unit) :
    reach unit ⟨s.start + part, s.length - part⟩ = s.reach unit - part := by
  by_cases hz : unit = 0
  · simp [reach, hz]
  · have hreach : s.reach unit = min s.length (unit - s.start % unit) := if_neg hz
    rw [hreach] at hpart ⊢
    have hmod : (s.start + part) % unit = s.start % unit + part := by
      rw [Nat.add_mod, Nat.mod_eq_of_lt (show part < unit by omega), Nat.mod_eq_of_lt (by omega)]
    rw [reach, if_neg hz, hmod]
    show min (s.length - part) (unit - (s.start % unit + part)) = _
    omega

theorem forall_mem_cut (unit : Nat) (s : Stretch) :
    ∀ piece ∈ s.cut unit, 0 < piece.length ∧ ¬ piece.Crosses unit := by
  induction hn : s.length using Nat.strongRecOn generalizing s with
  | ind n ih =>
    rcases Nat.eq_zero_or_pos s.length with hz | hpos
    · rw [cut_of_empty hz]
      simp
    · rw [cut_eq_cons hpos]
      have hreach := reach_pos unit hpos
      intro piece hpiece
      cases List.mem_cons.mp hpiece with
      | inl he =>
        subst he
        exact ⟨hreach, reach_not_crosses hpos⟩
      | inr hrest => exact ih (s.length - s.reach unit) (by omega) _ rfl piece hrest

theorem chop_of_empty {size : Nat} {hpos : 0 < size} {s : Stretch} (hs : s.length = 0) :
    s.chop size hpos = [] := by
  rw [chop, if_pos hs]

theorem chop_of_le {size : Nat} {hpos : 0 < size} {s : Stretch} (hs : 0 < s.length)
    (hle : s.length ≤ size) : s.chop size hpos = [s] := by
  rw [chop, if_neg (by omega), if_pos hle]

theorem chop_of_lt {size : Nat} {hpos : 0 < size} {s : Stretch} (hlt : size < s.length) :
    s.chop size hpos = ⟨s.start, size⟩ :: chop size hpos ⟨s.start + size, s.length - size⟩ := by
  rw [chop, if_neg (by omega), if_neg (by omega)]

theorem forall_mem_chop {size : Nat} {hpos : 0 < size} {s : Stretch} :
    ∀ part ∈ s.chop size hpos,
      0 < part.length ∧ part.length ≤ size ∧ s.start ≤ part.start ∧ part.stop ≤ s.stop := by
  induction hn : s.length using Nat.strongRecOn generalizing s with
  | ind n ih =>
    intro part hpart
    rcases Nat.eq_zero_or_pos s.length with hz | hs
    · rw [chop_of_empty hz] at hpart
      cases hpart
    rcases Nat.lt_or_ge size s.length with hlt | hle
    · rw [chop_of_lt hlt] at hpart
      cases List.mem_cons.mp hpart with
      | inl he =>
        subst he
        unfold stop
        exact ⟨hpos, Nat.le_refl _, Nat.le_refl _, by show s.start + size ≤ _; omega⟩
      | inr hrest =>
        obtain ⟨hp, hle, hstart, hstop⟩ := ih (s.length - size) (by omega) rfl part hrest
        unfold stop at *
        have hstart : s.start + size ≤ part.start := hstart
        have hstop : part.start + part.length ≤ s.start + size + (s.length - size) := hstop
        omega
    · rw [chop_of_le hs hle] at hpart
      obtain rfl := List.mem_singleton.mp hpart
      exact ⟨hs, hle, Nat.le_refl _, Nat.le_refl _⟩

end Stretch

namespace SegmentRules

variable {rules : SegmentRules} {built : List Stretch} {piece s : Stretch}

/-- What the rules ask of a segment. -/
structure Allows (rules : SegmentRules) (s : Stretch) : Prop where
  pos : 0 < s.length
  le : s.length ≤ rules.maxLength.toNat
  uncrossed : ¬ s.Crosses rules.boundary.toNat

/-- What may be one segment with a piece may be one with the front of it. -/
theorem Joins.front {last : Stretch} {start k n : Nat} (h : rules.Joins last ⟨start, n⟩)
    (hle : k ≤ n) : rules.Joins last ⟨start, k⟩ :=
  ⟨h.1, h.2.1, Nat.le_trans (Nat.add_le_add_left hle _) h.2.2⟩

/-- The last segment can take the whole piece. -/
def Grows (rules : SegmentRules) (built : List Stretch) (piece : Stretch) : Prop :=
  ∃ last older, built = last :: older ∧ rules.Joins last piece

theorem grows_cons_iff {last : Stretch} {older : List Stretch} :
    rules.Grows (last :: older) piece ↔ rules.Joins last piece := by
  constructor
  · intro h
    obtain ⟨last', older', heq, hj⟩ := h
    obtain ⟨rfl, -⟩ := List.cons.inj heq
    exact hj
  · intro hj
    exact ⟨last, older, rfl, hj⟩

theorem addPiece_of_joins {last : Stretch} {older : List Stretch} (h : rules.Joins last piece) :
    rules.addPiece (last :: older) piece =
      ⟨last.start, last.length + piece.length⟩ :: older := if_pos h

theorem addPiece_of_not_grows (h : ¬ rules.Grows built piece) :
    rules.addPiece built piece =
      (piece.chop rules.maxLength.toNat rules.maxLength_pos).reverse ++ built := by
  cases built with
  | nil => exact (List.append_nil _).symm
  | cons last older =>
    exact if_neg (mt grows_cons_iff.mpr h)

theorem length_le_addPiece (rules : SegmentRules) (built : List Stretch) (piece : Stretch) :
    built.length ≤ (rules.addPiece built piece).length := by
  by_cases h : rules.Grows built piece
  · obtain ⟨last, older, rfl, hj⟩ := h
    rw [addPiece_of_joins hj]
    exact Nat.le_refl _
  · rw [addPiece_of_not_grows h, List.length_append]
    exact Nat.le_add_left _ _

theorem length_le_addRange (rules : SegmentRules) (built : List Stretch) (s : Stretch) :
    built.length ≤ (rules.addRange built s).length := by
  unfold addRange
  induction s.cut rules.boundary.toNat generalizing built with
  | nil => exact Nat.le_refl _
  | cons piece pieces ih => exact Nat.le_trans (rules.length_le_addPiece built piece) (ih _)

theorem length_le_foldl_addRange (rules : SegmentRules) (built ranges : List Stretch) :
    built.length ≤ (ranges.foldl rules.addRange built).length := by
  induction ranges generalizing built with
  | nil => exact Nat.le_refl _
  | cons s ranges ih => exact Nat.le_trans (rules.length_le_addRange built s) (ih _)

theorem addRange_of_empty (hs : s.length = 0) : rules.addRange built s = built := by
  rw [addRange, Stretch.cut_of_empty hs, List.foldl_nil]

/-- The first piece is added, and then what is left. -/
theorem addRange_of_pos (rules : SegmentRules) (built : List Stretch) (hs : 0 < s.length) :
    rules.addRange built s =
      rules.addRange (rules.addPiece built ⟨s.start, s.reach rules.boundary.toNat⟩)
        ⟨s.start + s.reach rules.boundary.toNat, s.length - s.reach rules.boundary.toNat⟩ := by
  rw [addRange, Stretch.cut_eq_cons hs, List.foldl_cons, addRange]

/-- Where the first piece opens a segment, that segment takes as much of it as it may hold, and the
rest of the range is added after it. -/
theorem addRange_of_not_grows (hs : 0 < s.length)
    (h : ¬ rules.Grows built ⟨s.start, s.reach rules.boundary.toNat⟩) :
    rules.addRange built s =
      rules.addRange
        (⟨s.start, min (s.reach rules.boundary.toNat) rules.maxLength.toNat⟩ :: built)
        ⟨s.start + min (s.reach rules.boundary.toNat) rules.maxLength.toNat,
          s.length - min (s.reach rules.boundary.toNat) rules.maxLength.toNat⟩ := by
  have hreach := Stretch.reach_pos rules.boundary.toNat hs
  have hle := Stretch.reach_le rules.boundary.toNat s
  have hmax := rules.maxLength_pos
  rw [addRange_of_pos rules built hs, addPiece_of_not_grows h]
  rcases Nat.lt_or_ge rules.maxLength.toNat (s.reach rules.boundary.toNat) with hlong | hshort
  · -- the segment that was opened is full, so the rest of the piece does not join it
    have hpart := Stretch.reach_of_part hlong
    have hfull : ¬ rules.Grows (⟨s.start, rules.maxLength.toNat⟩ :: built)
        ⟨s.start + rules.maxLength.toNat,
          s.reach rules.boundary.toNat - rules.maxLength.toNat⟩ := by
      intro hgrows
      obtain ⟨last, older, heq, -, -, hfits⟩ := hgrows
      obtain ⟨rfl, rfl⟩ := List.cons.inj heq
      have hfits : rules.maxLength.toNat +
        (s.reach rules.boundary.toNat - rules.maxLength.toNat) ≤ rules.maxLength.toNat := hfits
      omega
    rw [Nat.min_eq_right (Nat.le_of_lt hlong),
      addRange_of_pos rules _
        (s := ⟨s.start + rules.maxLength.toNat, s.length - rules.maxLength.toNat⟩)
        (show 0 < s.length - rules.maxLength.toNat by omega),
      hpart, addPiece_of_not_grows hfull, Stretch.chop_of_lt hlong, List.reverse_cons,
      List.append_assoc, List.singleton_append]
    congr 2
    · show s.start + _ = s.start + _ + _
      omega
    · show s.length - _ = s.length - _ - _
      omega
  · rw [Nat.min_eq_left hshort, Stretch.chop_of_le hreach hshort]
    rfl

/-- A piece that opens segments makes them more. -/
theorem length_lt_addRange (hs : 0 < s.length)
    (h : ¬ rules.Grows built ⟨s.start, s.reach rules.boundary.toNat⟩) :
    built.length < (rules.addRange built s).length := by
  rw [addRange_of_not_grows hs h]
  exact length_le_addRange rules (_ :: built) _

theorem forall_allows_addPiece (hbuilt : ∀ s ∈ built, rules.Allows s) (hpiece : 0 < piece.length)
    (huncrossed : ¬ piece.Crosses rules.boundary.toNat) :
    ∀ s ∈ rules.addPiece built piece, rules.Allows s := by
  intro s hs
  by_cases h : rules.Grows built piece
  · obtain ⟨last, older, rfl, hj⟩ := h
    rw [addPiece_of_joins hj] at hs
    obtain ⟨hstop, hblock, hfits⟩ := hj
    cases List.mem_cons.mp hs with
    | inl he =>
      subst he
      exact ⟨Nat.add_pos_right _ hpiece, hfits,
        Stretch.not_crosses_merge hstop hblock hpiece huncrossed⟩
    | inr hold => exact hbuilt s (List.mem_cons_of_mem _ hold)
  · rw [addPiece_of_not_grows h] at hs
    cases List.mem_append.mp hs with
    | inl hnew =>
      obtain ⟨hpos, hle, hstart, hstop⟩ := Stretch.forall_mem_chop s (List.mem_reverse.mp hnew)
      exact ⟨hpos, hle, Stretch.not_crosses_of_inside huncrossed hstart hstop⟩
    | inr hold => exact hbuilt s hold

theorem forall_allows_addRange (hbuilt : ∀ s ∈ built, rules.Allows s) (range : Stretch) :
    ∀ s ∈ rules.addRange built range, rules.Allows s := by
  have hpieces := Stretch.forall_mem_cut rules.boundary.toNat range
  unfold addRange
  generalize range.cut rules.boundary.toNat = pieces at hpieces ⊢
  induction pieces generalizing built with
  | nil => exact hbuilt
  | cons piece pieces ih =>
    obtain ⟨hpos, huncrossed⟩ := hpieces piece (by simp)
    exact ih (forall_allows_addPiece hbuilt hpos huncrossed) fun p hp => hpieces p (by simp [hp])

theorem forall_allows_segmentsOf (rules : SegmentRules) (ranges : List Stretch) :
    ∀ s ∈ rules.segmentsOf ranges, rules.Allows s := by
  have hfold {built : List Stretch} (hbuilt : ∀ s ∈ built, rules.Allows s) :
      ∀ s ∈ ranges.foldl rules.addRange built, rules.Allows s := by
    induction ranges generalizing built with
    | nil => exact hbuilt
    | cons range ranges ih => exact ih (forall_allows_addRange hbuilt range)
  intro s hs
  exact hfold (by simp) s (List.mem_reverse.mp hs)

end SegmentRules

end Aperture
