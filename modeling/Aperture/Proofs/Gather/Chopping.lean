import Aperture.Gather.Joints
import Aperture.Proofs.Gather.Cropping
import Aperture.Proofs.Gather.Shift

namespace Aperture

namespace Stretch

variable {s : Stretch} {unit : Nat}

theorem length_le_of_not_crosses (hunit : unit ≠ 0) (h : ¬ s.Crosses unit) : s.length ≤ unit := by
  refine Nat.le_of_not_lt fun hlong => h ⟨s.start / unit + 1, ?_⟩
  have hdiv := Nat.div_add_mod s.start unit
  have hmod := Nat.mod_lt s.start (Nat.pos_of_ne_zero hunit)
  rw [Nat.succ_mul, Nat.mul_comm]
  unfold stop
  omega

/-- The first piece of the front of a stretch is the front of its first piece. -/
theorem reach_of_front (unit : Nat) {k : Nat} (hk : k ≤ s.length) :
    reach unit ⟨s.start, k⟩ = min k (s.reach unit) := by
  unfold reach
  split
  · exact (Nat.min_eq_left hk).symm
  · show min k (unit - s.start % unit) = min k (min s.length (unit - s.start % unit))
    rw [← Nat.min_assoc, Nat.min_eq_left hk]

def single (n : Nat) : Stretch := ⟨n, 1⟩

end Stretch

namespace SegmentRules

variable {rules : SegmentRules} {built ranges : List Stretch} {w last piece : Stretch} {a j k : Nat}

/-- In the window no stretch within a boundary block is longer than a segment may be. -/
def LengthFree (rules : SegmentRules) (w : Stretch) : Prop :=
  ∀ s : Stretch, w.start ≤ s.start → s.stop ≤ w.stop → ¬ s.Crosses rules.boundary.toNat →
    s.length ≤ rules.maxLength.toNat

theorem Roomy.lengthFree (h : rules.Roomy) (hw : w.length < 2 ^ 64) : rules.LengthFree w := by
  intro s hstart hstop huncrossed
  rcases h with ⟨hne, hle⟩ | ⟨-, hmax⟩
  · have hunit : rules.boundary.toNat ≠ 0 := fun hz => hne (BitVec.eq_of_toNat_eq hz)
    exact Nat.le_trans (Stretch.length_le_of_not_crosses hunit huncrossed) (BitVec.le_def.mp hle)
  · rw [hmax]
    show s.length ≤ 2 ^ 64 - 1
    unfold Stretch.stop at hstop
    omega

theorem addRange_of_reach (built : List Stretch) {a n p : Nat} (hn : 0 < n)
    (hp : Stretch.reach rules.boundary.toNat ⟨a, n⟩ = p) : rules.addRange built ⟨a, n⟩ =
      rules.addRange (rules.addPiece built ⟨a, p⟩) ⟨a + p, n - p⟩ :=
  hp ▸ addRange_of_pos rules built hn

/-- What is made of ranges in a window starts in the window. -/
theorem forall_startsIn_addRange {range : Stretch} (hbuilt : ∀ s ∈ built, s.StartsIn w)
    (hstart : w.start ≤ range.start) (hstop : range.stop ≤ w.stop) :
    ∀ s ∈ rules.addRange built range, s.StartsIn w := by
  induction hn : range.length using Nat.strongRecOn generalizing built range with
  | ind n ih =>
    rcases Nat.eq_zero_or_pos range.length with hz | hpos
    · rw [addRange_of_empty hz]
      exact hbuilt
    have hreach := Stretch.reach_pos rules.boundary.toNat hpos
    have hle := Stretch.reach_le rules.boundary.toNat range
    have hend : range.start + range.length ≤ w.stop := hstop
    rw [addRange_of_pos rules built hpos]
    refine ih (range.length - range.reach rules.boundary.toNat) (by omega)
      (forall_startsIn_addPiece hbuilt hstart ?_) (Nat.le_add_right_of_le hstart) ?_ rfl
    · show range.start + range.reach rules.boundary.toNat ≤ w.stop
      omega
    · show range.start + range.reach rules.boundary.toNat +
        (range.length - range.reach rules.boundary.toNat) ≤ w.stop
      omega

section Window

variable (hfree : rules.LengthFree w)

include hfree

/-- A piece joins the last segment wherever it goes on from it. -/
theorem LengthFree.joins_iff (hlast : last.StartsIn w) (hpos : 0 < piece.length)
    (hstop : piece.stop ≤ w.stop) (huncrossed : ¬ piece.Crosses rules.boundary.toNat) :
    rules.Joins last piece ↔ last.stop = piece.start ∧ (rules.boundary.toNat = 0 ∨
      last.start / rules.boundary.toNat = piece.start / rules.boundary.toNat) := by
  constructor
  · intro h
    exact ⟨h.1, h.2.1⟩
  · intro h
    obtain ⟨hmeet, hblock⟩ := h
    have hmerged := Stretch.not_crosses_merge hmeet hblock hpos huncrossed
    have hin := hstop
    rw [← Stretch.stop_merge hmeet] at hin
    exact ⟨hmeet, hblock, hfree ⟨_, _⟩ hlast.1 hin hmerged⟩

theorem LengthFree.chop_eq (hpos : 0 < piece.length) (hstart : w.start ≤ piece.start)
    (hstop : piece.stop ≤ w.stop) (huncrossed : ¬ piece.Crosses rules.boundary.toNat) :
    piece.chop rules.maxLength.toNat rules.maxLength_pos = [piece] :=
  Stretch.chop_of_le hpos (hfree piece hstart hstop huncrossed)

/-- A piece that is added in two parts. -/
theorem LengthFree.addPiece_add (hbuilt : ∀ s ∈ built, s.StartsIn w) (hj : 0 < j) (hk : 0 < k)
    (hstart : w.start ≤ a) (hstop : a + (j + k) ≤ w.stop)
    (huncrossed : ¬ Stretch.Crosses ⟨a, j + k⟩ rules.boundary.toNat) :
    rules.addPiece (rules.addPiece built ⟨a, j⟩) ⟨a + j, k⟩ = rules.addPiece built ⟨a, j + k⟩ := by
  have hend : a + j + k = a + (j + k) := Nat.add_assoc ..
  have hfront : ¬ Stretch.Crosses ⟨a, j⟩ rules.boundary.toNat :=
    Stretch.not_crosses_of_inside huncrossed (Nat.le_refl _)
      (Nat.add_le_add_left (Nat.le_add_right ..) a)
  have hback : ¬ Stretch.Crosses ⟨a + j, k⟩ rules.boundary.toNat :=
    Stretch.not_crosses_of_inside huncrossed (Nat.le_add_right ..) (Nat.le_of_eq hend)
  have hblock : (a + j) / rules.boundary.toNat = a / rules.boundary.toNat :=
    Stretch.StartsIn.div_eq (s := ⟨a + j, k⟩) huncrossed
      ⟨Nat.le_add_right .., Nat.add_lt_add_left (Nat.lt_add_of_pos_right hk) a⟩
  have hin : Stretch.stop ⟨a, j + k⟩ ≤ w.stop := hstop
  have hin' : Stretch.stop ⟨a + j, k⟩ ≤ w.stop := Nat.le_trans (Nat.le_of_eq hend) hstop
  by_cases hgrows : rules.Grows built ⟨a, j⟩
  · -- the last segment takes both parts, and so it takes the piece
    obtain ⟨last, older, rfl, hjoins⟩ := hgrows
    have hlast := hbuilt last (by simp)
    have hmeet : last.start + last.length = a := hjoins.1
    have hwhole : rules.Joins last ⟨a, j + k⟩ :=
      (hfree.joins_iff hlast (Nat.add_pos_left hj k) hin huncrossed).mpr ⟨hmeet, hjoins.2.1⟩
    have hgrown : Stretch.StartsIn ⟨last.start, last.length + j⟩ w := hlast
    have hnext : rules.Joins ⟨last.start, last.length + j⟩ ⟨a + j, k⟩ := by
      refine (hfree.joins_iff hgrown hk hin' hback).mpr ⟨?_, hblock ▸ hjoins.2.1⟩
      show last.start + (last.length + j) = a + j
      omega
    rw [addPiece_of_joins hjoins, addPiece_of_joins hnext, addPiece_of_joins hwhole, Nat.add_assoc]
  · -- the first part opens a segment, and the second joins it
    have hwhole : ¬ rules.Grows built ⟨a, j + k⟩ := by
      intro h
      obtain ⟨last, older, rfl, hjoins⟩ := h
      exact hgrows ⟨last, older, rfl, hjoins.front (Nat.le_add_right ..)⟩
    have hopened : Stretch.StartsIn ⟨a, j⟩ w := ⟨hstart, by show a < w.stop; omega⟩
    have hnext : rules.Joins ⟨a, j⟩ ⟨a + j, k⟩ :=
      (hfree.joins_iff hopened hk hin' hback).mpr ⟨rfl, .inr hblock.symm⟩
    have hfirst : Stretch.stop ⟨a, j⟩ ≤ w.stop := by show a + j ≤ w.stop; omega
    rw [addPiece_of_not_grows hgrows, addPiece_of_not_grows hwhole,
      hfree.chop_eq hj hstart hfirst hfront,
      hfree.chop_eq (Nat.add_pos_left hj k) hstart hin huncrossed]
    exact addPiece_of_joins hnext

/-- Two ranges that follow one another, where the first ends inside a piece of the whole. -/
theorem LengthFree.addRange_add_of_lt (hbuilt : ∀ s ∈ built, s.StartsIn w) (hj : 0 < j)
    (hk : 0 < k) (hlt : j < Stretch.reach rules.boundary.toNat ⟨a, j + k⟩) (hstart : w.start ≤ a)
    (hstop : a + (j + k) ≤ w.stop) :
    rules.addRange (rules.addRange built ⟨a, j⟩) ⟨a + j, k⟩ = rules.addRange built ⟨a, j + k⟩ := by
  have hn : 0 < j + k := Nat.add_pos_left hj k
  have hle : Stretch.reach rules.boundary.toNat ⟨a, j + k⟩ ≤ j + k := Stretch.reach_le _ _
  have huncrossed : ¬ Stretch.Crosses ⟨a, Stretch.reach rules.boundary.toNat ⟨a, j + k⟩⟩
    rules.boundary.toNat := Stretch.reach_not_crosses (s := ⟨a, j + k⟩) hn
  have hfront : Stretch.reach rules.boundary.toNat ⟨a, j⟩ = min j _ :=
    Stretch.reach_of_front _ (s := ⟨a, j + k⟩) (Nat.le_add_right j k)
  have hback := Stretch.reach_of_part hlt
  generalize hp : Stretch.reach rules.boundary.toNat ⟨a, j + k⟩ = p at *
  rw [Nat.min_eq_left (Nat.le_of_lt hlt)] at hfront
  rw [Nat.add_sub_cancel_left] at hback
  have hjoined : j + (p - j) = p := Nat.add_sub_cancel' (Nat.le_of_lt hlt)
  have hsplit := hfree.addPiece_add hbuilt hj (Nat.sub_pos_of_lt hlt) hstart (by omega)
    (hjoined.symm ▸ huncrossed)
  rw [addRange_of_reach built hj hfront, addRange_of_empty (s := ⟨a + j, j - j⟩) (Nat.sub_self j),
    addRange_of_reach _ hk hback, hsplit, addRange_of_reach built hn hp, hjoined, Nat.add_assoc,
    hjoined]
  congr 2
  omega

/-- Two ranges that follow one another make what they make as one range. -/
theorem LengthFree.addRange_add (hbuilt : ∀ s ∈ built, s.StartsIn w) (hstart : w.start ≤ a)
    (hstop : a + (j + k) ≤ w.stop) :
    rules.addRange (rules.addRange built ⟨a, j⟩) ⟨a + j, k⟩ = rules.addRange built ⟨a, j + k⟩ := by
  -- the pieces of the whole range, up to the one that the cut is in
  induction j using Nat.strongRecOn generalizing built a with
  | ind j ih =>
    rcases Nat.eq_zero_or_pos k with hz | hk
    · rw [addRange_of_empty (s := ⟨a + j, k⟩) hz, hz, Nat.add_zero]
    rcases Nat.eq_zero_or_pos j with hz | hj
    · rw [addRange_of_empty (s := ⟨a, j⟩) hz, hz, Nat.zero_add, Nat.add_zero]
    have hn : 0 < j + k := Nat.add_pos_left hj k
    have hpos := Stretch.reach_pos rules.boundary.toNat (s := ⟨a, j + k⟩) hn
    have hfront : Stretch.reach rules.boundary.toNat ⟨a, j⟩ = min j _ :=
      Stretch.reach_of_front _ (s := ⟨a, j + k⟩) (Nat.le_add_right j k)
    rcases Nat.lt_or_ge j (Stretch.reach rules.boundary.toNat ⟨a, j + k⟩) with hlt | hge
    · exact hfree.addRange_add_of_lt hbuilt hj hk hlt hstart hstop
    rw [Nat.min_eq_right hge] at hfront
    rw [addRange_of_reach built hj hfront, addRange_of_reach built hn rfl]
    generalize Stretch.reach rules.boundary.toNat ⟨a, j + k⟩ = p at hpos hge ⊢
    have hin : Stretch.stop ⟨a, p⟩ ≤ w.stop := by
      show a + p ≤ w.stop
      omega
    have hgrown : ∀ s ∈ rules.addPiece built ⟨a, p⟩, s.StartsIn w :=
      forall_startsIn_addPiece hbuilt hstart hin
    have hend : a + p + (j - p + k) ≤ w.stop := by omega
    have hrest := ih (j - p) (by omega) hgrown (Nat.le_add_right_of_le hstart) hend
    rw [show a + j = a + p + (j - p) by omega, hrest]
    congr 2
    omega

/-- A range is added byte by byte. -/
theorem LengthFree.foldl_single (hbuilt : ∀ s ∈ built, s.StartsIn w) (hstart : w.start ≤ a)
    (hstop : a + k ≤ w.stop) :
    ((Stretch.bytes ⟨a, k⟩).map .single).foldl rules.addRange built =
      rules.addRange built ⟨a, k⟩ := by
  show ((List.range' a k).map Stretch.single).foldl rules.addRange built = _
  induction k generalizing built a with
  | zero => exact (addRange_of_empty rfl).symm
  | succ k ih =>
    have hfirst : Stretch.stop (.single a) ≤ w.stop := by
      show a + 1 ≤ w.stop
      omega
    have hadd := hfree.addRange_add hbuilt hstart (j := 1) (k := k) (by omega)
    rw [List.range'_succ, List.map_cons, List.foldl_cons,
      ih (forall_startsIn_addRange hbuilt hstart hfirst) (by omega) (by omega)]
    rw [Nat.add_comm 1 k] at hadd
    exact hadd

theorem LengthFree.foldl_singles (hbuilt : ∀ s ∈ built, s.StartsIn w)
    (hranges : ∀ r ∈ ranges, w.start ≤ r.start ∧ r.stop ≤ w.stop) :
    ((ranges.flatMap Stretch.bytes).map .single).foldl rules.addRange built =
      ranges.foldl rules.addRange built := by
  induction ranges generalizing built with
  | nil => rfl
  | cons r ranges ih =>
    obtain ⟨hstart, hstop⟩ := hranges r (by simp)
    rw [List.flatMap_cons, List.map_append, List.foldl_append,
      hfree.foldl_single hbuilt hstart hstop]
    exact ih (forall_startsIn_addRange hbuilt hstart hstop) fun r' hr' => hranges r' (by simp [hr'])

/-- The segments are those of the bytes, taken one by one. -/
theorem LengthFree.segmentsOf_singles
    (hranges : ∀ r ∈ ranges, w.start ≤ r.start ∧ r.stop ≤ w.stop) :
    rules.segmentsOf ((ranges.flatMap Stretch.bytes).map .single) = rules.segmentsOf ranges := by
  rw [segmentsOf, segmentsOf, hfree.foldl_singles (fun s hs => by cases hs) hranges]

section Top

variable (hw : w.stop ≤ 2 ^ 64)

include hw

/-- Whether a range ends with the last byte of the address space is seen at its first byte, or in
what is left of it. -/
theorem LengthFree.tops_iff (hbuilt : ∀ s ∈ built, s.StartsIn w) (hstart : w.start ≤ a)
    (hstop : a + (1 + k) ≤ w.stop) :
    rules.Tops built ⟨a, 1 + k⟩ ↔ rules.Tops built (.single a) ∨
      rules.Tops (rules.addRange built (.single a)) ⟨a + 1, k⟩ := by
  rcases Nat.eq_zero_or_pos k with rfl | hk
  · exact (or_iff_left fun h => Nat.lt_irrefl 0 h.1).symm
  · have hadd := hfree.addRange_add hbuilt hstart hstop
    have hrest := tops_rest_iff (k := 1) (n := 1 + k)
      (hadd.symm.trans (by rw [Nat.add_sub_cancel_left])) (Nat.le_add_right 1 k) (by omega)
    rw [Nat.add_sub_cancel_left] at hrest
    rw [← hrest]
    refine (or_iff_right fun h => ?_).symm
    have htop : a + 1 = 2 ^ 64 := h.2.1
    omega

theorem LengthFree.overrunsFrom_single (hbuilt : ∀ s ∈ built, s.StartsIn w) (hstart : w.start ≤ a)
    (hstop : a + k ≤ w.stop) (rest : List Stretch) :
    rules.OverrunsFrom built ((Stretch.bytes ⟨a, k⟩).map .single ++ rest) ↔
      rules.OverrunsFrom built (⟨a, k⟩ :: rest) := by
  show rules.OverrunsFrom built ((List.range' a k).map Stretch.single ++ rest) ↔ _
  induction k generalizing built a with
  | zero =>
    have hnone : ¬ rules.Tops built ⟨a, 0⟩ := fun h => Nat.lt_irrefl 0 h.1
    rw [overrunsFrom_cons, or_iff_right hnone, addRange_of_empty rfl]
    rfl
  | succ k ih =>
    have hfirst : Stretch.stop (.single a) ≤ w.stop := by
      show a + 1 ≤ w.stop
      omega
    have hgrown : ∀ s ∈ rules.addRange built (.single a), s.StartsIn w :=
      forall_startsIn_addRange hbuilt hstart hfirst
    have hrest := ih hgrown (Nat.le_succ_of_le hstart) (by omega)
    rw [List.range'_succ, List.map_cons, List.cons_append, overrunsFrom_cons, hrest,
      overrunsFrom_cons, overrunsFrom_cons]
    rw [Nat.add_comm k 1] at hstop ⊢
    rw [hfree.tops_iff hw hbuilt hstart hstop, ← hfree.addRange_add hbuilt hstart hstop, or_assoc]
    rfl

theorem LengthFree.overrunsFrom_singles (hbuilt : ∀ s ∈ built, s.StartsIn w)
    (hranges : ∀ r ∈ ranges, w.start ≤ r.start ∧ r.stop ≤ w.stop) :
    rules.OverrunsFrom built ((ranges.flatMap Stretch.bytes).map .single) ↔
      rules.OverrunsFrom built ranges := by
  induction ranges generalizing built with
  | nil => exact Iff.rfl
  | cons r ranges ih =>
    obtain ⟨hstart, hstop⟩ := hranges r (by simp)
    rw [List.flatMap_cons, List.map_append, hfree.overrunsFrom_single hw hbuilt hstart hstop,
      overrunsFrom_cons, overrunsFrom_cons, ih (forall_startsIn_addRange hbuilt hstart hstop)
        fun r' hr' => hranges r' (by simp [hr'])]

/-- Whether the ranges overrun is seen in their bytes. -/
theorem LengthFree.overruns_singles
    (hranges : ∀ r ∈ ranges, 0 < r.length ∧ w.start ≤ r.start ∧ r.stop ≤ w.stop) :
    rules.Overruns ((ranges.flatMap Stretch.bytes).map .single) ↔ rules.Overruns ranges := by
  have hsingles : ∀ s ∈ (ranges.flatMap Stretch.bytes).map Stretch.single, 0 < s.length := by
    intro s hs
    obtain ⟨n, -, rfl⟩ := List.mem_map.mp hs
    exact Nat.one_pos
  rw [← overrunsFrom_nil_iff hsingles, ← overrunsFrom_nil_iff fun r hr => (hranges r hr).1,
    hfree.overrunsFrom_singles hw (fun s hs => by cases hs) fun r hr => (hranges r hr).2]

end Top

end Window

end SegmentRules

namespace GatherList

variable {g : GatherList} {a : BusAddr} {n m : Word}

/-- Appending a range comes to what appending its front and then its back comes to. -/
theorem KeepsLimits.append_add (hg : g.KeepsLimits) (hroomy : g.rules.Roomy)
    (hend : a.word.toNat + n.toNat + m.toNat < 2 ^ 64) :
    g.append ⟨a, n + m⟩ = g.append ⟨a, n⟩ >>= andThen (·.append ⟨⟨a.word + n⟩, m⟩) := by
  have hboth : (n + m).toNat = n.toNat + m.toNat := BitVec.toNat_add_of_lt (by omega)
  have hnext : (a.word + n).toNat = a.word.toNat + n.toNat := BitVec.toNat_add_of_lt (by omega)
  have hfree : g.rules.LengthFree ⟨0, 2 ^ 64 - 1⟩ := hroomy.lengthFree (by decide)
  have hbuilt : ∀ s ∈ g.built, s.StartsIn ⟨0, 2 ^ 64 - 1⟩ := by
    intro s hs
    have hpos := (hg.allows s hs).pos
    obtain ⟨r, hr, rfl⟩ := List.mem_map.mp hs
    have hin : r.stretch.start + r.stretch.length < 2 ^ 64 := hg.inside r hr
    exact ⟨Nat.zero_le _, by show r.stretch.start < 0 + (2 ^ 64 - 1); omega⟩
  have hadd := hfree.addRange_add (j := n.toNat) (k := m.toNat) hbuilt (Nat.zero_le a.word.toNat)
    (by show _ ≤ 0 + (2 ^ 64 - 1); omega)
  have hstop : (⟨a, n + m⟩ : Run .bus).stretch.stop < 2 ^ 64 := by
    show a.word.toNat + (n + m).toNat < 2 ^ 64
    omega
  have hstop₁ : (⟨a, n⟩ : Run .bus).stretch.stop < 2 ^ 64 := by
    show a.word.toNat + n.toNat < 2 ^ 64
    omega
  have hstop₂ : (⟨⟨a.word + n⟩, m⟩ : Run .bus).stretch.stop < 2 ^ 64 := by
    show (a.word + n).toNat + m.toNat < 2 ^ 64
    omega
  obtain ⟨whole, hwhole⟩ := hg.append_isOk hstop
  obtain ⟨⟨grown, refusal⟩, hfront⟩ := hg.append_isOk hstop₁
  have happends := appends_of_appendFrom hfront
  have hcrops := (appends_of_appendFrom hwhole).crops hg.count_le (n + m).isLt (Nat.le_of_lt hstop)
  have hcrops₁ := happends.crops hg.count_le n.isLt (Nat.le_of_lt hstop₁)
  rw [hboth, ← hadd] at hcrops
  rw [hwhole, hfront, Checked.ok_bind]
  cases refusal with
  | some reason =>
    have hmany := hcrops₁.many
    exact congrArg _ (hcrops.unique (hcrops₁.addRange hmany _))
  | none =>
    have hkeeps := happends.keepsLimits hg
    obtain ⟨out, hout⟩ := hkeeps.append_isOk hstop₂
    have hcrops₂ := (appends_of_appendFrom hout).crops hkeeps.count_le m.isLt (Nat.le_of_lt hstop₂)
    rw [hcrops₁.sameRules, hcrops₁.built_eq, hnext] at hcrops₂
    rw [andThen, hout]
    exact congrArg _ (hcrops.unique hcrops₂)

end GatherList

end Aperture
