import Aperture.Proofs.Gather.Cutting
import Aperture.Proofs.Gather.Runs

namespace Aperture

namespace SegmentRules

variable {rules : SegmentRules}

/-- The room goes up to the next multiple of the boundary, if that is an address, and is all that a
word can tell otherwise. -/
theorem room_cases (rules : SegmentRules) (a : BusAddr) :
    (rules.boundary.toNat = 0 ∨
        2 ^ 64 ≤ (a.word.toNat / rules.boundary.toNat + 1) * rules.boundary.toNat) ∧
      rules.room a = 2 ^ 64 - 1 ∨
    rules.boundary.toNat ≠ 0 ∧
      (a.word.toNat / rules.boundary.toNat + 1) * rules.boundary.toNat < 2 ^ 64 ∧
      a.word.toNat + rules.room a =
        (a.word.toNat / rules.boundary.toNat + 1) * rules.boundary.toNat := by
  unfold room
  by_cases hz : rules.boundary = 0
  · rw [if_pos hz]
    exact .inl ⟨.inl (by rw [hz]; rfl), rfl⟩
  rw [if_neg hz]
  have hpow : rules.boundary.IsPowerOfTwo := rules.isBoundary.resolve_left hz
  cases hblock : a.word.nextBlock? rules.boundary with
  | some next =>
    have hto := (Word.nextBlock?_eq_some_iff hpow).mp hblock
    have hafter := Word.toNat_lt_of_nextBlock? hblock
    have hpos := hpow.pos
    refine .inr ⟨by omega, hto ▸ next.isLt, ?_⟩
    show a.word.toNat + (next.toNat - a.word.toNat) = _
    omega
  | none =>
    refine .inl ⟨.inr (Nat.le_of_not_lt fun hin => ?_), rfl⟩
    have hsome : a.word.nextBlock? rules.boundary = some (.ofNatLT _ hin) :=
      (Word.nextBlock?_eq_some_iff hpow).mpr (BitVec.toNat_ofNatLT ..)
    rw [hblock] at hsome
    cases hsome

/-- The bytes that are taken at once are those of the first piece. -/
theorem min_room_eq_reach {a : BusAddr} {n : Nat} (hlt : n < 2 ^ 64)
    (hfit : a.word.toNat + n ≤ 2 ^ 64) :
    min n (rules.room a) = Stretch.reach rules.boundary.toNat ⟨a.word.toNat, n⟩ := by
  unfold Stretch.reach
  have hmod := Nat.div_add_mod a.word.toNat rules.boundary.toNat
  have hnext : (a.word.toNat / rules.boundary.toNat + 1) * rules.boundary.toNat =
      rules.boundary.toNat * (a.word.toNat / rules.boundary.toNat) + rules.boundary.toNat := by
    rw [Nat.succ_mul, Nat.mul_comm]
  rcases rules.room_cases a with ⟨hnone, hroom⟩ | ⟨hne, -, hroom⟩
  · rw [hroom]
    split
    · show min n _ = n
      omega
    · -- the block goes on to the end of the space, and so the range ends before it does
      have htop := hnone.resolve_left ‹_›
      show _ = min n (rules.boundary.toNat - a.word.toNat % rules.boundary.toNat)
      omega
  · rw [if_neg hne]
    show _ = min n (rules.boundary.toNat - a.word.toNat % rules.boundary.toNat)
    omega

/-- The range ends with the last byte of the address space, and adding it to the segments built
before does not make them too many. -/
def Tops (rules : SegmentRules) (built : List Stretch) (range : Stretch) : Prop :=
  0 < range.length ∧ range.stop = 2 ^ 64 ∧
    (rules.addRange built range).length ≤ rules.maxCount.toNat

theorem tops_rest_iff {built built' : List Stretch} {a k n : Nat}
    (hadd : rules.addRange built ⟨a, n⟩ = rules.addRange built' ⟨a + k, n - k⟩) (hk : k ≤ n)
    (hin : a + k < 2 ^ 64) : rules.Tops built' ⟨a + k, n - k⟩ ↔ rules.Tops built ⟨a, n⟩ := by
  unfold Tops Stretch.stop
  rw [hadd]
  dsimp only
  constructor
  · intro h
    exact ⟨by omega, by omega, h.2.2⟩
  · intro h
    exact ⟨by omega, by omega, h.2.2⟩

/-- Going on from the segments built before, some range ends with the last byte of the address
space before they are too many. -/
def OverrunsFrom (rules : SegmentRules) (built ranges : List Stretch) : Prop :=
  ∃ before r after, ranges = before ++ r :: after ∧
    rules.Tops (before.foldl rules.addRange built) r

theorem overrunsFrom_cons {built : List Stretch} {r : Stretch} {rest : List Stretch} :
    rules.OverrunsFrom built (r :: rest) ↔
      rules.Tops built r ∨ rules.OverrunsFrom (rules.addRange built r) rest := by
  constructor
  · intro h
    obtain ⟨before, r', after, heq, htops⟩ := h
    cases before with
    | nil =>
      obtain ⟨rfl, -⟩ := List.cons.inj heq
      exact .inl htops
    | cons first before =>
      obtain ⟨rfl, hrest⟩ := List.cons.inj heq
      exact .inr ⟨before, r', after, hrest, htops⟩
  · intro h
    rcases h with htops | ⟨before, r', after, rfl, htops⟩
    · exact ⟨[], r, rest, rfl, htops⟩
    · exact ⟨r :: before, r', after, rfl, htops⟩

/-- Once there are too many segments, nothing is appended any more. -/
theorem not_overrunsFrom {built ranges : List Stretch}
    (hmany : rules.maxCount.toNat < built.length) : ¬ rules.OverrunsFrom built ranges := by
  intro h
  obtain ⟨before, r, after, -, -, -, hfew⟩ := h
  have hbefore := length_le_foldl_addRange rules built before
  have hlast := length_le_addRange rules (before.foldl rules.addRange built) r
  omega

theorem overrunsFrom_nil_iff {ranges : List Stretch} (hpos : ∀ r ∈ ranges, 0 < r.length) :
    rules.OverrunsFrom [] ranges ↔ rules.Overruns ranges := by
  have hsame (before : List Stretch) (r : Stretch) :
      (rules.segmentsOf (before ++ [r])).length =
        (rules.addRange (before.foldl rules.addRange []) r).length := by
    rw [segmentsOf, List.length_reverse, List.foldl_append]
    rfl
  constructor
  · intro h
    obtain ⟨before, r, after, heq, -, hstop, hfew⟩ := h
    exact ⟨before, r, after, heq, hstop, by rw [hsame]; exact hfew⟩
  · intro h
    obtain ⟨before, r, after, heq, hstop, hfew⟩ := h
    exact ⟨before, r, after, heq, hpos r (by rw [heq]; simp), hstop, by rw [← hsame]; exact hfew⟩

end SegmentRules

namespace GatherList

variable {g grown : GatherList} {a : BusAddr} {n piece : Nat} {last : Run .bus}
  {older : List (Run .bus)}

def built (g : GatherList) : List Stretch := g.newestFirst.map Run.stretch

def EndsInside (g : GatherList) : Prop := ∀ r ∈ g.newestFirst, r.stretch.stop < 2 ^ 64

theorem length_built (g : GatherList) : g.built.length = g.count := by
  rw [built, List.length_map, g.count_eq]

theorem map_stretch_segments (g : GatherList) :
    g.segments.map Run.stretch = g.built.reverse := List.map_reverse

theorem built_push (g : GatherList) (r : Run .bus) : (g.push r).built = r.stretch :: g.built := rfl

theorem canGrow_iff : g.CanGrow a piece ↔ g.rules.Grows g.built ⟨a.word.toNat, piece⟩ := by
  constructor
  · intro h
    obtain ⟨last, older, heq, hj⟩ := h
    exact ⟨last.stretch, older.map Run.stretch, by rw [built, heq]; rfl, hj⟩
  · intro h
    obtain ⟨s, rest, heq, hj⟩ := h
    obtain ⟨last, older, hsegments, rfl, -⟩ := List.map_eq_cons_iff.mp heq
    exact ⟨last, older, hsegments, hj⟩

theorem extend?_isOk (hinside : g.EndsInside) (a : BusAddr) (piece : Nat) :
    ∃ result, g.extend? a piece = .ok result := by
  unfold extend?
  split
  · exact ⟨none, rfl⟩
  · next last older hlast =>
    obtain ⟨stop, hstop, -⟩ := Addr.plus_of_lt (hinside last (by rw [hlast]; simp))
    have hstop : last.stop = .ok stop := hstop
    rw [hstop, Checked.ok_bind]
    dsimp only
    split
    · exact ⟨_, rfl⟩
    · exact ⟨_, rfl⟩

theorem stretch_grown (hjoins : g.rules.Joins last.stretch ⟨a.word.toNat, piece⟩) :
    (⟨last.addr, .ofNat 64 (last.length.toNat + piece)⟩ : Run .bus).stretch =
      ⟨last.stretch.start, last.stretch.length + piece⟩ :=
  Run.stretch_ofNat (Nat.lt_of_le_of_lt hjoins.2.2 g.rules.maxLength.isLt)

section Grown

variable (h : grown.GrownFrom g piece last older)

include h

theorem GrownFrom.count_eq : grown.count = g.count := by
  rw [grown.count_eq, g.count_eq, h.before, h.after]
  rfl

variable (hjoins : g.rules.Joins last.stretch ⟨a.word.toNat, piece⟩)

include hjoins

theorem GrownFrom.built_eq :
    grown.built = g.rules.addPiece g.built ⟨a.word.toNat, piece⟩ := by
  rw [built, built, h.after, h.before, List.map_cons, List.map_cons,
    SegmentRules.addPiece_of_joins hjoins, stretch_grown hjoins]

theorem GrownFrom.endsInside (hinside : g.EndsInside) (hlt : a.word.toNat + piece < 2 ^ 64) :
    grown.EndsInside := by
  intro r hr
  rw [h.after] at hr
  cases List.mem_cons.mp hr with
  | inl he =>
    have hstop : last.stretch.start + last.stretch.length = a.word.toNat := hjoins.1
    rw [he, stretch_grown hjoins]
    show last.stretch.start + (last.stretch.length + piece) < 2 ^ 64
    omega
  | inr hold => exact hinside r (by rw [h.before]; exact List.mem_cons_of_mem _ hold)

end Grown

/-- One round of appending: the last segment takes the first piece, or there is no room for another
segment, or another segment takes as much of the piece as it may hold. -/
inductive Round (g : GatherList) (a : BusAddr) (n piece : Nat) : Prop
  | grow {grown : GatherList} {last : Run .bus} {older : List (Run .bus)}
      (hgrown : grown.GrownFrom g piece last older)
      (hjoins : g.rules.Joins last.stretch ⟨a.word.toNat, piece⟩)
      (hnext : g.appendFrom a n = a.plus piece >>= fun next => grown.appendFrom next (n - piece))
  | full
      (hgrow : ¬ g.CanGrow a piece)
      (hfull : g.rules.maxCount.toNat ≤ g.count)
      (hend : g.appendFrom a n = .ok (g, some .tooManySegments))
  | push {part : Nat}
      (hpart : part = min piece g.rules.maxLength.toNat)
      (hgrow : ¬ g.CanGrow a piece)
      (hroom : g.count < g.rules.maxCount.toNat)
      (hnext : g.appendFrom a n =
        a.plus part >>= fun next => (g.push ⟨a, .ofNat 64 part⟩).appendFrom next (n - part))

theorem appendFrom_round (hinside : g.EndsInside) (hn : 0 < n) (hlt : n < 2 ^ 64)
    (hfit : a.word.toNat + n ≤ 2 ^ 64) :
    Round g a n (Stretch.reach g.rules.boundary.toNat ⟨a.word.toNat, n⟩) := by
  have hround := appendFrom.eq_1 g a n
  rw [if_neg (by omega), SegmentRules.min_room_eq_reach hlt hfit] at hround
  generalize Stretch.reach g.rules.boundary.toNat ⟨a.word.toNat, n⟩ = piece at *
  obtain ⟨result, hresult⟩ := extend?_isOk hinside a piece
  have hcases := extend?_cases hresult
  dsimp only at hround
  rw [hresult, Checked.ok_bind] at hround
  cases result with
  | some grown =>
    obtain ⟨last, older, hgrown, hjoins⟩ := hcases
    exact .grow hgrown hjoins hround
  | none =>
    by_cases hfull : g.rules.maxCount.toNat ≤ g.count
    · exact .full hcases hfull (hround.trans (if_pos hfull))
    · exact .push rfl hcases (Nat.lt_of_not_le hfull) (hround.trans (if_neg hfull))

def outcome : GatherList × Option Refusal → Except Refusal GatherList
  | (_, some reason) => .error reason
  | (g, none) => .ok g

/-- What gathering comes to when the merge rule gives the segments `target`; `top` says that one of
them has to end with the last byte of the address space. -/
inductive Gathers (rules : SegmentRules) (target : List Stretch) (top : Prop) :
    Checked (Except Refusal GatherList) → Prop
  | all {g : GatherList}
      (hrules : g.rules = rules)
      (hbuilt : g.built = target)
      (hinside : g.EndsInside)
      (hfew : target.length ≤ rules.maxCount.toNat)
      (htop : ¬ top) : Gathers rules target top (.ok (.ok g))
  | many
      (hmany : rules.maxCount.toNat < target.length)
      (htop : ¬ top) : Gathers rules target top (.ok (.error .tooManySegments))
  | overrun
      (htop : top) : Gathers rules target top (.error .addOverflow)

/-- A round that takes `k` bytes, and leaves a list that the rest of the range is added to. -/
theorem gathers_of_round {h : GatherList} {k : Nat} (hn : 0 < n) (hkn : k ≤ n)
    (hfit : a.word.toNat + n ≤ 2 ^ 64) (hrules : h.rules = g.rules)
    (hcount : h.count ≤ g.rules.maxCount.toNat)
    (hadd : g.rules.addRange g.built ⟨a.word.toNat, n⟩ =
      g.rules.addRange h.built ⟨a.word.toNat + k, n - k⟩)
    (hnext : g.appendFrom a n = a.plus k >>= fun next => h.appendFrom next (n - k))
    (hrest : ∀ next : BusAddr, next.word.toNat = a.word.toNat + k →
      Gathers h.rules (h.rules.addRange h.built ⟨a.word.toNat + k, n - k⟩)
        (h.rules.Tops h.built ⟨a.word.toNat + k, n - k⟩)
        ((h.appendFrom next (n - k)).map outcome)) :
    Gathers g.rules (g.rules.addRange g.built ⟨a.word.toNat, n⟩)
      (g.rules.Tops g.built ⟨a.word.toNat, n⟩) ((g.appendFrom a n).map outcome) := by
  rw [hnext, hadd]
  rcases Nat.lt_or_ge (a.word.toNat + k) (2 ^ 64) with hin | htop
  · obtain ⟨next, hplus, hto⟩ := Addr.plus_of_lt hin
    have hrest := hrest next hto
    rw [hrules, SegmentRules.tops_rest_iff hadd hkn hin] at hrest
    rw [hplus, Checked.ok_bind]
    exact hrest
  · -- the sum is past the last address, so these were the last bytes of the range
    have hdone : n - k = 0 := by omega
    have hlength : (g.rules.addRange g.built ⟨a.word.toNat, n⟩).length ≤
        g.rules.maxCount.toNat := by
      rw [hadd, SegmentRules.addRange_of_empty hdone, length_built]
      exact hcount
    rw [Addr.plus_of_ge htop]
    exact .overrun ⟨hn, show a.word.toNat + n = 2 ^ 64 by omega, hlength⟩

theorem appendFrom_gathers (hinside : g.EndsInside) (hcount : g.count ≤ g.rules.maxCount.toNat)
    (hlt : n < 2 ^ 64) (hfit : a.word.toNat + n ≤ 2 ^ 64) :
    Gathers g.rules (g.rules.addRange g.built ⟨a.word.toNat, n⟩)
      (g.rules.Tops g.built ⟨a.word.toNat, n⟩) ((g.appendFrom a n).map outcome) := by
  -- each round takes at least one byte off what remains, so the induction is on that
  induction n using Nat.strongRecOn generalizing g a with
  | ind n ih =>
    rcases Nat.eq_zero_or_pos n with hz | hn
    · subst hz
      have hnil : g.appendFrom a 0 = .ok (g, none) := by rw [appendFrom, if_pos rfl]
      rw [hnil, SegmentRules.addRange_of_empty rfl]
      exact .all rfl rfl hinside (by rw [length_built]; exact hcount) fun h => Nat.lt_irrefl 0 h.1
    have rest {h : GatherList} {k : Nat} (hk : 0 < k) (hkn : k ≤ n) (hends : h.EndsInside)
        (hcount : h.count ≤ h.rules.maxCount.toNat) (next : BusAddr)
        (hto : next.word.toNat = a.word.toNat + k) :
        Gathers h.rules (h.rules.addRange h.built ⟨a.word.toNat + k, n - k⟩)
          (h.rules.Tops h.built ⟨a.word.toNat + k, n - k⟩)
          ((h.appendFrom next (n - k)).map outcome) := by
      rw [← hto]
      exact ih (n - k) (by omega) hends hcount (by omega) (by omega)
    have hround := appendFrom_round hinside hn hlt hfit
    have hpos := Stretch.reach_pos g.rules.boundary.toNat (s := ⟨a.word.toNat, n⟩) hn
    have hle : Stretch.reach g.rules.boundary.toNat ⟨a.word.toNat, n⟩ ≤ n := Stretch.reach_le _ _
    have hmax := g.rules.maxLength_pos
    cases hround with
    | grow hgrown hjoins hnext =>
      have hadd := SegmentRules.addRange_of_pos g.rules g.built (s := ⟨a.word.toNat, n⟩) hn
      have hgrowncount := hcount
      rw [← hgrown.count_eq] at hgrowncount
      rw [← hgrown.built_eq hjoins] at hadd
      refine gathers_of_round hn hle hfit hgrown.rules hgrowncount hadd hnext fun next hto => ?_
      exact rest hpos hle (hgrown.endsInside hjoins hinside (hto ▸ next.word.isLt))
        (by rw [hgrown.rules]; exact hgrowncount) next hto
    | full hgrow hfull hend =>
      rw [canGrow_iff] at hgrow
      have hmore := SegmentRules.length_lt_addRange (s := ⟨a.word.toNat, n⟩) hn hgrow
      rw [length_built] at hmore
      rw [hend]
      have hmany := Nat.lt_of_le_of_lt hfull hmore
      exact .many hmany fun h => Nat.not_lt_of_le h.2.2 hmany
    | @push part hpart hgrow hroom hnext =>
      rw [canGrow_iff] at hgrow
      have hadd := SegmentRules.addRange_of_not_grows (s := ⟨a.word.toNat, n⟩) hn hgrow
      have hstretch : (⟨a, .ofNat 64 part⟩ : Run .bus).stretch = ⟨a.word.toNat, part⟩ :=
        Run.stretch_ofNat (by omega)
      have hbuilt : (g.push ⟨a, .ofNat 64 part⟩).built = ⟨a.word.toNat, part⟩ :: g.built := by
        rw [built_push, hstretch]
      rw [← hpart, ← hbuilt] at hadd
      refine gathers_of_round (h := g.push ⟨a, .ofNat 64 part⟩) hn (by omega) hfit rfl hroom hadd
        hnext fun next hto => ?_
      refine rest (h := g.push ⟨a, .ofNat 64 part⟩) (by omega) (by omega) (fun r hr => ?_) hroom
        next hto
      cases List.mem_cons.mp hr with
      | inl he =>
        rw [he, hstretch]
        show a.word.toNat + part < 2 ^ 64
        exact hto ▸ next.word.isLt
      | inr hold => exact hinside r hold

theorem appendAll_cons (g : GatherList) (r : Run .bus) (rest : List (Run .bus)) :
    g.appendAll (r :: rest) = (g.append r).map outcome >>= fun
      | .error reason => .ok (.error reason)
      | .ok grown => grown.appendAll rest := by
  rw [appendAll]
  cases g.append r with
  | error f => rfl
  | ok out =>
    obtain ⟨grown, refusal⟩ := out
    cases refusal <;> rfl

/-- Appending ranges gives the segments of the merge rule, unless they are too many, or one of them
has to end with the last byte of the address space before there are too many. -/
theorem appendAll_gathers {ranges : List (Run .bus)} (hinside : g.EndsInside)
    (hcount : g.count ≤ g.rules.maxCount.toNat)
    (hranges : ∀ r ∈ ranges, r.stretch.stop ≤ 2 ^ 64) :
    Gathers g.rules ((ranges.map Run.stretch).foldl g.rules.addRange g.built)
      (g.rules.OverrunsFrom g.built (ranges.map Run.stretch)) (g.appendAll ranges) := by
  induction ranges generalizing g with
  | nil =>
    have hfew : g.built.length ≤ g.rules.maxCount.toNat := by
      rw [length_built]
      exact hcount
    refine .all rfl rfl hinside hfew fun h => ?_
    obtain ⟨before, r, after, heq, -⟩ := h
    cases before <;> cases heq
  | cons r rest ih =>
    have hfirst := appendFrom_gathers (a := r.addr) hinside hcount r.length.isLt
      (hranges r (by simp))
    have hfirst : Gathers g.rules (g.rules.addRange g.built r.stretch)
      (g.rules.Tops g.built r.stretch) ((g.append r).map outcome) := hfirst
    rw [appendAll_cons, List.map_cons, List.foldl_cons, SegmentRules.overrunsFrom_cons]
    generalize (g.append r).map outcome = out at hfirst ⊢
    cases hfirst with
    | @all grown hrules hbuilt hends hfew htop =>
      have hrest := ih hends (by rw [hrules, ← length_built, hbuilt]; exact hfew) fun r' hr' =>
        hranges r' (by simp [hr'])
      rw [hrules, hbuilt] at hrest
      rw [Checked.ok_bind, or_iff_right htop]
      exact hrest
    | many hmany htop =>
      refine .many (Nat.lt_of_lt_of_le hmany (SegmentRules.length_le_foldl_addRange ..)) fun h => ?_
      cases h with
      | inl h => exact htop h
      | inr h => exact SegmentRules.not_overrunsFrom hmany h
    | overrun htop => exact .overrun (.inl htop)

/-- From an empty list, the segments are those of the ranges, or there are too many, or the ranges
overrun. -/
theorem appendAll_empty_gathers (rules : SegmentRules) {ranges : List (Run .bus)}
    (hpos : ∀ r ∈ ranges, 0 < r.stretch.length) (hranges : ∀ r ∈ ranges, r.stretch.stop ≤ 2 ^ 64) :
    Gathers rules (rules.segmentsOf (ranges.map Run.stretch)).reverse
      (rules.Overruns (ranges.map Run.stretch)) ((empty rules).appendAll ranges) := by
  have hpos (s : Stretch) (hs : s ∈ ranges.map Run.stretch) : 0 < s.length := by
    obtain ⟨r, hr, rfl⟩ := List.mem_map.mp hs
    exact hpos r hr
  have hinside : (empty rules).EndsInside := fun r hr => by cases hr
  have hall := appendAll_gathers hinside (Nat.zero_le _) hranges
  rw [SegmentRules.segmentsOf, List.reverse_reverse, ← SegmentRules.overrunsFrom_nil_iff hpos]
  exact hall

end GatherList

end Aperture
