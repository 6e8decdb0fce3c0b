import Aperture.Proofs.Pool.Reserve
import Aperture.Proofs.Word.Multiples

namespace Aperture

namespace Fit

variable {f : Fit} {lo lo' hi hi' s : Word} {bs cs : List Block}

/-- A position that is allowed stays allowed in a window that holds its block, beside fewer
blocks. -/
theorem Allows.mono (h : f.Allows lo hi bs s) (hlo : lo'.toNat ≤ s.toNat)
    (hhi : s.toNat + f.size.toNat ≤ hi'.toNat + 1) (hsub : ∀ b ∈ cs, b ∈ bs) :
    f.Allows lo' hi' cs s :=
  ⟨h.aligned, BitVec.le_def.mpr hlo, hhi, fun b hb => h.free b (hsub b hb), h.uncrossed⟩

/-- What a block that crosses a boundary multiple has to be moved past is a multiple of both the
boundary and the unit, and no position before it is allowed. -/
theorem Allows.next_boundary (hf : f.WellFormed) (h : f.Allows lo hi bs s) {first last : Word}
    (hfirst : f.unit.toNat ∣ first.toNat) (hle : first.toNat ≤ s.toNat)
    (hlast : last.toNat + 1 = first.toNat + f.size.toNat) (hcrosses : f.crosses first last) :
    ∃ moved, first.roundUp? (f.boundary.larger f.unit) = some moved ∧ moved.toNat ≤ s.toNat := by
  have hsize := hf.size
  have hb : f.boundary ≠ 0 := by
    intro hz
    simp [crosses, hz] at hcrosses
  have hpow : f.boundary.IsPowerOfTwo := hf.boundary.resolve_left hb
  have hpos := hpow.pos
  have hcross : first.toNat / f.boundary.toNat ≠ last.toNat / f.boundary.toNat := by
    intro he
    rw [crosses_eq_false_iff.mpr fun _ => he] at hcrosses
    cases hcrosses
  have hfits := hf.size_le hb
  -- a boundary not larger than the unit divides `first`, and then the block does not cross it
  have hlt : f.unit.toNat < f.boundary.toNat := by
    refine Nat.lt_of_not_le fun hge => hcross ?_
    have hd := Nat.dvd_trans (hpow.dvd hf.unit hge) hfirst
    rw [div_last_eq hd hsize hfits]
    congr 1
    omega
  have hlarger : f.boundary.larger f.unit = f.boundary := by
    unfold Word.larger
    rw [if_neg (by rw [BitVec.le_def]; omega)]
  have huncrossed := h.uncrossed hb
  have hblock : first.toNat / f.boundary.toNat + 1 ≤ s.toNat / f.boundary.toNat := by
    have hmono : first.toNat / f.boundary.toNat ≤ s.toNat / f.boundary.toNat :=
      Nat.div_le_div_right hle
    have hends : last.toNat / f.boundary.toNat ≤
        (s.toNat + f.size.toNat - 1) / f.boundary.toNat := Nat.div_le_div_right (by omega)
    have hgrows : first.toNat / f.boundary.toNat ≤ last.toNat / f.boundary.toNat :=
      Nat.div_le_div_right (by omega)
    omega
  have hmultiple : (s.toNat / f.boundary.toNat) * f.boundary.toNat ≤ s.toNat :=
    Nat.div_mul_le_self _ _
  have habove : first.toNat ≤ (s.toNat / f.boundary.toNat) * f.boundary.toNat := by
    have hdiv := Nat.lt_mul_div_succ first.toNat hpos
    have hmul := Nat.mul_le_mul_right f.boundary.toNat hblock
    rw [Nat.mul_comm] at hdiv
    omega
  have hfit : (s.toNat / f.boundary.toNat) * f.boundary.toNat < 2 ^ 64 :=
    Nat.lt_of_le_of_lt hmultiple s.isLt
  obtain ⟨moved, hmoved, hto⟩ := Word.roundUp?_le (w := first)
    (m := .ofNatLT _ hfit) hpow (by rw [BitVec.toNat_ofNatLT]; exact Nat.dvd_mul_left _ _)
    (by rw [BitVec.toNat_ofNatLT]; exact habove)
  rw [BitVec.toNat_ofNatLT] at hto
  exact ⟨moved, by rw [hlarger]; exact hmoved, by omega⟩

/-- If some position in the window is allowed, one that is not above it is placed. -/
theorem place?_complete (hf : f.WellFormed) (h : f.Allows lo hi bs s) :
    ∃ start, f.place? lo hi = some start ∧ start.toNat ≤ s.toNat := by
  have hsize := hf.size
  have hslt := s.isLt
  have hin := h.below
  have hilt := hi.isLt
  have ends (start : Word) (hle : start.toNat ≤ s.toNat) :
      ∃ last, f.last? start = some last ∧ last ≤ hi := by
    have hlt : start.toNat + (f.size.toNat - 1) < 2 ^ 64 := by omega
    refine ⟨.ofNatLT _ hlt, ?_, ?_⟩
    · rw [last?_eq_some_iff hsize, BitVec.toNat_ofNatLT]
      omega
    · rw [BitVec.le_def, BitVec.toNat_ofNatLT]
      omega
  obtain ⟨first, hfirst, hle⟩ := Word.roundUp?_le hf.unit h.aligned (BitVec.le_def.mp h.above)
  obtain ⟨last, hlast, hhi⟩ := ends first hle
  unfold place?
  simp only [hfirst, hlast, Option.bind_eq_bind, Option.bind_some]
  cases hcrosses : f.crosses first last with
  | false =>
    exact ⟨first, if_pos hhi, hle⟩
  | true =>
    rw [last?_eq_some_iff hsize] at hlast
    obtain ⟨moved, hmoved, hto⟩ := h.next_boundary hf
      (Word.le_of_roundUp?_eq_some hf.unit hfirst).2 hle hlast hcrosses
    obtain ⟨end', hend, hhi⟩ := ends moved hto
    refine ⟨moved, ?_, hto⟩
    simp only [if_true, hmoved, Option.bind_some, hend, if_pos hhi]

/-- The result is a position, not above any that is allowed, or there is none. -/
def Least (f : Fit) (lo hi : Word) (bs : List Block) (found : Option Word) : Prop :=
  ∀ s, f.Allows lo hi bs s → ∃ start, found = some start ∧ start.toNat ≤ s.toNat

/-- Searching on from a later position, beside the rest of the blocks, misses nothing if all that is
allowed lies there. -/
theorem Least.of_later {b : Block} {found : Option Word} (h : f.Least lo' hi bs found)
    (hlater : ∀ s, f.Allows lo hi (b :: bs) s → lo'.toNat ≤ s.toNat) :
    f.Least lo hi (b :: bs) found := by
  intro s hs
  have hrest : f.Allows lo' hi bs s := hs.mono (hlater s hs) hs.below fun c hc => by simp [hc]
  exact h s hrest

section Gap

variable {b : Block} {gap : Option Word}
  (hgap : (if lo < b.start then f.place? lo (b.start - 1) else none) = gap)

include hgap

theorem gap_complete (hf : f.WellFormed) (hs : f.Allows lo hi (b :: bs) s)
    (hle : s.toNat + f.size.toNat ≤ b.start.toNat) :
    ∃ start, gap = some start ∧ start.toNat ≤ s.toNat := by
  have hsize := hf.size
  have habove := BitVec.le_def.mp hs.above
  have hbefore : lo.toNat < b.start.toNat := by omega
  have hpred := Word.toNat_pred hbefore
  rw [if_pos (BitVec.lt_def.mpr hbefore)] at hgap
  have halone : f.Allows lo (b.start - 1) [] s := hs.mono habove (by omega) (by simp)
  rw [← hgap]
  exact place?_complete hf halone

theorem gap_sound (hf : f.WellFormed) {start : Word} (h : gap = some start) :
    start.toNat + f.size.toNat ≤ b.start.toNat := by
  subst h
  split at hgap
  · next hbefore =>
    have hpred := Word.toNat_pred (BitVec.lt_def.mp hbefore)
    obtain ⟨-, -, hbelow, -⟩ := place?_sound hf hgap
    omega
  · cases hgap

theorem least_of_gap (hf : f.WellFormed) {start : Word} (h : gap = some start) :
    f.Least lo hi (b :: bs) (some start) := by
  intro s hs
  refine ⟨start, rfl, ?_⟩
  cases hs.free b (by simp) with
  | inl hle =>
    obtain ⟨start', hstart', hto⟩ := gap_complete hgap hf hs hle
    rw [h] at hstart'
    rw [Option.some.inj hstart']
    exact hto
  | inr hge =>
    have hge : b.stop ≤ s.toNat := hge
    have hbelow := gap_sound hgap hf h
    unfold Block.stop at hge
    omega

/-- With no place in the gap, whatever is allowed lies past the block. -/
theorem stop_le_of_no_gap (hf : f.WellFormed) (h : gap = none)
    (hs : f.Allows lo hi (b :: bs) s) : b.stop ≤ s.toNat := by
  cases hs.free b (by simp) with
  | inl hle =>
    obtain ⟨start, hstart, -⟩ := gap_complete hgap hf hs hle
    rw [h] at hstart
    cases hstart
  | inr hge => exact hge

end Gap

/-- The search comes to an end. If some position is allowed, one that is not above it is found. -/
theorem search?_complete (hf : f.WellFormed)
    (hsorted : bs.Pairwise fun b c => b.stop ≤ c.start.toNat)
    (hsizes : ∀ b ∈ bs, 0 < b.size.toNat) (hfits : ∀ b ∈ bs, b.stop ≤ 2 ^ 64) (hi lo : Word) :
    ∃ found, f.search? hi lo bs = .ok found ∧ f.Least lo hi bs found := by
  induction bs generalizing lo with
  | nil => exact ⟨_, rfl, fun s hs => place?_complete hf hs⟩
  | cons b bs ih =>
    obtain ⟨-, hrest⟩ := List.pairwise_cons.mp hsorted
    have ih := ih hrest (fun c hc => hsizes c (by simp [hc])) fun c hc => hfits c (by simp [hc])
    obtain ⟨last, hlast, hend⟩ := Block.last_eq_ok (hsizes b (by simp)) (hfits b (by simp))
    rw [search?, hlast, Checked.ok_bind]
    by_cases hskip : last < lo
    · rw [if_pos hskip]
      obtain ⟨found, hfound, hleast⟩ := ih lo
      exact ⟨found, hfound, hleast.of_later fun s hs => BitVec.le_def.mp hs.above⟩
    rw [if_neg hskip]
    by_cases hpast : hi < b.start
    · rw [if_pos hpast]
      exact ⟨_, rfl, fun s hs => place?_complete hf hs⟩
    rw [if_neg hpast]
    generalize hgap : (if lo < b.start then f.place? lo (b.start - 1) else none) = gap
    cases hcase : gap with
    | some start => exact ⟨some start, rfl, least_of_gap hgap hf hcase⟩
    | none =>
      have hbeyond (s : Word) (hs : f.Allows lo hi (b :: bs) s) : last.toNat + 1 ≤ s.toNat := by
        rw [hend]
        exact stop_le_of_no_gap hgap hf hcase hs
      cases hnext : last.plus? 1 with
      | none =>
        refine ⟨none, rfl, fun s hs => ?_⟩
        have := hbeyond s hs
        have := s.isLt
        rw [Word.plus?_eq_none_iff] at hnext
        omega
      | some next =>
        rw [Word.plus?_eq_some_iff] at hnext
        by_cases hover : hi < next
        · simp only [if_pos hover]
          refine ⟨none, rfl, fun s hs => ?_⟩
          have hsize := hf.size
          have := hbeyond s hs
          have := hs.below
          rw [BitVec.lt_def] at hover
          omega
        · simp only [if_neg hover]
          obtain ⟨found, hfound, hleast⟩ := ih next
          exact ⟨found, hfound, hleast.of_later fun s hs => hnext ▸ hbeyond s hs⟩

end Fit

namespace Pool

variable {p : Pool} {r : Request} {s : Word}

/-- The request may be met at `s`: in its window, beside all blocks that are handed out. -/
def Allows (p : Pool) (r : Request) (s : Word) : Prop :=
  r.fit.Allows (p.first.larger (r.window.getD (p.first, p.last)).1)
    (p.last.smaller (r.window.getD (p.first, p.last)).2) p.blocks s

/-- Reserving hands out the block of lowest start that is allowed, or there is none. -/
theorem reserve_cases (hp : p.WellFormed) (hr : r.WellFormed) :
    (p.reserve r = .ok (.error .spaceExhausted) ∧ ∀ s, ¬ p.Allows r s) ∨
      ∃ b : Block, p.reserve r = .ok (.ok (b, p.withBlocks (insert b p.blocks))) ∧
        b.size = r.size ∧ p.Allows r b.start ∧ ∀ s, p.Allows r s → b.start.toNat ≤ s.toNat := by
  have hlast := p.last.isLt
  unfold reserve
  rw [if_pos hr]
  simp only
  split
  · next hnone =>
    refine .inl ⟨rfl, fun s hs => ?_⟩
    have habove := BitVec.le_def.mp hs.above
    have hbelow := hs.below
    have hsize := hr.fit.size
    rw [BitVec.lt_def] at hnone
    omega
  · obtain ⟨found, hfound, hleast⟩ := Fit.search?_complete hr.fit hp.sorted
      (fun b hb => (hp.pages b hb).1)
      (fun b hb => by have := (hp.inside b hb).2; omega)
      (p.last.smaller (r.window.getD (p.first, p.last)).2)
      (p.first.larger (r.window.getD (p.first, p.last)).1)
    rw [hfound, Checked.ok_bind]
    cases found with
    | none =>
      refine .inl ⟨rfl, fun s hs => ?_⟩
      obtain ⟨start, hstart, -⟩ := hleast s hs
      cases hstart
    | some start =>
      refine .inr ⟨⟨start, r.size⟩, rfl, rfl, Fit.search?_allows hr.fit hp.sorted hfound,
        fun s hs => ?_⟩
      obtain ⟨start', hstart', hle⟩ := hleast s hs
      rw [Option.some.inj hstart']
      exact hle

end Pool

end Aperture
