import Aperture.Pool.History
import Aperture.Proofs.Pool.FirstFit

namespace Aperture

namespace Pool

variable {p q : Pool}

theorem Outcome.next_perm {bs cs : List Block} (h : bs.Perm cs) (o : Outcome) :
    (o.next bs).Perm (o.next cs) := by
  cases o with
  | reserved b => exact h.cons b
  | released b => exact h.erase b
  | refused why => exact h

theorem foldl_next_perm {bs cs : List Block} (h : bs.Perm cs) (outcomes : List Outcome) :
    (outcomes.foldl Outcome.next bs).Perm (outcomes.foldl Outcome.next cs) := by
  induction outcomes generalizing bs cs with
  | nil => exact h
  | cons o outcomes ih => exact ih (o.next_perm h)

structure SameRange (p q : Pool) : Prop where
  first : q.first = p.first
  size : q.size = p.size

theorem SameRange.refl (p : Pool) : SameRange p p := ⟨rfl, rfl⟩

theorem SameRange.trans {r : Pool} (hpq : SameRange p q) (hqr : SameRange q r) : SameRange p r :=
  ⟨hqr.first.trans hpq.first, hqr.size.trans hpq.size⟩

theorem sameRange_withBlocks (p : Pool) (bs : List Block) : SameRange p (p.withBlocks bs) :=
  ⟨rfl, rfl⟩

theorem SameRange.eq_of_blocks (h : SameRange p q) (hblocks : q.blocks = p.blocks) : q = p := by
  obtain ⟨first, size, hpos, hfits, blocks⟩ := q
  obtain ⟨rfl, rfl⟩ := h
  obtain rfl := hblocks
  rfl

theorem SameRange.last (h : SameRange p q) : q.last = p.last := by
  unfold Pool.last
  apply BitVec.eq_of_toNat_eq
  rw [BitVec.toNat_ofNatLT, BitVec.toNat_ofNatLT, h.first, h.size]

/-- A reservation with any arguments comes to an end: a block is handed out, or nothing changes. -/
theorem WellFormed.reserve_total (hp : p.WellFormed) (r : Request) :
    (∃ why, p.reserve r = .ok (.error why)) ∨
      ∃ b, p.reserve r = .ok (.ok (b, p.withBlocks (Pool.insert b p.blocks))) ∧ p.Vacant b := by
  by_cases hr : r.WellFormed
  · rcases reserve_cases hp hr with ⟨h, -⟩ | ⟨b, h, -, -, -⟩
    · exact .inl ⟨_, h⟩
    · obtain ⟨-, -, hvacant, -⟩ := reserve_eq_ok hp h
      exact .inr ⟨b, h, hvacant⟩
  · refine .inl ⟨.invalid, ?_⟩
    unfold Pool.reserve
    rw [if_neg hr]

theorem WellFormed.carryOut (hp : p.WellFormed) (c : Call) :
    ∃ o q, p.carryOut c = .ok (o, q) ∧ q.WellFormed ∧ SameRange p q ∧
      q.blocks.Perm (o.next p.blocks) := by
  cases c with
  | reserve r =>
    rcases hp.reserve_total r with ⟨why, h⟩ | ⟨b, h, hvacant⟩
    · exact ⟨.refused why, p, by rw [Pool.carryOut, h]; rfl, hp, .refl p, .refl _⟩
    · exact ⟨.reserved b, _, by rw [Pool.carryOut, h]; rfl, hp.insert hvacant,
        sameRange_withBlocks p _, insert_perm b p.blocks⟩
  | release b =>
    by_cases hb : b ∈ p.blocks
    · have h := release_of_mem hb
      exact ⟨.released b, _, by rw [Pool.carryOut, h], hp.erase b, sameRange_withBlocks p _,
        .refl _⟩
    · have h : p.release b = .error .notFound := if_neg hb
      exact ⟨.refused .notFound, p, by rw [Pool.carryOut, h], hp, .refl p, .refl _⟩

theorem WellFormed.runAll (hp : p.WellFormed) (cs : List Call) :
    ∃ outcomes q, p.runAll cs = .ok (outcomes, q) ∧ q.WellFormed ∧ SameRange p q ∧
      q.blocks.Perm (outcomes.foldl Outcome.next p.blocks) := by
  induction cs generalizing p with
  | nil => exact ⟨[], p, rfl, hp, .refl p, .refl _⟩
  | cons c cs ih =>
    obtain ⟨o, next, hnext, hwell, hrange, hblocks⟩ := hp.carryOut c
    obtain ⟨outcomes, q, hq, hqwell, hqrange, hqblocks⟩ := ih hwell
    refine ⟨o :: outcomes, q, ?_, hqwell, hrange.trans hqrange, ?_⟩
    · rw [Pool.runAll, hnext, Checked.ok_bind, hq]
      rfl
    · exact hqblocks.trans (foldl_next_perm hblocks outcomes)

theorem WellFormed.starts (hp : p.WellFormed) :
    p.blocks.Pairwise fun b c => b.start < c.start := by
  refine hp.sorted.imp_of_mem fun {b c} hb _ hle => ?_
  have hpos := (hp.pages b hb).1
  unfold Block.stop at hle
  rw [BitVec.lt_def]
  omega

theorem WellFormed.last_le (hp : p.WellFormed) {b : Block} (hb : b ∈ p.blocks) :
    ∃ last, b.last = .ok last ∧ last ≤ p.last := by
  obtain ⟨-, hstop⟩ := hp.inside b hb
  have htop := p.last.isLt
  obtain ⟨last, hlast, hend⟩ := Block.last_eq_ok (hp.pages b hb).1 (by omega)
  exact ⟨last, hlast, BitVec.le_def.mpr (by omega)⟩

theorem WellFormed.free (hp : p.WellFormed) {n : Word} (hn : p.allocated = .ok n) :
    ∃ m, p.free = .ok m ∧ n.toNat + m.toNat = p.size.toNat := by
  have hlast : p.last.toNat = p.first.toNat + (p.size.toNat - 1) := BitVec.toNat_ofNatLT ..
  have hpos := p.size_pos
  have hlt := p.size.isLt
  obtain ⟨sum, hsum, heq⟩ := hp.allocated
  obtain rfl := Except.ok.inj (hsum.symm.trans hn)
  have hle := sum_sizes_le (by omega) hp.sorted fun b hb =>
    ⟨BitVec.le_def.mp (hp.inside b hb).1, (hp.inside b hb).2⟩
  refine ⟨.ofNat 64 (p.size.toNat - sum.toNat), ?_, ?_⟩
  · rw [Pool.free, hn, Checked.ok_bind, Word.minus_eq_ok_iff, BitVec.toNat_ofNat]
    omega
  · rw [BitVec.toNat_ofNat]
    omega

/-- Whatever is asked of a new pool, every call comes to an end. The blocks that it holds then are
those that live; they start one after the other, lie apart and inside the pool, and are whole pages.
Their sizes add up to what is allocated, and the rest of the pool is free. -/
theorem blocks_after_calls {first size : Word} (hnew : Pool.new first size = .ok p)
    (cs : List Call) :
    ∃ outcomes q, p.runAll cs = .ok (outcomes, q) ∧
      q.first = p.first ∧ q.size = p.size ∧ q.blocks.Perm (live outcomes) ∧
      (q.blocks.Pairwise fun b c => b.start < c.start) ∧ q.blocks.Pairwise Block.Disjoint ∧
      (∀ b ∈ q.blocks, p.first ≤ b.start ∧ ∃ last, b.last = .ok last ∧ last ≤ p.last) ∧
      (∀ b ∈ q.blocks, 0 < b.size.toNat ∧ pageSize ∣ b.size.toNat ∧ pageSize ∣ b.start.toNat) ∧
      ∃ n m, q.allocated = .ok n ∧ n.toNat = (q.blocks.map fun b => b.size.toNat).sum ∧
        q.free = .ok m ∧ n.toNat + m.toNat = p.size.toNat := by
  obtain ⟨outcomes, q, hrun, hq, hrange, hblocks⟩ := (wellFormed_new hnew).runAll cs
  rw [blocks_new hnew] at hblocks
  obtain ⟨n, hn, hsum⟩ := hq.allocated
  obtain ⟨m, hm, hadd⟩ := hq.free hn
  rw [hrange.size] at hadd
  refine ⟨outcomes, q, hrun, hrange.first, hrange.size, hblocks, hq.starts, hq.pairwise_disjoint,
    fun b hb => ⟨?_, ?_⟩, hq.pages, n, m, hn, hsum, hm, hadd⟩
  · exact hrange.first ▸ (hq.inside b hb).1
  · obtain ⟨last, hlast, hle⟩ := hq.last_le hb
    exact ⟨last, hlast, hrange.last ▸ hle⟩

/-- The last two pages of the address space: both are reserved, a third is not to be had, and only
what was reserved is released. -/
theorem blocks_after_calls_at_top :
    let page : Request := ⟨0x1000, 0x1000, 0x1000, some (0, 0xffffffffffffffff)⟩
    let calls : List Call := [.reserve page, .reserve page, .reserve page,
      .release ⟨0xffffffffffffe000, 0x2000⟩, .release ⟨0xffffffffffffe000, 0x1000⟩]
    ∃ p q outcomes, Pool.new 0xffffffffffffe000 0x2000 = .ok p ∧
      p.runAll calls = .ok (outcomes, q) ∧
      live outcomes = [⟨0xfffffffffffff000, 0x1000⟩] ∧ q.blocks.Perm (live outcomes) ∧
      (∀ b ∈ q.blocks, p.first ≤ b.start ∧ ∃ last, b.last = .ok last ∧ last ≤ p.last) ∧
      ∃ n m, q.allocated = .ok n ∧ n.toNat = (q.blocks.map fun b => b.size.toNat).sum ∧
        q.free = .ok m ∧ n.toNat + m.toNat = p.size.toNat := by
  intro page calls
  have hrun : (do
      let p ← Pool.new 0xffffffffffffe000 0x2000
      let (outcomes, _) ← p.runAll calls
      return live outcomes : Checked _).toOption = some [⟨0xfffffffffffff000, 0x1000⟩] := by
    decide +kernel
  obtain ⟨p, hp, hrun⟩ := Checked.bind_eq_ok.mp (Checked.eq_ok_of_toOption hrun)
  obtain ⟨⟨outcomes, q⟩, hq, hlive⟩ := Checked.bind_eq_ok.mp hrun
  obtain ⟨outcomes', q', hq', -, -, hperm, -, -, hinside, -, hsizes⟩ := blocks_after_calls hp calls
  obtain ⟨rfl, rfl⟩ := Prod.mk.inj (Except.ok.inj (hq.symm.trans hq'))
  exact ⟨p, q, outcomes, hp, hq, Except.ok.inj hlive, hperm, hinside, hsizes⟩

end Pool

end Aperture
