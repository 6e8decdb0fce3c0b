import Aperture.Proofs.Pool.Places

namespace Aperture

namespace Pool

variable {p q : Pool} {b c : Block} {cs : List Call} {outcomes : List Outcome}

theorem not_outstanding_nil : ¬ Outstanding [] b := by
  intro h
  obtain ⟨before, after, heq, -⟩ := h
  cases before <;> cases heq

theorem outstanding_cons {o : Outcome} {b : Block} :
    Outstanding (o :: outcomes) b ↔
      Outstanding outcomes b ∨ o = .reserved b ∧ .released b ∉ outcomes := by
  constructor
  · intro h
    obtain ⟨before, after, heq, hkept⟩ := h
    cases before with
    | nil =>
      obtain ⟨rfl, rfl⟩ := List.cons.inj heq
      exact .inr ⟨rfl, hkept⟩
    | cons first before =>
      obtain ⟨rfl, rfl⟩ := List.cons.inj heq
      exact .inl ⟨before, after, rfl, hkept⟩
  · intro h
    rcases h with ⟨before, after, rfl, hkept⟩ | ⟨rfl, hkept⟩
    · exact ⟨o :: before, after, rfl, hkept⟩
    · exact ⟨[], outcomes, rfl, hkept⟩

/-- What an outcome adds to and takes from what is handed out, which has no block twice. -/
theorem mem_next_iff {bs : List Block} (hbs : bs.Nodup) {o : Outcome} :
    b ∈ o.next bs ↔ o = .reserved b ∨ b ∈ bs ∧ o ≠ .released b := by
  cases o with
  | reserved c =>
    simp only [Outcome.next, List.mem_cons, Outcome.reserved.injEq, ne_eq, reduceCtorEq,
      not_false_eq_true, and_true, eq_comm]
  | released c =>
    simp only [Outcome.next, hbs.mem_erase_iff, ne_eq, Outcome.released.injEq, reduceCtorEq,
      false_or, and_comm, eq_comm]
  | refused why =>
    simp only [Outcome.next, ne_eq, reduceCtorEq, not_false_eq_true, and_true, false_or]

/-- What is handed out in the end was reserved and not released since, or was handed out before and
never released. -/
theorem WellFormed.mem_runAll_iff (hp : p.WellFormed) (hrun : p.runAll cs = .ok (outcomes, q)) :
    b ∈ q.blocks ↔ Outstanding outcomes b ∨ b ∈ p.blocks ∧ .released b ∉ outcomes := by
  induction cs generalizing p outcomes with
  | nil =>
    obtain ⟨rfl, rfl⟩ := Prod.mk.inj (Except.ok.inj hrun)
    simp [not_outstanding_nil]
  | cons c cs ih =>
    obtain ⟨o, next, hnext, hwell, -, hblocks⟩ := hp.carryOut c
    rw [Pool.runAll, hnext, Checked.ok_bind] at hrun
    obtain ⟨⟨later, q'⟩, hlater, hrun⟩ := Checked.bind_eq_ok.mp hrun
    obtain ⟨rfl, rfl⟩ := Prod.mk.inj (Except.ok.inj hrun)
    rw [ih hwell hlater, hblocks.mem_iff, mem_next_iff hp.nodup, outstanding_cons, List.mem_cons,
      or_and_right, and_assoc, ne_comm, not_or, or_assoc]

theorem carryOut_release_of_mem (hb : b ∈ p.blocks) :
    p.carryOut (.release b) = .ok (.released b, p.withBlocks (p.blocks.erase b)) := by
  rw [Pool.carryOut, release_of_mem hb]

theorem carryOut_release_of_not_mem (hb : b ∉ p.blocks) :
    p.carryOut (.release b) = .ok (.refused .notFound, p) := by
  rw [Pool.carryOut, show p.release b = .error .notFound from if_neg hb]

theorem WellFormed.carryOut_release_reserved (hp : p.WellFormed) {r : Request}
    (h : p.carryOut (.reserve r) = .ok (.reserved b, q)) :
    q.carryOut (.release b) = .ok (.released b, p) := by
  rcases hp.reserve_total r with ⟨why, hrefused⟩ | ⟨c, hreserved, hvacant⟩
  · rw [Pool.carryOut, hrefused] at h
    cases h
  · rw [Pool.carryOut, hreserved] at h
    obtain ⟨hb, rfl⟩ := Prod.mk.inj (Except.ok.inj h)
    obtain rfl := Outcome.reserved.inj hb
    have hmem : c ∈ (p.withBlocks (Pool.insert c p.blocks)).blocks :=
      (insert_perm c p.blocks).mem_iff.mpr (List.mem_cons_self ..)
    rw [carryOut_release_of_mem hmem, withBlocks_blocks, erase_insert hvacant.not_mem]
    rfl

theorem runAll_release_two (hb : b ∈ p.blocks) (hc : c ∈ p.blocks) (hne : b ≠ c) :
    p.runAll [.release b, .release c] =
      .ok ([.released b, .released c], p.withBlocks ((p.blocks.erase b).erase c)) := by
  have hc' : c ∈ (p.withBlocks (p.blocks.erase b)).blocks :=
    (List.mem_erase_of_ne hne.symm).mpr hc
  rw [runAll, carryOut_release_of_mem hb, Checked.ok_bind, runAll, carryOut_release_of_mem hc']
  rfl

/-- Whatever was asked of a new pool: a block can be released exactly if it was reserved and not
released since, then it alone is gone, and otherwise nothing changes; bisection of the starts comes
to the same. Releasing undoes the reservation before it, two releases may be exchanged, and another
history that leaves the same blocks outstanding leaves the same pool, so nothing asked later can
tell the two apart. -/
theorem release_exact {first size : Word} (hnew : Pool.new first size = .ok p)
    (cs : List Call) :
    ∃ outcomes q, p.runAll cs = .ok (outcomes, q) ∧
      (∀ b, Outstanding outcomes b → ∃ q', q.carryOut (.release b) = .ok (.released b, q') ∧
        q'.first = q.first ∧ q'.size = q.size ∧ ∀ c, c ∈ q'.blocks ↔ c ∈ q.blocks ∧ c ≠ b) ∧
      (∀ b, ¬ Outstanding outcomes b → q.carryOut (.release b) = .ok (.refused .notFound, q)) ∧
      (∀ b, q.release b = q.releaseAt b) ∧
      (∀ r b q', q.carryOut (.reserve r) = .ok (.reserved b, q') →
        q'.carryOut (.release b) = .ok (.released b, q)) ∧
      (∀ b c, Outstanding outcomes b → Outstanding outcomes c → b ≠ c →
        ∃ q', q.runAll [.release b, .release c] = .ok ([.released b, .released c], q') ∧
          q.runAll [.release c, .release b] = .ok ([.released c, .released b], q')) ∧
      ∀ cs' outcomes' q', p.runAll cs' = .ok (outcomes', q') →
        (∀ b, Outstanding outcomes' b ↔ Outstanding outcomes b) → q' = q := by
  have hp := wellFormed_new hnew
  have hout {cs : List Call} {outcomes : List Outcome} {q : Pool}
      (hrun : p.runAll cs = .ok (outcomes, q)) (b : Block) :
      b ∈ q.blocks ↔ Outstanding outcomes b := by
    rw [hp.mem_runAll_iff hrun, blocks_new hnew]
    exact or_iff_left fun h => List.not_mem_nil h.1
  obtain ⟨outcomes, q, hrun, hq, hrange, -⟩ := hp.runAll cs
  have hout' := hout hrun
  refine ⟨outcomes, q, hrun, fun b hb => ?_, fun b hb => ?_, hq.release_eq_releaseAt,
    fun r b q' h => hq.carryOut_release_reserved h, fun b c hb hc hne => ?_,
    fun cs' outcomes' q' hrun' hsame => ?_⟩
  · refine ⟨_, carryOut_release_of_mem ((hout' b).mpr hb), rfl, rfl, fun c => ?_⟩
    rw [withBlocks_blocks, hq.nodup.mem_erase_iff, and_comm]
  · exact carryOut_release_of_not_mem (mt (hout' b).mp hb)
  · have hb := (hout' b).mpr hb
    have hc := (hout' c).mpr hc
    refine ⟨_, runAll_release_two hb hc hne, ?_⟩
    rw [runAll_release_two hc hb hne.symm, List.erase_comm]
  · obtain ⟨_, _, hrun'', hq', hrange', -⟩ := hp.runAll cs'
    obtain ⟨rfl, rfl⟩ := Prod.mk.inj (Except.ok.inj (hrun'.symm.trans hrun''))
    refine hq.eq_of_mem_iff hq' ⟨?_, ?_⟩ fun b => ?_
    · exact hrange'.first.trans hrange.first.symm
    · exact hrange'.size.trans hrange.size.symm
    · rw [hout hrun', hsame, hout']

/-- Two histories leave the same two blocks outstanding, and the same pool. One of them starts where
a longer block was before, which is not released again, nor is what lies inside a block. -/
theorem release_exact_of_same_start :
    let page : Request := ⟨0x1000, 0x1000, 0, none⟩
    let pages : Request := ⟨0x2000, 0x1000, 0, none⟩
    let short : Block := ⟨0x10000, 0x1000⟩
    let long : Block := ⟨0x10000, 0x2000⟩
    let other : Block := ⟨0x12000, 0x2000⟩
    let cs : List Call := [.reserve pages, .reserve pages, .release long, .reserve page]
    let cs' : List Call := [.reserve page, .reserve page, .reserve pages,
      .release ⟨0x11000, 0x1000⟩]
    ∃ p outcomes outcomes' q, Pool.new 0x10000 0x8000 = .ok p ∧
      p.runAll cs = .ok (outcomes, q) ∧ p.runAll cs' = .ok (outcomes', q) ∧
      (∀ b, Outstanding outcomes b ↔ b = short ∨ b = other) ∧
      q.carryOut (.release long) = .ok (.refused .notFound, q) ∧
      q.carryOut (.release ⟨0x13000, 0x1000⟩) = .ok (.refused .notFound, q) ∧
      ∃ q', q.runAll [.release short, .release other] =
          .ok ([.released short, .released other], q') ∧
        q.runAll [.release other, .release short] =
          .ok ([.released other, .released short], q') := by
  intro page pages short long other cs cs'
  have hrun : (do
      let p ← Pool.new 0x10000 0x8000
      let (outcomes, _) ← p.runAll cs
      let (outcomes', _) ← p.runAll cs'
      return (outcomes, outcomes') : Checked _).toOption = some
        ([.reserved long, .reserved other, .released long, .reserved short],
          [.reserved short, .reserved ⟨0x11000, 0x1000⟩, .reserved other,
            .released ⟨0x11000, 0x1000⟩]) := by decide +kernel
  obtain ⟨p, hp, hrun⟩ := Checked.bind_eq_ok.mp (Checked.eq_ok_of_toOption hrun)
  obtain ⟨⟨outcomes, q⟩, hq, hrun⟩ := Checked.bind_eq_ok.mp hrun
  obtain ⟨⟨outcomes', q'⟩, hq', hrun⟩ := Checked.bind_eq_ok.mp hrun
  obtain ⟨hcs, hcs'⟩ := Prod.mk.inj (Except.ok.inj hrun)
  have hout (b : Block) : Outstanding outcomes b ↔ b = short ∨ b = other := by
    rw [show outcomes = _ from hcs]
    grind [outstanding_cons, not_outstanding_nil]
  have hout' (b : Block) : Outstanding outcomes' b ↔ b = short ∨ b = other := by
    rw [show outcomes' = _ from hcs']
    grind [outstanding_cons, not_outstanding_nil]
  obtain ⟨_, _, hq₁, -, hrefused, -, -, hswap, hsame⟩ := release_exact hp cs
  obtain ⟨rfl, rfl⟩ := Prod.mk.inj (Except.ok.inj (hq.symm.trans hq₁))
  obtain rfl := hsame cs' outcomes' q' hq' fun b => (hout' b).trans (hout b).symm
  exact ⟨p, outcomes, outcomes', q', hp, hq, hq', hout,
    hrefused long (mt (hout long).mp (by decide)), hrefused _ (mt (hout _).mp (by decide)),
    hswap short other ((hout short).mpr (.inl rfl)) ((hout other).mpr (.inr rfl)) (by decide)⟩

end Pool

end Aperture
