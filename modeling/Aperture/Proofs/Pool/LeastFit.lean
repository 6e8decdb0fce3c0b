import Aperture.Proofs.Pool.Places
import Aperture.Proofs.Pool.Suits

namespace Aperture

namespace Pool

variable {p q : Pool} {r : Request} {b : Block}

/-- A block is handed out exactly if it is as long as the request and at the least position that
suits. -/
theorem WellFormed.carryOut_reserve_iff (hp : p.WellFormed) (hr : r.WellFormed) :
    p.carryOut (.reserve r) = .ok (.reserved b, q) ↔
      b.size = r.size ∧ IsLeast {s | p.Suits r s} b.start.toNat ∧ q = p.insertAt b := by
  rcases reserve_suits hp hr with ⟨hrefused, hno⟩ | ⟨c, hreserved, hsize, hleast⟩
  · rw [Pool.carryOut, hrefused]
    constructor
    · intro h
      cases h
    · intro h
      exact absurd h.2.1.1 (hno _)
  · rw [hp.withBlocks_insert] at hreserved
    rw [Pool.carryOut, hreserved]
    constructor
    · intro h
      obtain ⟨hb, rfl⟩ := Prod.mk.inj (Except.ok.inj h)
      obtain rfl := Outcome.reserved.inj hb
      exact ⟨hsize, hleast, rfl⟩
    · intro h
      obtain ⟨hsize', hleast', rfl⟩ := h
      have hstart : c.start = b.start := BitVec.eq_of_toNat_eq (hleast.unique hleast')
      obtain ⟨start, size⟩ := b
      obtain ⟨_, _⟩ := c
      obtain rfl : _ = start := hstart
      obtain rfl : _ = size := hsize.trans hsize'.symm
      rfl

theorem WellFormed.carryOut_reserve_exhausted_iff (hp : p.WellFormed) (hr : r.WellFormed) :
    p.carryOut (.reserve r) = .ok (.refused .spaceExhausted, p) ↔ ∀ s, ¬ p.Suits r s := by
  rcases reserve_suits hp hr with ⟨hrefused, hno⟩ | ⟨c, hreserved, -, hleast⟩
  · rw [Pool.carryOut, hrefused]
    exact iff_of_true rfl hno
  · rw [Pool.carryOut, hreserved]
    refine iff_of_false (fun h => ?_) fun h => h _ hleast.1
    cases h

/-- Whatever was asked of a new pool before, a well-formed request is given the block at the least
position that suits it, and that block alone comes to what is handed out. The request is refused
exactly if no position suits, and then the pool stays as it is. -/
theorem reserve_first_fit {first size : Word} (hnew : Pool.new first size = .ok p)
    (cs : List Call) (hr : r.WellFormed) :
    ∃ outcomes q, p.runAll cs = .ok (outcomes, q) ∧
      (∀ b q', q.carryOut (.reserve r) = .ok (.reserved b, q') ↔
        b.size = r.size ∧ IsLeast {s | q.Suits r s} b.start.toNat ∧ q' = q.insertAt b) ∧
      (∀ b, (q.insertAt b).blocks.Perm (b :: q.blocks)) ∧
      (q.carryOut (.reserve r) = .ok (.refused .spaceExhausted, q) ↔ ∀ s, ¬ q.Suits r s) := by
  obtain ⟨outcomes, q, hrun, hq, -, -⟩ := (wellFormed_new hnew).runAll cs
  exact ⟨outcomes, q, hrun, fun b q' => hq.carryOut_reserve_iff hr, hq.insertAt_perm,
    hq.carryOut_reserve_exhausted_iff hr⟩

/-- Near the top of the address space the first page is free again, but lies before the window; the
next free pages would cross a boundary multiple, so the block comes after that multiple. -/
theorem reserve_first_fit_past_boundary :
    let page : Request := ⟨0x1000, 0x1000, 0, none⟩
    let cs : List Call := [.reserve page, .reserve page, .reserve page,
      .release ⟨0xffffffffffff0000, 0x1000⟩]
    let r : Request := ⟨0x2000, 0x1000, 0x2000, some (0xffffffffffff0800, 0xffffffffffffffff)⟩
    let b : Block := ⟨0xffffffffffff4000, 0x2000⟩
    r.WellFormed ∧ ∃ p outcomes q q', Pool.new 0xffffffffffff0000 0x10000 = .ok p ∧
      p.runAll cs = .ok (outcomes, q) ∧ q.carryOut (.reserve r) = .ok (.reserved b, q') ∧
      IsLeast {s | q.Suits r s} 0xffffffffffff4000 ∧ q' = q.insertAt b ∧
      q'.blocks.Perm (b :: q.blocks) := by
  intro page cs r b
  have hr : r.WellFormed := by decide +kernel
  have hrun : (do
      let p ← Pool.new 0xffffffffffff0000 0x10000
      let (_, q) ← p.runAll cs
      let (o, _) ← q.carryOut (.reserve r)
      return match o with
        | .reserved c => some c
        | _ => none : Checked _).toOption = some (some b) := by decide +kernel
  obtain ⟨p, hp, hrun⟩ := Checked.bind_eq_ok.mp (Checked.eq_ok_of_toOption hrun)
  obtain ⟨⟨outcomes, q⟩, hq, hrun⟩ := Checked.bind_eq_ok.mp hrun
  obtain ⟨⟨o, q'⟩, ho, hblock⟩ := Checked.bind_eq_ok.mp hrun
  obtain ⟨outcomes', q₁, hq₁, hreserved, hperm, -⟩ := reserve_first_fit hp cs hr
  obtain ⟨rfl, rfl⟩ := Prod.mk.inj (Except.ok.inj (hq.symm.trans hq₁))
  cases o with
  | reserved c =>
    obtain rfl := Option.some.inj (Except.ok.inj hblock)
    obtain ⟨-, hleast, rfl⟩ := (hreserved b q').mp ho
    exact ⟨hr, p, outcomes, q, _, hp, hq, ho, hleast, rfl, hperm b⟩
  | released c => cases Except.ok.inj hblock
  | refused why => cases Except.ok.inj hblock

end Pool

end Aperture
