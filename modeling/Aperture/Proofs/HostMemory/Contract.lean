import Aperture.HostMemory.History
import Aperture.Proofs.Pool.Release
import Aperture.Proofs.Pool.Suits
import Mathlib.Data.List.Nodup

namespace Aperture

def Run.block (r : Run .phys) : Block := ⟨r.addr.word, r.length⟩

theorem Run.block_injective : Function.Injective Run.block := by
  intro r s h
  obtain ⟨⟨start⟩, length⟩ := r
  obtain ⟨⟨start'⟩, length'⟩ := s
  obtain ⟨rfl, rfl⟩ := Block.mk.inj h
  rfl

namespace HostMemory

def request (length alignment boundary : Word) : Request :=
  ⟨.ofNat 64 (rounded length), alignment.larger 1, boundary, none⟩

variable {first size length alignment boundary : Word} {p : Pool} {m m' : HostMemory}
  {lives : List (Run .phys)}

theorem toNat_request_size (alignment boundary : Word)
    (hfits : rounded length < 2 ^ 64) :
    (request length alignment boundary).size.toNat = rounded length := by
  rw [request, BitVec.toNat_ofNat, Nat.mod_eq_of_lt hfits]

theorem pagesFor_lt (length : Word) : pagesFor length.toNat < 2 ^ 64 := by
  have hlt := length.isLt
  unfold pagesFor pageSize
  omega

theorem times_pages (hfits : rounded length < 2 ^ 64) :
    Word.times (.ofNat 64 (pagesFor length.toNat)) pageSize = .ok (.ofNat 64 (rounded length)) := by
  rw [Word.times_eq_ok_iff, BitVec.toNat_ofNat, BitVec.toNat_ofNat,
    Nat.mod_eq_of_lt (pagesFor_lt length), Nat.mod_eq_of_lt hfits, rounded]

/-- No alignment is one that every address has. -/
theorem isPowerOfTwo_larger_one (w : Word) : (w.larger 1).IsPowerOfTwo ↔ w.IsBoundary := by
  unfold Word.larger
  by_cases hle : w ≤ 1
  · rw [if_pos hle]
    refine iff_of_true ⟨0, rfl⟩ ?_
    rw [BitVec.le_def] at hle
    have hcases : w.toNat = 0 ∨ w.toNat = 1 := by
      have hone : (1 : Word).toNat = 1 := rfl
      omega
    rcases hcases with hzero | hone
    · exact .inl (Word.eq_zero_iff.mpr hzero)
    · exact .inr ⟨0, hone⟩
  · rw [if_neg hle]
    refine ⟨.inr, fun h => h.resolve_left fun hzero => hle ?_⟩
    rw [hzero]
    decide

theorem request_wellFormed_iff (hfits : rounded length < 2 ^ 64) (alignment boundary : Word) :
    (request length alignment boundary).WellFormed ↔ Admits length alignment boundary := by
  have hsize := toNat_request_size alignment boundary hfits
  have hpages : (request length alignment boundary).size.toNat % pageSize = 0 := by
    rw [hsize]
    exact Nat.mul_mod_left _ _
  have hzero : (request length alignment boundary).size = 0 ↔ length = 0 := by
    rw [Word.eq_zero_iff, Word.eq_zero_iff, hsize]
    unfold rounded pagesFor pageSize
    omega
  unfold Request.WellFormed Admits
  rw [ne_eq, hzero]
  exact ⟨fun h => ⟨h.1, (isPowerOfTwo_larger_one _).mp h.2.2.1, h.2.2.2⟩,
    fun h => ⟨h.1, hpages, (isPowerOfTwo_larger_one _).mpr h.2.1, h.2.2⟩⟩

/-- The memory has a pool, which holds exactly what lives. -/
structure Holds (m : HostMemory) (first size : Word) (lives : List (Run .phys)) (p : Pool) :
    Prop where
  pool : m.pool = some p
  wellFormed : p.WellFormed
  first : p.first = first
  size : p.size = size
  blocks : p.blocks.Perm (lives.map Run.block)

namespace Holds

variable (h : m.Holds first size lives p)

include h

theorem mem_iff {r : Run .phys} : r.block ∈ p.blocks ↔ r ∈ lives := by
  rw [h.blocks.mem_iff, List.mem_map_of_injective Run.block_injective]

theorem suits_iff (hfits : rounded length < 2 ^ 64) {s : Nat} :
    p.Suits (request length alignment boundary) s ↔
      Place first size lives length alignment boundary s := by
  have hsize := toNat_request_size alignment boundary hfits
  have hlast : p.last.toNat + 1 = first.toNat + size.toNat := by
    have hpos := p.size_pos
    rw [← h.first, ← h.size, Pool.last, BitVec.toNat_ofNatLT]
    omega
  have halign : max (request length alignment boundary).alignment.toNat pageSize =
      max alignment.toNat pageSize := by
    have hone : (1 : Word).toNat ≤ pageSize := by decide
    rw [request, Word.toNat_larger]
    omega
  have hapart : (∀ b ∈ p.blocks, s + rounded length ≤ b.start.toNat ∨ b.stop ≤ s) ↔
      ∀ r ∈ lives, s + rounded length ≤ r.addr.word.toNat ∨
        r.addr.word.toNat + r.length.toNat ≤ s := by
    simp only [h.blocks.mem_iff, List.forall_mem_map]
    rfl
  constructor
  · intro hsuits
    obtain ⟨haligned, habove, hbelow, -, hfree, huncrossed⟩ := hsuits
    rw [hsize] at hbelow huncrossed
    rw [hsize] at hfree
    exact ⟨halign ▸ haligned, h.first ▸ habove, hlast ▸ hbelow, hapart.mp hfree, huncrossed⟩
  · intro hplace
    refine ⟨halign ▸ hplace.aligned, h.first ▸ hplace.above, ?_, ?_, ?_, ?_⟩
    · rw [hsize, hlast]
      exact hplace.below
    · intro w hw
      cases hw
    · rw [hsize]
      exact hapart.mpr hplace.apart
    · rw [hsize]
      exact hplace.uncrossed

/-- What is asked of the pool, and what becomes of its answer. -/
theorem alloc_eq (hfits : rounded length < 2 ^ 64) : m.alloc length alignment boundary = (do
    match ← p.reserve (request length alignment boundary) with
    | .error .spaceExhausted =>
      return .error ⟨.outOfMemory, some (.noMemory (.ofNat 64 (rounded length)))⟩
    | .error reason => return .error ⟨reason, none⟩
    | .ok (block, pool) =>
      return .ok (⟨⟨block.start⟩, .ofNat 64 (rounded length)⟩, { m with pool := some pool })) := by
  have htimes := times_pages hfits
  unfold pagesFor at htimes
  unfold alloc
  rw [h.pool]
  simp only [htimes, Checked.ok_bind]
  rfl

/-- Memory is handed out where a request finds a place, unless what is asked for is not allowed or
has no place. -/
theorem alloc_cases (hfits : rounded length < 2 ^ 64) (alignment boundary : Word) :
    ∃ o m', m.carryOut (.alloc length alignment boundary) = .ok (o, m') ∧
      ((¬ Admits length alignment boundary ∧ o = .refused .invalid ∧ m' = m) ∨
      (Admits length alignment boundary ∧
        (∀ s, ¬ Place first size lives length alignment boundary s) ∧
        o = .refused .outOfMemory ∧ m' = m) ∨
      (Admits length alignment boundary ∧ ∃ r p', o = .allocated r ∧
        r.length.toNat = rounded length ∧
        Place first size lives length alignment boundary r.addr.word.toNat ∧
        m'.Holds first size (r :: lives) p')) := by
  have hwell := request_wellFormed_iff hfits alignment boundary
  rw [carryOut, h.alloc_eq hfits]
  by_cases hr : Admits length alignment boundary
  · rcases Pool.reserve_suits h.wellFormed (hwell.mpr hr) with
      ⟨hrefused, hno⟩ | ⟨b, hreserved, hb, hsuits, -⟩
    · rw [hrefused]
      exact ⟨_, m, rfl, .inr (.inl ⟨hr, fun s hs => hno s ((h.suits_iff hfits).mpr hs), rfl, rfl⟩)⟩
    · have hlength : b.size = .ofNat 64 (rounded length) := hb
      rw [hreserved]
      refine ⟨_, _, rfl, .inr (.inr ⟨hr, ⟨⟨b.start⟩, .ofNat 64 (rounded length)⟩,
        p.withBlocks (Pool.insert b p.blocks), rfl, ?_, (h.suits_iff hfits).mp hsuits, rfl, ?_,
        h.first, h.size, ?_⟩)⟩
      · rw [BitVec.toNat_ofNat, Nat.mod_eq_of_lt hfits]
      · obtain ⟨-, -, hvacant, -⟩ := Pool.reserve_eq_ok h.wellFormed hreserved
        exact h.wellFormed.insert hvacant
      · rw [List.map_cons, Run.block, ← hlength]
        exact (Pool.insert_perm b p.blocks).trans (h.blocks.cons b)
  · have hrefused : p.reserve (request length alignment boundary) = .ok (.error .invalid) := by
      unfold Pool.reserve
      rw [if_neg (mt hwell.mp hr)]
    rw [hrefused]
    exact ⟨_, m, rfl, .inl ⟨hr, rfl, rfl⟩⟩

theorem rounded_lt {o : Outcome} (halloc : m.carryOut (.alloc length alignment boundary) =
    .ok (o, m')) : rounded length < 2 ^ 64 := by
  obtain ⟨answer, hanswer, -⟩ := Checked.bind_eq_ok.mp halloc
  unfold alloc at hanswer
  rw [h.pool] at hanswer
  obtain ⟨total, htotal, -⟩ := Checked.bind_eq_ok.mp hanswer
  have hlt := total.isLt
  have hpages := pagesFor_lt length
  rw [Word.times_eq_ok_iff, BitVec.toNat_ofNat] at htotal
  unfold pagesFor at hpages
  rw [Nat.mod_eq_of_lt hpages] at htotal
  rw [rounded, pagesFor, ← htotal]
  exact hlt

/-- What lives is taken back, and nothing else. -/
theorem free_cases (r : Run .phys) :
    ∃ o m', m.carryOut (.free r) = .ok (o, m') ∧
      ((r ∈ lives ∧ o = .freed r ∧ ∃ p', m'.Holds first size (lives.erase r) p') ∨
      (r ∉ lives ∧ o = .refused .notFound ∧ m' = m)) := by
  have hmem := h.mem_iff (r := r)
  unfold Run.block at hmem
  rw [carryOut, free, h.pool]
  by_cases hr : r ∈ lives
  · have hrelease := Pool.release_of_mem (hmem.mpr hr)
    simp only [hrelease]
    refine ⟨_, _, rfl, .inl ⟨hr, rfl, p.withBlocks (p.blocks.erase r.block), rfl,
      h.wellFormed.erase r.block, h.first, h.size, ?_⟩⟩
    rw [List.map_erase Run.block_injective]
    exact h.blocks.erase r.block
  · have hrelease : p.release ⟨r.addr.word, r.length⟩ = .error .notFound := if_neg (mt hmem.mp hr)
    simp only [hrelease]
    exact ⟨_, m, rfl, .inr ⟨hr, rfl, rfl⟩⟩

/-- A call that comes to an end leaves a pool that holds what lives then. -/
theorem carryOut {c : Call} {o : Outcome} (hcall : m.carryOut c = .ok (o, m')) :
    ∃ p', m'.Holds first size (o.next lives) p' := by
  cases c with
  | alloc length alignment boundary =>
    obtain ⟨o', left, hcall', hcases⟩ := h.alloc_cases (h.rounded_lt hcall) alignment boundary
    obtain ⟨rfl, rfl⟩ := Prod.mk.inj (Except.ok.inj (hcall.symm.trans hcall'))
    rcases hcases with ⟨-, rfl, rfl⟩ | ⟨-, -, rfl, rfl⟩ | ⟨-, r, p', rfl, -, -, hholds⟩
    · exact ⟨p, h⟩
    · exact ⟨p, h⟩
    · exact ⟨p', hholds⟩
  | free r =>
    obtain ⟨o', left, hcall', hcases⟩ := h.free_cases r
    obtain ⟨rfl, rfl⟩ := Prod.mk.inj (Except.ok.inj (hcall.symm.trans hcall'))
    rcases hcases with ⟨-, rfl, p', hholds⟩ | ⟨-, rfl, rfl⟩
    · exact ⟨p', hholds⟩
    · exact ⟨p, h⟩

theorem runAll {cs : List Call} {outcomes : List Outcome}
    (hrun : m.runAll cs = .ok (outcomes, m')) :
    ∃ p', m'.Holds first size (outcomes.foldl Outcome.next lives) p' := by
  induction cs generalizing m lives p outcomes with
  | nil =>
    obtain ⟨rfl, rfl⟩ := Prod.mk.inj (Except.ok.inj hrun)
    exact ⟨p, h⟩
  | cons c cs ih =>
    obtain ⟨⟨o, next⟩, hnext, hrun⟩ := Checked.bind_eq_ok.mp hrun
    obtain ⟨⟨later, left⟩, hlater, hrun⟩ := Checked.bind_eq_ok.mp hrun
    obtain ⟨rfl, rfl⟩ := Prod.mk.inj (Except.ok.inj hrun)
    obtain ⟨p', hholds⟩ := h.carryOut hnext
    exact ih hholds hlater

end Holds

theorem holds_new (hnew : Pool.new first size = .ok p) (host : Host) :
    (⟨some p, host⟩ : HostMemory).Holds first size [] p := by
  obtain ⟨hfirst, hsize, hnone⟩ := Pool.new_eq_ok hnew
  refine ⟨rfl, Pool.wellFormed_new hnew, hfirst, hsize, ?_⟩
  rw [hnone]
  exact .nil

/-- Whatever was asked of new memory before, as long as the calls came to an end: an allocation that
comes to an end gives whole pages at a place for them beside all that lives, or it is refused and
nothing changes. It is invalid exactly if it may not be asked for, and out of memory exactly if it
may and there is no place. No run lives twice; one is taken back exactly if it lives, and is not
found otherwise. -/
theorem alloc_free_exact (hnew : Pool.new first size = .ok p) {host : Host} {cs : List Call}
    {outcomes : List Outcome} (hrun : runAll ⟨some p, host⟩ cs = .ok (outcomes, m)) :
    (∀ length alignment boundary, rounded length < 2 ^ 64 →
      ∃ o m', m.carryOut (.alloc length alignment boundary) = .ok (o, m')) ∧
    (∀ length alignment boundary o m',
      m.carryOut (.alloc length alignment boundary) = .ok (o, m') →
      (∀ r, o = .allocated r → r.length.toNat = rounded length ∧
        Place first size (live outcomes) length alignment boundary r.addr.word.toNat) ∧
      (o = .refused .invalid ↔ ¬ Admits length alignment boundary) ∧
      (o = .refused .outOfMemory ↔ Admits length alignment boundary ∧
        ∀ s, ¬ Place first size (live outcomes) length alignment boundary s) ∧
      ((∃ r, o = .allocated r) ∨ (o = .refused .invalid ∨ o = .refused .outOfMemory) ∧ m' = m)) ∧
    (live outcomes).Nodup ∧ ∀ r,
      ((∃ m', m.carryOut (.free r) = .ok (.freed r, m')) ↔ r ∈ live outcomes) ∧
      (m.carryOut (.free r) = .ok (.refused .notFound, m) ↔ r ∉ live outcomes) := by
  obtain ⟨q, h⟩ := (holds_new hnew host).runAll hrun
  have hdistinct : (live outcomes).Nodup :=
    List.Nodup.of_map Run.block (h.blocks.nodup_iff.mp h.wellFormed.nodup)
  refine ⟨fun length alignment boundary hfits => ?_, fun length alignment boundary o m' hcall => ?_,
    hdistinct, fun r => ?_⟩
  · obtain ⟨o, m', hcall, -⟩ := h.alloc_cases hfits alignment boundary
    exact ⟨o, m', hcall⟩
  · obtain ⟨o', left, hcall', hcases⟩ := h.alloc_cases (h.rounded_lt hcall) alignment boundary
    obtain ⟨rfl, rfl⟩ := Prod.mk.inj (Except.ok.inj (hcall.symm.trans hcall'))
    rcases hcases with ⟨hbad, rfl, rfl⟩ | ⟨hgood, hno, rfl, rfl⟩ |
      ⟨hgood, r, q', rfl, hlength, hplace, -⟩
    · refine ⟨fun r hr => (by cases hr), iff_of_true rfl hbad, ?_, .inr ⟨.inl rfl, rfl⟩⟩
      exact iff_of_false (fun he => by cases he) fun hgood => hbad hgood.1
    · refine ⟨fun r hr => (by cases hr), ?_, iff_of_true rfl ⟨hgood, hno⟩, .inr ⟨.inr rfl, rfl⟩⟩
      exact iff_of_false (fun he => by cases he) fun hbad => hbad hgood
    · refine ⟨fun r' hr => ?_, ?_, ?_, .inl ⟨r, rfl⟩⟩
      · obtain rfl := Outcome.allocated.inj hr
        exact ⟨hlength, hplace⟩
      · exact iff_of_false (fun he => by cases he) fun hbad => hbad hgood
      · exact iff_of_false (fun he => by cases he) fun hno => hno.2 _ hplace
  · obtain ⟨o, m', hcall, hcases⟩ := h.free_cases r
    rcases hcases with ⟨hlive, rfl, -⟩ | ⟨hdead, rfl, rfl⟩
    · refine ⟨iff_of_true ⟨m', hcall⟩ hlive, iff_of_false (fun he => ?_) (not_not.mpr hlive)⟩
      cases hcall.symm.trans he
    · refine ⟨iff_of_false (fun he => ?_) hdead, iff_of_true hcall hdead⟩
      obtain ⟨m', he⟩ := he
      cases hcall.symm.trans he

/-- Of four pages the first and the last are free, two that lie in one block are not to be had, and
half of a run is not taken back. -/
theorem alloc_free_exact_between :
    let cs : List Call := [.alloc 0x1001 0 0x2000, .alloc 1 0 0, .free ⟨⟨0x1000⟩, 0x1000⟩]
    let r : Run .phys := ⟨⟨0x2000⟩, 0x2000⟩
    ∃ p outcomes m, Pool.new 0x1000 0x4000 = .ok p ∧
      runAll ⟨some p, .plain⟩ cs = .ok (outcomes, m) ∧ live outcomes = [r] ∧
      (∃ o m', m.carryOut (.alloc 0x2000 0x1000 0x2000) = .ok (o, m') ∧
        o = .refused .outOfMemory ∧ m' = m) ∧
      (∀ s, ¬ Place 0x1000 0x4000 (live outcomes) 0x2000 0x1000 0x2000 s) ∧
      (∃ m', m.carryOut (.free r) = .ok (.freed r, m')) ∧
      m.carryOut (.free ⟨⟨0x2000⟩, 0x1000⟩) = .ok (.refused .notFound, m) := by
  intro cs r
  have hrun : (do
      let p ← Pool.new 0x1000 0x4000
      let (outcomes, m) ← runAll ⟨some p, .plain⟩ cs
      let (o, _) ← m.carryOut (.alloc 0x2000 0x1000 0x2000)
      return (live outcomes, o) : Checked _).toOption = some ([r], .refused .outOfMemory) := by
    decide +kernel
  obtain ⟨p, hp, hrun⟩ := Checked.bind_eq_ok.mp (Checked.eq_ok_of_toOption hrun)
  obtain ⟨⟨outcomes, m⟩, hm, hrun⟩ := Checked.bind_eq_ok.mp hrun
  obtain ⟨⟨o, m'⟩, ho, hrun⟩ := Checked.bind_eq_ok.mp hrun
  obtain ⟨hlive, rfl⟩ := Prod.mk.inj (Except.ok.inj hrun)
  have hlive : live outcomes = [r] := hlive
  obtain ⟨-, halloc, -, hfree⟩ := alloc_free_exact hp hm
  obtain ⟨-, -, hmemory, hkept⟩ := halloc _ _ _ _ _ ho
  have hother : (⟨⟨0x2000⟩, 0x1000⟩ : Run .phys) ∉ live outcomes := by
    rw [hlive]
    decide
  refine ⟨p, outcomes, m, hp, hm, hlive, ⟨_, m', ho, rfl, ?_⟩, (hmemory.mp rfl).2,
    (hfree r).1.mpr (by rw [hlive]; exact List.mem_singleton_self r), (hfree _).2.mpr hother⟩
  rcases hkept with ⟨r', hr'⟩ | ⟨-, rfl⟩
  · cases hr'
  · rfl

end HostMemory

end Aperture
