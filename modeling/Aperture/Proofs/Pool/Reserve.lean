import Aperture.Proofs.Pool.Search
import Aperture.Proofs.Word.Total

namespace Aperture

namespace Request

theorem WellFormed.fit {r : Request} (h : r.WellFormed) : r.fit.WellFormed := by
  obtain ⟨hsize, -, halign, hbound⟩ := h
  obtain ⟨hunit, -, hpage⟩ := halign.larger Addr.isPowerOfTwo_page
  have hpos : 0 < r.size.toNat :=
    Nat.pos_of_ne_zero fun hz => hsize (BitVec.eq_of_toNat_eq (by simpa using hz))
  refine ⟨hunit, hpage, ?_, hpos, ?_⟩
  · show Word.IsBoundary (if r.size ≤ r.boundary then r.boundary else 0)
    split
    · exact hbound
    · exact .inl rfl
  · show (if r.size ≤ r.boundary then r.boundary else 0) ≠ 0 →
      r.size.toNat ≤ (if r.size ≤ r.boundary then r.boundary else 0 : Word).toNat
    split
    · next hle => exact fun _ => BitVec.le_def.mp hle
    · exact fun hne => absurd rfl hne

end Request

namespace Block

theorem Disjoint.symm {b c : Block} (h : b.Disjoint c) : c.Disjoint b := Or.symm h

end Block

namespace Pool

theorem insert_perm (b : Block) (bs : List Block) : (insert b bs).Perm (b :: bs) := by
  induction bs with
  | nil => exact .refl _
  | cons c cs ih =>
    unfold insert
    split
    · exact (ih.cons c).trans (.swap b c cs)
    · exact .refl _

theorem erase_insert {b : Block} {bs : List Block} (h : b ∉ bs) : (insert b bs).erase b = bs := by
  induction bs with
  | nil => simp [insert]
  | cons c cs ih =>
    obtain ⟨hc, hcs⟩ := not_or.mp (mt List.mem_cons.mpr h)
    unfold insert
    split
    · rw [List.erase_cons_tail (by simpa using Ne.symm hc), ih hcs]
    · exact List.erase_cons_head ..

/-- A block beside all others goes where it keeps them sorted. -/
theorem pairwise_insert {b : Block} {bs : List Block}
    (hsorted : bs.Pairwise fun c d => c.stop ≤ d.start.toNat)
    (hpos : 0 < b.size.toNat) (hsizes : ∀ c ∈ bs, 0 < c.size.toNat)
    (hfree : ∀ c ∈ bs, b.Disjoint c) :
    (insert b bs).Pairwise fun c d => c.stop ≤ d.start.toNat := by
  induction bs with
  | nil => simp [insert]
  | cons c cs ih =>
    obtain ⟨hafter, hrest⟩ := List.pairwise_cons.mp hsorted
    have hc := hfree c (by simp)
    have hcpos := hsizes c (by simp)
    unfold Block.Disjoint Block.stop at hc
    unfold insert
    split
    · next hlt =>
      rw [BitVec.lt_def] at hlt
      refine List.pairwise_cons.mpr ⟨?_, ih hrest (fun d hd => hsizes d (by simp [hd]))
        (fun d hd => hfree d (by simp [hd]))⟩
      intro d hd
      cases List.mem_cons.mp ((insert_perm b cs).mem_iff.mp hd) with
      | inl he => subst he; unfold Block.stop; omega
      | inr hd => exact hafter d hd
    · next hge =>
      rw [BitVec.lt_def] at hge
      refine List.pairwise_cons.mpr ⟨?_, hsorted⟩
      intro d hd
      cases List.mem_cons.mp hd with
      | inl he => subst he; unfold Block.stop; omega
      | inr hd =>
        have := hafter d hd
        unfold Block.stop at this ⊢
        omega

def withBlocks (p : Pool) (bs : List Block) : Pool := { p with blocks := bs }

@[simp] theorem withBlocks_blocks (p : Pool) (bs : List Block) :
    (p.withBlocks bs).blocks = bs := rfl

/-- A block that a pool could hand out: whole pages inside, beside what is handed out. -/
structure Vacant (p : Pool) (b : Block) : Prop where
  above : p.first.toNat ≤ b.start.toNat
  below : b.stop ≤ p.last.toNat + 1
  size_pos : 0 < b.size.toNat
  size_pages : pageSize ∣ b.size.toNat
  start_pages : pageSize ∣ b.start.toNat
  free : ∀ c ∈ p.blocks, b.Disjoint c

theorem Vacant.not_mem {p : Pool} {b : Block} (h : p.Vacant b) : b ∉ p.blocks := by
  intro hb
  have := h.free b hb
  have := h.size_pos
  unfold Block.Disjoint Block.stop at *
  omega

theorem WellFormed.insert {p : Pool} (hp : p.WellFormed) {b : Block} (hb : p.Vacant b) :
    (p.withBlocks (insert b p.blocks)).WellFormed := by
  have mem {c : Block} (hc : c ∈ Pool.insert b p.blocks) : c = b ∨ c ∈ p.blocks :=
    List.mem_cons.mp ((insert_perm b p.blocks).mem_iff.mp hc)
  refine ⟨pairwise_insert hp.sorted hb.size_pos (fun c hc => (hp.pages c hc).1) hb.free, ?_, ?_⟩
  · intro c hc
    cases mem hc with
    | inl he => subst he; exact ⟨BitVec.le_def.mpr hb.above, hb.below⟩
    | inr hc => exact hp.inside c hc
  · intro c hc
    cases mem hc with
    | inl he => subst he; exact ⟨hb.size_pos, hb.size_pages, hb.start_pages⟩
    | inr hc => exact hp.pages c hc

theorem WellFormed.erase {p : Pool} (hp : p.WellFormed) (b : Block) :
    (p.withBlocks (p.blocks.erase b)).WellFormed := by
  have mem {c : Block} (hc : c ∈ p.blocks.erase b) : c ∈ p.blocks := List.mem_of_mem_erase hc
  exact ⟨hp.sorted.sublist List.erase_sublist, fun c hc => hp.inside c (mem hc),
    fun c hc => hp.pages c (mem hc)⟩

theorem WellFormed.pairwise_disjoint {p : Pool} (hp : p.WellFormed) :
    p.blocks.Pairwise Block.Disjoint :=
  hp.sorted.imp .inl

/-- What a successful reservation gives: a vacant block that meets the request in the window. -/
theorem reserve_eq_ok {p q : Pool} (hp : p.WellFormed) {r : Request} {b : Block}
    (h : p.reserve r = .ok (.ok (b, q))) :
    b.size = r.size ∧ q = p.withBlocks (insert b p.blocks) ∧ p.Vacant b ∧
      r.fit.Allows (p.first.larger (r.window.getD (p.first, p.last)).1)
        (p.last.smaller (r.window.getD (p.first, p.last)).2) p.blocks b.start := by
  unfold reserve at h
  split at h
  · next hr =>
    simp only at h
    split at h
    · cases h
    · obtain ⟨found, hfound, h⟩ := Checked.bind_eq_ok.mp h
      cases found with
      | none => cases h
      | some start =>
        obtain ⟨rfl, rfl⟩ := Prod.mk.inj (Except.ok.inj (Except.ok.inj h))
        have hallows := Fit.search?_allows hr.fit hp.sorted hfound
        have habove := BitVec.le_def.mp hallows.above
        have hbelow := hallows.below
        rw [Word.toNat_larger] at habove
        rw [Word.toNat_smaller] at hbelow
        have hpages := hr.2.1
        refine ⟨rfl, rfl, ⟨?_, ?_, hr.fit.size, Nat.dvd_of_mod_eq_zero hpages,
          Nat.dvd_trans hr.fit.pages hallows.aligned, hallows.free⟩, hallows⟩
        · show p.first.toNat ≤ start.toNat
          omega
        · show start.toNat + r.fit.size.toNat ≤ p.last.toNat + 1
          omega
  · cases h

theorem release_of_mem {p : Pool} {b : Block} (hb : b ∈ p.blocks) :
    p.release b = .ok (p.withBlocks (p.blocks.erase b)) := by
  unfold release
  rw [if_pos hb]
  rfl

theorem sum_sizes_le {bs : List Block} {lo hi : Nat} (hle : lo ≤ hi)
    (hsorted : bs.Pairwise fun b c => b.stop ≤ c.start.toNat)
    (hinside : ∀ b ∈ bs, lo ≤ b.start.toNat ∧ b.stop ≤ hi) :
    (bs.map fun b => b.size.toNat).sum ≤ hi - lo := by
  induction bs generalizing lo with
  | nil => simp
  | cons b bs ih =>
    obtain ⟨hafter, hrest⟩ := List.pairwise_cons.mp hsorted
    obtain ⟨hlo, hhi⟩ := hinside b (by simp)
    have hsum := ih hhi hrest fun c hc => ⟨hafter c hc, (hinside c (by simp [hc])).2⟩
    unfold Block.stop at hhi hsum
    simp only [List.map_cons, List.sum_cons]
    omega

theorem WellFormed.allocated {p : Pool} (hp : p.WellFormed) :
    ∃ n, p.allocated = .ok n ∧ n.toNat = (p.blocks.map fun b => b.size.toNat).sum := by
  have hlast : p.last.toNat = p.first.toNat + (p.size.toNat - 1) := BitVec.toNat_ofNatLT ..
  have hpos := p.size_pos
  have hlt := p.size.isLt
  have hinside (b : Block) (hb : b ∈ p.blocks) :
      p.first.toNat ≤ b.start.toNat ∧ b.stop ≤ p.last.toNat + 1 :=
    ⟨BitVec.le_def.mp (hp.inside b hb).1, (hp.inside b hb).2⟩
  have hsum := sum_sizes_le (by omega) hp.sorted hinside
  refine ⟨.ofNat 64 (p.blocks.map fun b => b.size.toNat).sum, ?_, ?_⟩
  · unfold Pool.allocated
    rw [Word.total_eq_ok_iff, List.map_map, BitVec.toNat_ofNat, Nat.mod_eq_of_lt (by omega)]
    rfl
  · rw [BitVec.toNat_ofNat, Nat.mod_eq_of_lt (by omega)]

end Pool

end Aperture
