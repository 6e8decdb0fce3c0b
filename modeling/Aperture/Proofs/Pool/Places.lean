import Aperture.Pool.Places
import Aperture.Proofs.Pool.History

namespace Aperture

namespace Pool

variable {p q : Pool} {b c : Block} {bs : List Block}

theorem any_start_lt {bs : List Block} {i : Nat} {start : Word} (hc : bs[i]? = some c) :
    bs[i]?.any (·.start < start) ↔ c.start < start := by
  rw [hc]
  exact decide_eq_true_iff

/-- The blocks before a place start before it, and those from it on do not. -/
theorem WellFormed.place_spec (hp : p.WellFormed) (start : Word) :
    p.place start ≤ p.blocks.length ∧
      (∀ i c, i < p.place start → p.blocks[i]? = some c → c.start < start) ∧
      ∀ i c, p.place start ≤ i → p.blocks[i]? = some c → ¬ c.start < start := by
  have hmono (i j : Nat) (hij : i < j) (hj : j < p.blocks.length)
      (hbelow : p.blocks[j]?.any (·.start < start)) : p.blocks[i]?.any (·.start < start) := by
    have hi : i < p.blocks.length := Nat.lt_trans hij hj
    have hstarts := List.pairwise_iff_getElem.mp hp.starts i j hi hj hij
    rw [any_start_lt (List.getElem?_eq_getElem hj)] at hbelow
    rw [any_start_lt (List.getElem?_eq_getElem hi)]
    exact BitVec.lt_trans hstarts hbelow
  obtain ⟨-, hto, hlow, hhigh⟩ := bisect_spec (Nat.zero_le p.blocks.length) hmono
  refine ⟨hto, fun i c hi hc => ?_, fun i c hi hc => ?_⟩
  · exact (any_start_lt hc).mp (hlow i (Nat.zero_le i) hi)
  · have hlt := (List.getElem?_eq_some_iff.mp hc).1
    exact mt (any_start_lt hc).mpr (hhigh i hi hlt)

theorem WellFormed.getElem?_place (hp : p.WellFormed) (hb : b ∈ p.blocks) :
    p.blocks[p.place b.start]? = some b := by
  obtain ⟨i, hi⟩ := List.mem_iff_getElem?.mp hb
  obtain ⟨-, hlow, hhigh⟩ := hp.place_spec b.start
  obtain ⟨hlt, hget⟩ := List.getElem?_eq_some_iff.mp hi
  have hle : p.place b.start ≤ i :=
    Nat.le_of_not_lt fun hbefore => BitVec.lt_irrefl _ (hlow i b hbefore hi)
  rcases Nat.eq_or_lt_of_le hle with he | hbefore
  · exact he ▸ hi
  · -- a block at an earlier place would start before it
    have hplace : p.place b.start < p.blocks.length := Nat.lt_trans hbefore hlt
    have hstarts := List.pairwise_iff_getElem.mp hp.starts _ i hplace hlt hbefore
    rw [hget] at hstarts
    exact absurd hstarts (hhigh _ _ (Nat.le_refl _) (List.getElem?_eq_getElem hplace))

theorem insert_eq_insertIdx {n : Nat} (hle : n ≤ bs.length)
    (hlow : ∀ i c, i < n → bs[i]? = some c → c.start < b.start)
    (hstop : ∀ c, bs[n]? = some c → ¬ c.start < b.start) :
    insert b bs = bs.insertIdx n b := by
  induction bs generalizing n with
  | nil =>
    obtain rfl := Nat.le_zero.mp hle
    rfl
  | cons c cs ih =>
    cases n with
    | zero =>
      rw [insert, if_neg (hstop c rfl)]
      rfl
    | succ n =>
      rw [insert, if_pos (hlow 0 c (Nat.zero_lt_succ n) rfl), List.insertIdx_succ_cons,
        ih (Nat.le_of_succ_le_succ hle)
          (fun i c hi hc => hlow (i + 1) c (Nat.succ_lt_succ hi) hc) hstop]

theorem WellFormed.withBlocks_insert (hp : p.WellFormed) (b : Block) :
    p.withBlocks (Pool.insert b p.blocks) = p.insertAt b := by
  obtain ⟨hto, hlow, hhigh⟩ := hp.place_spec b.start
  have hinsert := insert_eq_insertIdx hto hlow fun c hc => hhigh _ c (Nat.le_refl _) hc
  rw [hinsert]
  rfl

theorem WellFormed.insertAt_perm (hp : p.WellFormed) (b : Block) :
    (p.insertAt b).blocks.Perm (b :: p.blocks) := by
  rw [← hp.withBlocks_insert]
  exact insert_perm b p.blocks

theorem WellFormed.nodup (hp : p.WellFormed) : p.blocks.Nodup := by
  refine List.Pairwise.imp (fun {b c} hlt => ?_) hp.starts
  rintro rfl
  exact BitVec.lt_irrefl _ hlt

theorem WellFormed.release_eq_releaseAt (hp : p.WellFormed) (b : Block) :
    p.release b = p.releaseAt b := by
  unfold releaseAt
  by_cases hb : b ∈ p.blocks
  · have hfound := hp.getElem?_place hb
    obtain ⟨hlt, hget⟩ := List.getElem?_eq_some_iff.mp hfound
    have herase : p.blocks.erase b = p.blocks.eraseIdx (p.place b.start) := by
      have hindex := hp.nodup.idxOf_getElem _ hlt
      rw [hget] at hindex
      rw [List.erase_eq_eraseIdx_of_idxOf hindex]
    rw [release_of_mem hb, herase, hfound]
    simp only [ne_eq, not_true_eq_false, if_false]
    rfl
  · rw [show p.release b = .error .notFound from if_neg hb]
    cases hfound : p.blocks[p.place b.start]? with
    | none => rfl
    | some c =>
      have hmem := List.mem_of_getElem? hfound
      simp only
      split
      · rfl
      · next hstart =>
        split
        · rfl
        · next hsize =>
          refine absurd ?_ hb
          obtain ⟨start, size⟩ := c
          obtain rfl : start = b.start := not_not.mp hstart
          obtain rfl : size = b.size := not_not.mp hsize
          exact hmem

/-- Pools of one range that hand out the same blocks are the same. -/
theorem WellFormed.eq_of_mem_iff (hp : p.WellFormed) (hq : q.WellFormed) (hrange : SameRange p q)
    (hblocks : ∀ b, b ∈ q.blocks ↔ b ∈ p.blocks) : q = p := by
  have hperm : q.blocks.Perm p.blocks := (List.perm_ext_iff_of_nodup hq.nodup hp.nodup).mpr hblocks
  refine hrange.eq_of_blocks (hperm.eq_of_pairwise ?_ hq.starts hp.starts)
  intro b c _ _ hbc hcb
  exact absurd (BitVec.lt_trans hbc hcb) (BitVec.lt_irrefl _)

end Pool

end Aperture
