import Aperture.Proofs.Ledger.Sound

namespace Aperture

namespace Ledger

variable {w w' : Ledger} {t t' : Tag}

theorem Sound.blocks_perm (hs : w.Sound t) :
    (w.tenancies.map (·.loaded.block)).Perm t.pool.blocks := by
  have hblocks := hs.occupied.blocks
  rw [List.map_map] at hblocks
  exact hblocks

theorem Sound.block_size (hs : w.Sound t) {x : Tenancy} (hx : x ∈ w.tenancies) :
    x.loaded.frames.frames.Nodup ∧
      x.loaded.block.size.toNat = x.loaded.frames.size * pageSize := by
  have hfits := hs.fits hx
  refine ⟨hfits.laid.wellFormed.nodup_frames, ?_⟩
  rw [hfits.laid.size_eq]
  exact hfits.pages.size

theorem Sound.outstanding (hs : w.Sound t) :
    ∃ n, t.outstanding = .ok n ∧
      n.toNat = (w.tenancies.map fun x => x.loaded.frames.size * pageSize).sum := by
  obtain ⟨n, hn, hsum⟩ := hs.occupied.wellFormed.allocated
  refine ⟨n, hn, hsum.trans ?_⟩
  have hsizes : (w.tenancies.map fun x => x.loaded.frames.size * pageSize) =
      (w.tenancies.map (·.loaded.block)).map fun b => b.size.toNat := by
    rw [List.map_map]
    exact List.map_congr_left fun x hx => (hs.block_size hx).2.symm
  rw [hsizes]
  exact (hs.blocks_perm.map fun b => b.size.toNat).sum_nat.symm

end Ledger

end Aperture
