import Aperture.Admission
import Aperture.Proofs.Session.Steps
import Aperture.Proofs.Tag.Aside
import Aperture.Proofs.Tag.Sync

namespace Aperture

/-- What is loaded ends below the largest offsets, its addresses are in its space, and physical runs
hold all of it. -/
structure Loaded.InReach (l : Loaded) : Prop where
  short : l.length.toNat + pageSize ≤ 2 ^ 64
  reach : ∀ base, l.base = some base → ¬ Run.Wraps ⟨base, l.length⟩
  total : l.shape = .raw → Run.totalLength l.runs = l.length.toNat

/-- The pages that hold the part asked for, counted from the first byte of the payload on, do not
end before the space does. -/
def Loaded.Oversteps (l : Loaded) (offset length : Word) : Prop :=
  l.shape = .linear ∧
    ∃ base, l.base = some base ∧ 2 ^ 64 ≤ base.word.toNat + SyncPlan.stop offset length

namespace SyncPlan

variable {offset length : Word}

theorem pageCeiling_of_le {w : Word} (h : w.toNat + pageSize ≤ 2 ^ 64) :
    ∃ c, pageCeiling w = .ok c := by
  unfold pageCeiling
  split
  · exact ⟨w, rfl⟩
  · next hrest =>
    obtain ⟨c, hc, -⟩ := Word.plus_of_lt (w := w) (n := pageSize - w.toNat % pageSize) (by omega)
    exact ⟨c, hc⟩

/-- Flushing whole pages one after another steps out of the space unless it goes on after them. -/
theorem linearFlushes_cases {stop offset : Nat} {a : VirtAddr} (hpages : pageSize ∣ stop - offset)
    (hsome : offset < stop) :
    (a.word.toNat + (stop - offset) < 2 ^ 64 ∧ ∃ calls, linearFlushes stop a offset = .ok calls) ∨
    (2 ^ 64 ≤ a.word.toNat + (stop - offset) ∧
      linearFlushes stop a offset = .error .addOverflow) := by
  induction hn : stop - offset using Nat.strongRecOn generalizing a offset with
  | ind n ih =>
    subst hn
    have hpage : pageSize ≤ stop - offset := Nat.le_of_dvd (by omega) hpages
    have hsmall : 0 < pageSize := by decide
    rw [linearFlushes, if_pos hsome]
    by_cases hend : 2 ^ 64 ≤ a.word.toNat + pageSize
    · rw [Addr.plus_of_ge hend]
      exact .inr ⟨by omega, rfl⟩
    obtain ⟨next, hnext, hto⟩ := Addr.plus_of_lt (Nat.lt_of_not_le hend)
    have hleft : stop - (offset + pageSize) = stop - offset - pageSize := Nat.sub_add_eq ..
    rw [hnext, Checked.ok_bind]
    by_cases hmore : offset + pageSize < stop
    · have hdvd : pageSize ∣ stop - (offset + pageSize) := by
        rw [hleft]
        exact Nat.dvd_sub hpages (Nat.dvd_refl _)
      have hless : stop - (offset + pageSize) < stop - offset := by omega
      rcases ih _ hless (a := next) hdvd hmore rfl with ⟨hlt, calls, hcalls⟩ | ⟨hge, hfault⟩
      · rw [hcalls]
        exact .inl ⟨by omega, _, rfl⟩
      · rw [hfault]
        exact .inr ⟨by omega, rfl⟩
    · rw [linearFlushes, if_neg hmore]
      exact .inl ⟨by omega, _, rfl⟩

theorem runFlushes_of_lt (start stop : Nat) {offset : Word} (last : Option PhysAddr)
    {runs : List (Run .phys)} (h : offset.toNat + Run.totalLength runs < 2 ^ 64) :
    ∃ calls, runFlushes start stop offset last runs = .ok calls := by
  induction runs generalizing offset last with
  | nil => exact ⟨[], rfl⟩
  | cons r runs ih =>
    rw [Run.totalLength_cons] at h
    obtain ⟨next, hnext, hto⟩ := Word.plus_of_lt (w := offset) (n := r.length.toNat) (by omega)
    rw [runFlushes, hnext, Checked.ok_bind]
    dsimp only
    split
    · exact ⟨_, rfl⟩
    · obtain ⟨rest, hrest⟩ := ih _ (show next.toNat + _ < _ by omega)
      rw [hrest]
      exact ⟨_, rfl⟩

theorem oversteps_iff {l : Loaded} {base : VirtAddr} (hshape : l.shape = .linear)
    (hbase : l.base = some base) :
    l.Oversteps offset length ↔ 2 ^ 64 ≤ base.word.toNat + stop offset length := by
  constructor
  · rintro ⟨-, base', hbase', htop⟩
    obtain rfl := Option.some.inj (hbase'.symm.trans hbase)
    exact htop
  · intro htop
    exact ⟨hshape, base, hbase, htop⟩

/-- The first page to flush of a linear payload is in its space; one that comes later may not be. -/
theorem linear_cases {l : Loaded} {base : VirtAddr} (hl : l.InReach) (hshape : l.shape = .linear)
    (hbase : l.base = some base) (hpos : 0 < length.toNat)
    (hinside : offset.toNat + length.toNat ≤ l.length.toNat) :
    ∃ first, base.plus (start offset) = .ok first ∧
      ((¬ l.Oversteps offset length ∧
        ∃ calls, linearFlushes (stop offset length) first (start offset) = .ok calls) ∨
      (l.Oversteps offset length ∧
        linearFlushes (stop offset length) first (start offset) = .error .addOverflow)) := by
  have hbegin := start_le offset
  have hend := le_stop offset length
  have hreach : ¬ 2 ^ 64 < base.word.toNat + l.length.toNat := hl.reach base hbase
  obtain ⟨first, hfirst, hto⟩ := Addr.plus_of_lt (a := base) (n := start offset) (by omega)
  have hwindow : first.word.toNat + (stop offset length - start offset) =
      base.word.toNat + stop offset length := by omega
  have hflushed := linearFlushes_cases (a := first) (dvd_window offset length) (by omega)
  rw [hwindow] at hflushed
  rw [oversteps_iff hshape hbase]
  refine ⟨first, hfirst, ?_⟩
  rcases hflushed with ⟨hlt, hcalls⟩ | ⟨hge, hfault⟩
  · exact .inl ⟨Nat.not_le_of_lt hlt, hcalls⟩
  · exact .inr ⟨hge, hfault⟩

/-- The flushes for a part of what is loaded come to an end, or step out of the space. -/
theorem flushes_cases {l : Loaded} (hl : l.InReach) (hpos : 0 < length.toNat)
    (hinside : offset.toNat + length.toNat ≤ l.length.toNat) :
    (¬ l.Oversteps offset length ∧ ∃ plan, flushes l offset length = .ok plan) ∨
    (l.Oversteps offset length ∧ flushes l offset length = .error .addOverflow) := by
  have hshort := hl.short
  obtain ⟨wanted, hwanted, hto⟩ := Word.plus_of_lt (w := offset) (n := length.toNat) (by omega)
  obtain ⟨ceiling, hceiling⟩ := pageCeiling_of_le (w := wanted) (by omega)
  have hstop : ceiling.toNat = stop offset length := by
    rw [pageCeiling_eq_ok hceiling, hto, stop]
  unfold flushes flushesOf
  rw [hwanted, Checked.ok_bind, hceiling, Checked.ok_bind]
  dsimp only
  rw [toNat_clearLow, hstop]
  split
  · next base hshape hbase =>
    obtain ⟨first, hfirst, hflushed⟩ := linear_cases hl hshape hbase hpos hinside
    rw [hfirst, Checked.ok_bind]
    rcases hflushed with ⟨hnot, calls, hcalls⟩ | ⟨hover, hfault⟩
    · rw [hcalls]
      exact .inl ⟨hnot, _, rfl⟩
    · rw [hfault]
      exact .inr ⟨hover, rfl⟩
  · next hshape =>
    have hlinear : ¬ l.Oversteps offset length := fun h => by cases hshape.symm.trans h.1
    have hfits : (0 : Word).toNat + Run.totalLength l.runs < 2 ^ 64 := by
      rw [hl.total hshape]
      exact Nat.lt_of_le_of_lt (Nat.le_of_eq (Nat.zero_add _)) l.length.isLt
    obtain ⟨calls, hcalls⟩ := runFlushes_of_lt (start offset) (stop offset length) none hfits
    rw [hcalls]
    exact .inl ⟨hlinear, _, rfl⟩
  · next hother =>
    refine .inl ⟨?_, _, rfl⟩
    rintro ⟨hshape, base, hbase, -⟩
    exact hother base hshape hbase

end SyncPlan

namespace Mapping

variable {m : Mapping} {lineSize offset length : Word} {phases : Phases}

/-- A synchronisation goes about flushing a part of the payload, and steps out of the space. -/
structure Oversteps (m : Mapping) (lineSize offset length : Word) (phases : Phases) : Prop where
  oneSided : ¬ (phases.isPre && phases.isPost)
  flushes : m.FlushesPages lineSize phases
  part : ∃ l, m.HasPart l offset length ∧ l.Oversteps offset length

/-- A synchronisation faults exactly if it steps out of the space. -/
theorem syncPlan_eq_error_iff (hm : ∀ l, m.loaded = some l → l.InReach) {f : Fault} :
    m.syncPlan lineSize offset length phases = .error f ↔
      f = .addOverflow ∧ m.Oversteps lineSize offset length phases := by
  refine Checked.eq_error_iff ?_
  rcases m.syncPlan_routes lineSize offset length phases with
    ⟨hnone, notice, hplan⟩ | ⟨hsided, l, hpart, hroute⟩
  · refine .inl ⟨fun hover => ?_, _, hplan⟩
    obtain ⟨l, hpart, -⟩ := hover.part
    exact hnone ⟨hover.oneSided, l, hpart⟩
  rcases hroute with ⟨hpages, calls, -, hplan⟩ | ⟨hpages, hflushes⟩
  · exact .inl ⟨fun hover => hpages hover.flushes, _, hplan⟩
  rw [hflushes]
  rcases SyncPlan.flushes_cases (hm l hpart.loaded) hpart.pos hpart.inside with
    ⟨hnot, hplan⟩ | ⟨hover, hfault⟩
  · refine .inl ⟨fun hover => ?_, hplan⟩
    obtain ⟨l', hpart', hover'⟩ := hover.part
    exact hnot (hpart.unique hpart' ▸ hover')
  · exact .inr ⟨⟨hsided, hpages, l, hpart, hover⟩, hfault⟩

end Mapping

theorem Tag.sync_eq_error_iff {t : Tag} {m : Mapping} {cache : Cache} {offset length : Word}
    {phases : Phases} {f : Fault} (hcache : t.cache = some cache) (hworks : cache.Works) :
    t.sync m offset length phases = .error f ↔
      m.syncPlan cache.lineSize offset length phases = .error f := by
  unfold Tag.sync
  rw [hcache]
  exact Checked.bind_eq_error_iff_of_ok hworks.follow

theorem Session.step_sync_eq_error_iff {s : Session} {t : Tag} {name : String} {m : Mapping}
    {cache : Cache} {offset length : Word} {phases : Phases} {f : Fault} (ht : s.tag = some t)
    (hm : s.mapping? name = some m) (hcache : t.cache = some cache) (hworks : cache.Works) :
    s.step (.act name (.sync offset length phases)) = .error f ↔
      m.syncPlan cache.lineSize offset length phases = .error f := by
  rw [← Tag.sync_eq_error_iff hcache hworks, step_act ht hm, Checked.map_eq_error, act]
  exact Checked.bind_eq_error_iff_of_ok fun synced => ⟨_, rfl⟩

end Aperture
