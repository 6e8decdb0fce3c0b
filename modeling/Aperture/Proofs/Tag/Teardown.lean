import Aperture.Proofs.Frames.Laid
import Aperture.Proofs.Pool.Reserve
import Aperture.Proofs.Table.History
import Aperture.Tag.Basic

namespace Aperture

namespace Table

variable {t : Table} {i : Nat} {e : Entry}

/-- Where every write is the same, and there is one, it is what was written last. -/
theorem lastWritten_of_mem {aperture : BusAddr} {scribble : Entry} {cs : List Call} {c : Call}
    (hall : ∀ c ∈ cs, ∀ e', c.writes? aperture scribble i = some e' → e' = scribble)
    (hc : c ∈ cs) (hwrites : c.writes? aperture scribble i = some scribble) :
    lastWritten aperture scribble i e cs = scribble := by
  have hmem : scribble ∈ cs.filterMap (Call.writes? aperture scribble i) :=
    List.mem_filterMap.mpr ⟨c, hc, hwrites⟩
  have hne := List.ne_nil_of_mem hmem
  obtain ⟨c', hc', hlast⟩ := List.mem_filterMap.mp (List.getLast_mem hne)
  unfold lastWritten
  rw [List.getLastD_eq_getLast?, List.getLast?_eq_some_getLast hne]
  exact hall c' hc' _ hlast

/-- When an address of each page is unbound, every entry is the scribble entry. -/
theorem entries_unbound {buses : List BusAddr}
    (hbuses : ∀ i, i < t.entries.size → ∃ bus ∈ buses, bus.OnPage t.aperture i) :
    ((buses.map TableCall.unbind).foldl apply t).entries =
      Array.replicate t.entries.size t.scribble := by
  have hrun : (buses.map TableCall.unbind).foldl apply t =
      t.runAll (buses.map fun bus => .make (.unbind bus)) := by
    rw [runAll, List.foldl_map, List.foldl_map]
    rfl
  refine Array.ext_getElem? fun i => ?_
  rw [hrun, Array.getElem?_replicate]
  split
  · next hi =>
    obtain ⟨bus, hbus, hpage⟩ := hbuses i hi
    refine (getElem?_runAll _ (Array.getElem?_eq_getElem hi)).trans (congrArg some ?_)
    refine lastWritten_of_mem (fun c hc e' he' => ?_) (List.mem_map.mpr ⟨bus, hbus, rfl⟩)
      (Call.writes?_unbind_eq_some_iff.mpr ⟨hpage, rfl⟩)
    obtain ⟨other, -, rfl⟩ := List.mem_map.mp hc
    exact (Call.writes?_unbind_eq_some_iff.mp he').2.symm
  · next hi =>
    rw [Array.getElem?_eq_none_iff, size_entries_runAll]
    exact Nat.le_of_not_lt hi

end Table

namespace Tag

variable {t : Tag}

def pages (t : Tag) : List BusAddr :=
  (List.range (t.pool.size.toNat / pageSize)).map fun k =>
    ⟨.ofNat 64 (t.pool.first.toNat + k * pageSize)⟩

theorem page_lt (t : Tag) {k : Nat} (hk : k < t.pool.size.toNat / pageSize) :
    t.pool.first.toNat + k * pageSize < 2 ^ 64 := by
  have hle : (k + 1) * pageSize ≤ t.pool.size.toNat :=
    Nat.le_trans (Nat.mul_le_mul_right pageSize hk) (Nat.div_mul_le_self _ _)
  have hfits := t.pool.fits
  unfold pageSize at *
  omega

theorem toNat_pages (t : Tag) : t.pages.map (·.word.toNat) =
    List.range' t.pool.first.toNat (t.pool.size.toNat / pageSize) pageSize := by
  refine List.ext_getElem (by simp [pages]) fun k hk _ => ?_
  have hk : k < t.pool.size.toNat / pageSize := by simpa [pages] using hk
  have hlt := t.page_lt hk
  simp only [pages, List.getElem_map, List.getElem_range, List.getElem_range', BitVec.toNat_ofNat]
  rw [Nat.mod_eq_of_lt hlt, Nat.mul_comm]

theorem exists_mem_pages (t : Tag) {k : Nat} (hk : k < t.pool.size.toNat / pageSize) :
    ∃ bus ∈ t.pages, bus.OnPage t.start k := by
  refine ⟨_, List.mem_map.mpr ⟨k, List.mem_range.mpr hk, rfl⟩, ?_⟩
  show t.pool.first.toNat + k * pageSize ≤ (BitVec.ofNat 64 _).toNat ∧
    (BitVec.ofNat 64 _).toNat < t.pool.first.toNat + (k + 1) * pageSize
  rw [BitVec.toNat_ofNat, Nat.mod_eq_of_lt (t.page_lt hk)]
  unfold pageSize
  omega

theorem pairwise_pages (t : Tag) : t.pages.Pairwise (·.word < ·.word) := by
  have hascending : (t.pages.map (·.word.toNat)).Pairwise (· < ·) := by
    rw [toNat_pages]
    exact List.pairwise_lt_range' pageSize (by decide)
  exact (List.pairwise_map.mp hascending).imp BitVec.lt_def.mpr

/-- In an aperture of whole pages, nothing is left over behind the last page. -/
theorem mem_pages_iff (hfirst : t.start.pageOffset = 0) (hsize : pageSize ∣ t.pool.size.toNat)
    (bus : BusAddr) : bus ∈ t.pages ↔ bus.pageOffset = 0 ∧
      t.pool.first.toNat ≤ bus.word.toNat ∧
      bus.word.toNat < t.pool.first.toNat + t.pool.size.toNat := by
  have hinj : Function.Injective fun a : BusAddr => a.word.toNat := fun a b h =>
    congrArg Addr.mk (BitVec.eq_of_toNat_eq h)
  have hfirst : t.pool.first.toNat % pageSize = 0 := hfirst
  obtain ⟨n, hn⟩ := hsize
  rw [← List.mem_map_of_injective hinj, toNat_pages, List.mem_range', hn,
    Nat.mul_div_cancel_left n (by decide)]
  unfold Addr.pageOffset pageSize at *
  constructor
  · rintro ⟨k, hk, heq⟩
    omega
  · rintro ⟨haligned, habove, hbelow⟩
    exact ⟨(bus.word.toNat - t.pool.first.toNat) / 4096, by omega, by omega⟩

theorem teardown_calls (hpool : t.pool.WellFormed) :
    ∃ events, t.teardown = .ok events ∧
      Event.tableCalls events = t.pages.map .unbind ++ [.flush] := by
  obtain ⟨outstanding, hsum, -⟩ := hpool.allocated
  have hpages : ((List.range (t.pool.size.toNat / pageSize)).mapM fun k =>
      t.start.plus (k * pageSize)) = .ok t.pages := by
    refine Checked.mapM_eq_ok fun k hk => Addr.plus_eq_ok_iff.mpr ?_
    rw [BitVec.toNat_ofNat, Nat.mod_eq_of_lt (t.page_lt (List.mem_range.mp hk))]
    rfl
  unfold teardown Tag.outstanding
  rw [hsum, hpages]
  refine ⟨_, rfl, ?_⟩
  -- the warning about what is still loaded is a notice, and no call
  have hwarning : Event.tableCalls
      (if outstanding = 0 then [] else [.notice (.tornDown t.name outstanding)]) = [] := by
    split <;> rfl
  have hunbinds : t.pages.map (fun bus => Event.table (.unbind bus)) =
      (t.pages.map TableCall.unbind).map .table := by rw [List.map_map]; rfl
  rw [Event.tableCalls_append, Event.tableCalls_append, hwarning, hunbinds,
    Event.tableCalls_map_table]
  rfl

/-- A table over the same aperture has nothing but scribble entries after these calls. -/
theorem entries_after_teardown {table : Table} {calls : List TableCall}
    (hcalls : calls = t.pages.map .unbind ++ [.flush]) (hstart : table.aperture = t.start)
    (hsize : table.entries.size * pageSize = t.pool.size.toNat) :
    (calls.foldl Table.apply table).entries =
      Array.replicate table.entries.size table.scribble := by
  rw [hcalls, List.foldl_append]
  refine Table.entries_unbound fun i hi => ?_
  rw [hstart]
  refine t.exists_mem_pages ?_
  rw [← hsize, Nat.mul_div_cancel _ (by decide)]
  exact hi

end Tag

end Aperture
