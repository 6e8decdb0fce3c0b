import Aperture.Proofs.Gather.Shift
import Aperture.Proofs.Tag.Course

namespace Aperture

namespace Run

variable {runs runs' : List (Run .phys)} {r : Run .phys}

theorem offsets_congr (h : (runs.filter fun r => !r.isEmpty) = runs'.filter fun r => !r.isEmpty) :
    offsets runs = offsets runs' := by
  unfold offsets frames pageNos
  rw [h]

end Run

namespace HostMemory

variable {memory : HostMemory} {p : Payload}

theorem offsets_resolve (hcuts : memory.host.resolver.IsPagewise)
    (hfailure : (memory.resolve p).failure = none)
    (hin : ∀ r ∈ (memory.resolve p).runs, r.isEmpty = false → r.InPage) :
    Run.offsets (memory.resolve p).runs = Run.offsets p.resolve.runs :=
  Run.offsets_congr ((hcuts _ p).complete hfailure hin).2

end HostMemory

/-- In a block, the runs are where they are without one, moved to its start. -/
theorem Block.stretches_eq {b : Block} {runs : List (Run .phys)}
    (hb : b.IsPages (Run.frames runs).length) :
    b.stretches runs = (Run.offsets runs).map (Stretch.shift b.start.toNat) := by
  unfold Block.stretches Block.ranges Run.offsets
  rw [List.map_map, List.map_map]
  refine List.map_congr_left fun r hr => ?_
  obtain ⟨hr, hne⟩ := List.mem_filter.mp hr
  have he : r.isEmpty = false := by simpa using hne
  have hmem : r.addr.pageNo ∈ Run.frames runs := Run.mem_frames.mpr ⟨r, hr, he, rfl⟩
  have hbus := toNat_busAddr hb hmem
  rw [hb.toNat_page (List.idxOf_lt_length_of_mem hmem), Nat.add_assoc, Nat.add_comm] at hbus
  exact congrArg (Stretch.mk · r.length.toNat) hbus

namespace Tag

variable {t : Tag} {m : Mapping} {p : Payload} {b : Block} {o : Outcome}

/-- The way of a load up to its block. -/
theorem blockFor_eq_some (h : t.blockFor m p = .ok (some b)) :
    ∃ length frames size pool, p.length? = some length ∧
      ¬ (length = 0 ∨ m.limits.maxSize < length) ∧ (t.memory.resolve p).failure = none ∧
      m.frames.record (t.memory.resolve p).runs = .ok (.ok frames) ∧
      frames.byteSize = .ok size ∧ t.pool.reserve (t.requestFor m size) = .ok (.ok (b, pool)) := by
  unfold blockFor at h
  cases hlength : p.length? with
  | none =>
    rw [hlength] at h
    cases h
  | some length =>
    rw [hlength] at h
    dsimp only at h
    by_cases hbad : length = 0 ∨ m.limits.maxSize < length
    · rw [if_pos hbad] at h
      cases h
    rw [if_neg hbad] at h
    cases hfailure : (t.memory.resolve p).failure with
    | some d =>
      rw [hfailure] at h
      cases h
    | none =>
      rw [hfailure] at h
      obtain ⟨recorded, hrecord, h⟩ := Checked.bind_eq_ok.mp h
      cases recorded with
      | error d => cases h
      | ok frames =>
        obtain ⟨size, hsize, h⟩ := Checked.bind_eq_ok.mp h
        obtain ⟨reserved, hreserve, h⟩ := Checked.bind_eq_ok.mp h
        cases reserved with
        | error reason => cases h
        | ok reserved =>
          obtain ⟨b', pool⟩ := reserved
          obtain rfl := Option.some.inj (Except.ok.inj h)
          exact ⟨length, frames, size, pool, rfl, hbad, rfl, hrecord, hsize, hreserve⟩

/-- A load that is given a block has as many pages there as its payload has frames, and goes on to
bind and to gather in it. -/
theorem route_of_blockFor (hpool : t.pool.WellFormed) (ht : t.recorded.WellFormed) (hm : m.IsMade)
    (hblank : m.IsBlank) (hloaded : m.loaded = none) (h : t.blockFor m p = .ok (some b)) :
    (∀ r ∈ (t.memory.resolve p).runs, r.isEmpty = false → r.InPage) ∧
      b.IsPages (Run.frames (t.memory.resolve p).runs).length ∧
      t.FirstOffer m (Run.frames (t.memory.resolve p).runs).length b ∧
      ∃ length, BindRoute (t.withBlocks (Pool.insert b t.pool.blocks)) m p length
        (t.memory.resolve p).runs b (t.load m p) := by
  obtain ⟨length, frames, size, pool, hlength, hgood, hfailure, hrecord, hsize, hreserve⟩ :=
    blockFor_eq_some h
  have hload : t.load m p = t.mapRuns m p length (t.memory.resolve p).runs := by
    rw [load_eq hloaded]
    simp only [hlength, if_neg hgood, hfailure]
  obtain ⟨size', hsize', hbytes⟩ := byteSize_of_record hm hblank hrecord
  obtain rfl := Except.ok.inj (hsize.symm.trans hsize')
  have hpos : 0 < (Run.frames (t.memory.resolve p).runs).length := by
    refine Nat.pos_of_ne_zero fun hz => ?_
    rw [reserve_untouched (by rw [hbytes, hz, Nat.zero_mul])] at hreserve
    cases hreserve
  obtain ⟨hpages, hroute⟩ :=
    bindRoute_of_reserve hm hblank hrecord hpool ht hsize hreserve p length
  rw [hblank.frames] at hrecord
  obtain ⟨-, -, -, hin⟩ := FrameSet.record_ofCapacity hrecord
  rw [hload]
  exact ⟨hin, hpages, firstOffer_of_reserve hpool ht hm hbytes hpos hreserve, length, hroute⟩

/-- In a block that the boundary spares, the segments are those that the payload has apart from any
block, moved to the start of the block. -/
theorem segmentsOf_stretches (ht : t.recorded.WellFormed) (hm : m.IsMade)
    {runs : List (Run .phys)} (hin : ∀ r ∈ runs, r.isEmpty = false → r.InPage)
    (hb : b.IsPages (Run.frames runs).length)
    (hfirst : t.FirstOffer m (Run.frames runs).length b)
    (hspares : t.Spares m (Run.frames runs).length) :
    (t.rulesFor m).segmentsOf (b.stretches runs) =
      ((t.rulesFor m).unbounded.segmentsOf (Run.offsets runs)).map
        (Stretch.shift b.start.toNat) := by
  have huncrossed : ¬ (⟨b.start.toNat, b.size.toNat⟩ : Stretch).Crosses
      (t.rulesFor m).boundary.toNat := by
    rw [boundary_rulesFor (isBoundary_boundaryFor ht hm), hb.size]
    rcases hspares with hz | hle
    · rw [hz]
      exact Stretch.not_crosses_zero _
    · by_cases hz : t.boundaryFor m = 0
      · rw [hz]
        exact Stretch.not_crosses_zero _
      · exact hfirst.offered.uncrossed hz hle
  rw [← SegmentRules.segmentsOf_shift, ← Block.stretches_eq hb]
  exact (SegmentRules.segmentsOf_unbounded huncrossed (Block.stretches_inside hb hin)).symm

/-- What a load comes to that is given a block its boundary spares. -/
theorem load_of_blockFor (hpool : t.pool.WellFormed) (ht : t.recorded.WellFormed) (hm : m.IsMade)
    (hblank : m.IsBlank) (hcuts : t.memory.host.resolver.IsPagewise)
    (hb : t.blockFor m p = .ok (some b))
    (hspares : t.Spares m (Run.frames (t.memory.resolve p).runs).length)
    (h : t.load m p = .ok o) :
    (m.limits.maxSegments.toNat < (t.segmentsApart m p).length ∧
      o.result = .error .tooManySegments) ∨
    (t.segmentsApart m p).length ≤ m.limits.maxSegments.toNat ∧ o.result = .ok () ∧
      ∃ l : Loaded, o.mapping = { m with loaded := some l } ∧ l.block = b ∧
        l.segments.segments.map Run.stretch =
          (t.segmentsApart m p).map (Stretch.shift b.start.toNat) := by
  obtain ⟨hin, hpages, hfirst, length, hroute⟩ :=
    route_of_blockFor hpool ht hm hblank (loaded_eq_none_of_load h) hb
  have hsegments := segmentsOf_stretches ht hm hin hpages hfirst hspares
  obtain ⟨-, -, -, -, -, -, hfailure, -⟩ := blockFor_eq_some hb
  rw [HostMemory.offsets_resolve hcuts hfailure hin] at hsegments
  have hlength : ((t.rulesFor m).segmentsOf (b.stretches (t.memory.resolve p).runs)).length =
      (t.segmentsApart m p).length := by
    rw [hsegments, List.length_map]
    rfl
  rw [h] at hroute
  rw [← maxCount_rulesFor t hm, ← hlength]
  cases hroute with
  | full _ hmany => exact .inl ⟨hmany, rfl⟩
  | @done l _ hfew hblock _ hmade =>
    exact .inr ⟨hfew, rfl, l, rfl, hblock, hmade.trans hsegments⟩

end Tag

end Aperture
