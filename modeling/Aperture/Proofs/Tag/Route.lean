import Aperture.Proofs.Gather.Exact
import Aperture.Proofs.Tag.Offer

namespace Aperture

namespace Block

variable {b : Block} {runs : List (Run .phys)}

theorem stretches_inside (hb : b.IsPages (Run.frames runs).length)
    (hin : ∀ r ∈ runs, r.isEmpty = false → r.InPage) :
    ∀ s ∈ b.stretches runs, 0 < s.length ∧ b.start.toNat ≤ s.start ∧ s.stop ≤ b.stop := by
  intro s hs
  obtain ⟨range, hrange, rfl⟩ := List.mem_map.mp hs
  obtain ⟨r, hr, rfl⟩ := List.mem_map.mp hrange
  obtain ⟨hr, hne⟩ := List.mem_filter.mp hr
  have he : r.isEmpty = false := by simpa using hne
  have hpos := Run.isEmpty_eq_false_iff.mp he
  have hmem : r.addr.pageNo ∈ Run.frames runs := Run.mem_frames.mpr ⟨r, hr, he, rfl⟩
  have hk := List.idxOf_lt_length_of_mem hmem
  have hpage : r.addr.pageOffset + r.length.toNat ≤ pageSize := hin r hr he
  have hsize := hb.size
  have hle : ((Run.frames runs).idxOf r.addr.pageNo + 1) * pageSize ≤
      (Run.frames runs).length * pageSize := Nat.mul_le_mul_right _ hk
  rw [Nat.succ_mul] at hle
  have hbus := toNat_busAddr hb hmem
  rw [hb.toNat_page hk] at hbus
  unfold Stretch.stop Block.stop
  show 0 < r.length.toNat ∧ b.start.toNat ≤ (b.busAddr _ r.addr).word.toNat ∧
    (b.busAddr _ r.addr).word.toNat + r.length.toNat ≤ _
  omega

end Block

namespace Tag

variable {t : Tag} {m : Mapping} {p : Payload} {length : Word} {runs : List (Run .phys)}
  {frames : FrameSet} {b : Block}

theorem reset_boundaryFor (h : (t.boundaryFor m).IsBoundary) :
    m.segments.reset (t.boundaryFor m) = .ok (.empty (t.rulesFor m)) := by
  rw [GatherList.reset, dif_pos h, rulesFor, dif_pos h]

theorem maxCount_rulesFor (t : Tag) (hm : m.IsMade) :
    (t.rulesFor m).maxCount = m.limits.maxSegments := by
  rw [← hm.maxCount, rulesFor]
  split <;> rfl

theorem maxLength_rulesFor (t : Tag) (hm : m.IsMade) :
    (t.rulesFor m).maxLength = m.limits.maxLength := by
  rw [← hm.maxLength, rulesFor]
  split <;> rfl

theorem boundary_rulesFor (h : (t.boundaryFor m).IsBoundary) :
    (t.rulesFor m).boundary = t.boundaryFor m := by
  rw [rulesFor, dif_pos h]

/-- What binding and gathering come to in a block that is handed out. -/
inductive BindRoute (t : Tag) (m : Mapping) (p : Payload) (length : Word) (runs : List (Run .phys))
    (b : Block) : Checked Outcome → Prop
  /-- A segment would have to end with the last byte of the address space. -/
  | overrun
      (hover : (t.rulesFor m).Overruns (b.stretches runs))
      (htop : b.stop = 2 ^ 64) :
      BindRoute t m p length runs b (.error .addOverflow)
  | full
      (hover : ¬ (t.rulesFor m).Overruns (b.stretches runs))
      (hmany : (t.rulesFor m).maxCount.toNat <
        ((t.rulesFor m).segmentsOf (b.stretches runs)).length) :
      BindRoute t m p length runs b (.ok ⟨t.withBlocks (t.pool.blocks.erase b), m,
        .error .tooManySegments,
        (b.binds (Run.frames runs) m.limits.traits ++ b.unbinds (Run.frames runs)).map .table⟩)
  | done {l : Loaded}
      (hover : ¬ (t.rulesFor m).Overruns (b.stretches runs))
      (hfew : ((t.rulesFor m).segmentsOf (b.stretches runs)).length ≤
        (t.rulesFor m).maxCount.toNat)
      (hblock : l.block = b)
      (hruns : l.runs = runs)
      (hsegments : l.segments.segments.map Run.stretch =
        (t.rulesFor m).segmentsOf (b.stretches runs)) :
      BindRoute t m p length runs b (.ok ⟨t, { m with loaded := some l }, .ok (),
        (b.binds (Run.frames runs) m.limits.traits).map .table ++
          [.notice (.loaded t.name p.describe l.segments.count)]⟩)

theorem bindRuns_route (hbound : (t.boundaryFor m).IsBoundary) (hs : frames.WellFormed)
    (hslots : frames.toList = (Run.frames runs).map (⟨·, none⟩))
    (hb : b.IsPages (Run.frames runs).length) (hin : ∀ r ∈ runs, r.isEmpty = false → r.InPage)
    (hmem : b ∈ t.pool.blocks) :
    BindRoute t m p length runs b (bindRuns t m p length runs frames b) := by
  have hinSpace (f : FrameNo) (hf : f ∈ Run.frames runs) : f.InSpace :=
    Run.inSpace_of_mem_frames hf
  have htouched (r : Run .phys) (hr : r ∈ runs) (he : r.isEmpty = false) :
      r.addr.pageNo ∈ Run.frames runs := Run.mem_frames.mpr ⟨r, hr, he, rfl⟩
  have hinside (range : Run .bus) (h : range ∈ b.ranges (Run.frames runs) runs) :=
    Block.stretches_inside hb hin _ (List.mem_map_of_mem h)
  have hfits := hb.stop_le
  have hgathers := GatherList.appendAll_empty_gathers (t.rulesFor m)
    (fun r hr => (hinside r hr).1) fun r hr => Nat.le_trans (hinside r hr).2.2 hfits
  obtain ⟨laid, hassign, hlaid, -⟩ := FrameSet.assign_laidIn hs hslots hb
  unfold bindRuns
  rw [hassign, Checked.ok_bind, hlaid.bindCalls_eq hb hinSpace, Checked.ok_bind,
    reset_boundaryFor hbound, Checked.ok_bind, GatherList.appendRuns_eq hlaid hb htouched]
  generalize (GatherList.empty (t.rulesFor m)).appendAll _ = gathered at hgathers
  cases hgathers with
  | overrun hover =>
    refine .overrun hover (Nat.le_antisymm hfits ?_)
    obtain ⟨before, r, after, hranges, hstop, -⟩ := hover
    obtain ⟨range, hrange, rfl⟩ := List.mem_map.mp (show r ∈ b.stretches runs by
      rw [Block.stretches, hranges]; simp)
    rw [← hstop]
    exact (hinside range hrange).2.2
  | many hmany hover =>
    rw [List.length_reverse] at hmany
    have hunmap := unmap_eq hlaid hb hmem
    have hroute : BindRoute t m p length runs b _ := .full hover hmany
    rw [List.map_append] at hroute
    simp only [Except.map, Except.mapError, Checked.ok_bind, hunmap, Checked.pure_eq,
      Declined.notices, Option.toList_none, List.map_nil, List.append_nil]
    exact hroute
  | @all g hrules hbuilt hends hfew hover =>
    rw [List.length_reverse] at hfew
    refine .done hover hfew rfl rfl ?_
    show g.segments.map Run.stretch = _
    rw [GatherList.map_stretch_segments, hbuilt, List.reverse_reverse]
    rfl

/-- What a load comes to once its frames are recorded. -/
inductive Route (t : Tag) (m : Mapping) (p : Payload) (length : Word) (runs : List (Run .phys)) :
    Checked Outcome → Prop
  /-- No frame is touched, so no block is asked for. -/
  | untouched {d : Declined}
      (hnone : Run.frames runs = [])
      (hreason : d.reason = .invalid) :
      Route t m p length runs (.ok (t.declined m d))
  | noRoom {size : Word}
      (hnone : ∀ start, ¬ t.Offers m (Run.frames runs).length start) :
      Route t m p length runs (.ok (t.declined m
        ⟨.spaceExhausted, some (.noBlock t.name size (t.alignmentFor m) (t.boundaryFor m))⟩))
  | bound {b : Block} {result : Checked Outcome}
      (hn : 0 < (Run.frames runs).length)
      (hb : t.FirstOffer m (Run.frames runs).length b)
      (hroute : BindRoute (t.withBlocks (Pool.insert b t.pool.blocks)) m p length runs b result) :
      Route t m p length runs result

section Recorded

variable (hm : m.IsMade) (hblank : m.IsBlank) (hrecord : m.frames.record runs = .ok (.ok frames))

include hm hblank hrecord

/-- The frames recorded in the storage of a mapping are those of the runs, and their pages have no
more bytes than a word can tell. -/
theorem size_of_record :
    frames.size = (Run.frames runs).length ∧ frames.size * pageSize < 2 ^ 64 := by
  rw [hblank.frames] at hrecord
  obtain ⟨hs, hcapacity, hslots, -⟩ := FrameSet.record_ofCapacity hrecord
  constructor
  · rw [FrameSet.size_eq, FrameSet.frames, hslots, List.map_map, List.length_map]
  · have hle := hs.size_le
    rw [hcapacity] at hle
    exact Nat.lt_of_le_of_lt (Nat.mul_le_mul_right pageSize hle) hm.capacity

theorem byteSize_of_record : ∃ size : Word, frames.byteSize = .ok size ∧
    size.toNat = (Run.frames runs).length * pageSize := by
  obtain ⟨hcount, hlt⟩ := size_of_record hm hblank hrecord
  have hcountlt : frames.size < 2 ^ 64 := by unfold pageSize at hlt; omega
  refine ⟨.ofNatLT _ hlt, ?_, ?_⟩
  · rw [FrameSet.byteSize, Word.times_eq_ok_iff, BitVec.toNat_ofNat, Nat.mod_eq_of_lt hcountlt]
    exact BitVec.toNat_ofNatLT _ hlt
  · rw [BitVec.toNat_ofNatLT, hcount]

/-- A load that is given a block goes on to bind and to gather in it. -/
theorem bindRoute_of_reserve (hpool : t.pool.WellFormed) (ht : t.recorded.WellFormed) {size : Word}
    {pool : Pool} (hbytes : frames.byteSize = .ok size)
    (hreserved : t.pool.reserve (t.requestFor m size) = .ok (.ok (b, pool))) (p : Payload)
    (length : Word) : b.IsPages (Run.frames runs).length ∧
      BindRoute (t.withBlocks (Pool.insert b t.pool.blocks)) m p length runs b
        (t.mapRuns m p length runs) := by
  obtain ⟨hcount, hlt⟩ := size_of_record hm hblank hrecord
  have hcountlt : frames.size < 2 ^ 64 := by unfold pageSize at hlt; omega
  have hmap : t.mapRuns m p length runs =
      bindRuns { t with pool := pool } m p length runs frames b := by
    unfold mapRuns
    rw [hrecord, Checked.ok_bind]
    dsimp only
    rw [hbytes, Checked.ok_bind]
    change t.pool.reserve (t.requestFor m size) >>= _ = _
    rw [hreserved]
    rfl
  obtain ⟨hbsize, rfl, hvacant, -⟩ := Pool.reserve_eq_ok hpool hreserved
  have hpages := FrameSet.isPages_of_byteSize hbytes hcountlt hvacant hbsize
  rw [hcount] at hpages
  have hmem : b ∈ Pool.insert b t.pool.blocks :=
    (Pool.insert_perm b t.pool.blocks).mem_iff.mpr (by simp)
  rw [hblank.frames] at hrecord
  obtain ⟨hs, -, hslots, hin⟩ := FrameSet.record_ofCapacity hrecord
  refine ⟨hpages, ?_⟩
  rw [hmap]
  exact bindRuns_route (t := t.withBlocks (Pool.insert b t.pool.blocks))
    (isBoundary_boundaryFor ht hm) hs hslots hpages hin hmem

end Recorded

theorem mapRuns_of_refused {size : Word} {reason : Refusal}
    (hrecord : m.frames.record runs = .ok (.ok frames)) (hbytes : frames.byteSize = .ok size)
    (hrefused : t.pool.reserve (t.requestFor m size) = .ok (.error reason)) (p : Payload)
    (length : Word) : t.mapRuns m p length runs = .ok (t.declined m
      ⟨reason, some (.noBlock t.name size (t.alignmentFor m) (t.boundaryFor m))⟩) := by
  unfold mapRuns
  rw [hrecord, Checked.ok_bind]
  dsimp only
  rw [hbytes, Checked.ok_bind]
  change t.pool.reserve (t.requestFor m size) >>= _ = _
  rw [hrefused]
  rfl

theorem reserve_untouched {size : Word} (hsize : size.toNat = 0) :
    t.pool.reserve (t.requestFor m size) = .ok (.error .invalid) :=
  if_neg fun hr => hr.1 (BitVec.eq_of_toNat_eq hsize)

theorem mapRuns_route (hpool : t.pool.WellFormed) (ht : t.recorded.WellFormed) (hm : m.IsMade)
    (hblank : m.IsBlank) (hrecord : m.frames.record runs = .ok (.ok frames)) (p : Payload)
    (length : Word) : Route t m p length runs (t.mapRuns m p length runs) := by
  obtain ⟨size, hbytes, hsize⟩ := byteSize_of_record hm hblank hrecord
  rcases Nat.eq_zero_or_pos (Run.frames runs).length with hz | hn
  · have hrefused : t.pool.reserve (t.requestFor m size) = .ok (.error .invalid) :=
      reserve_untouched (by rw [hsize, hz, Nat.zero_mul])
    rw [mapRuns_of_refused hrecord hbytes hrefused]
    exact .untouched (List.eq_nil_of_length_eq_zero hz) rfl
  · rcases reserve_offers hpool ht hm hsize hn with ⟨hrefused, hnone⟩ | ⟨b, hreserved, hb⟩
    · rw [mapRuns_of_refused hrecord hbytes hrefused]
      exact .noRoom hnone
    · obtain ⟨-, hroute⟩ :=
        bindRoute_of_reserve hm hblank hrecord hpool ht hbytes hreserved p length
      exact .bound hn hb hroute

end Tag

end Aperture
