import Aperture.Proofs.Gather.Runs
import Aperture.Proofs.Pool.Reserve
import Aperture.Proofs.Tag.Aside

namespace Aperture

namespace Loaded

def layout (l : Loaded) : List (BusAddr × PhysAddr) := l.block.layout (Run.frames l.runs)

/-- The frames of the runs are laid into the block, and the segments are where the runs are then. -/
structure Fits (l : Loaded) : Prop where
  pages : l.block.IsPages (Run.frames l.runs).length
  laid : l.frames.LaidIn l.block (Run.frames l.runs)
  inPage : ∀ r ∈ l.runs, r.isEmpty = false → r.InPage
  bytes : l.segments.bytes = (l.block.ranges (Run.frames l.runs) l.runs).flatMap Run.bytes
  noneEmpty : l.segments.NoneEmpty

end Loaded

namespace Mapping

/-- Nothing is recorded in the storage of the mapping, which is not larger than a word can tell. -/
structure IsBlank (m : Mapping) : Prop where
  frames : m.frames = .ofCapacity m.frames.capacity
  capacity : m.frames.capacity < 2 ^ 64
  segments : m.segments = .empty m.segments.rules

theorem isBlank_new {storage : Storage} {l : Limits} {m : Mapping}
    (h : Mapping.new storage l = .ok m) :
    m.IsBlank ∧ m.loaded = none := by
  unfold Mapping.new at h
  obtain ⟨-, -, h⟩ := Checked.bind_eq_ok.mp h
  obtain ⟨-, -, h⟩ := Checked.bind_eq_ok.mp h
  obtain ⟨segments, hsegments, h⟩ := Checked.bind_eq_ok.mp h
  obtain rfl := Except.ok.inj h
  have hempty : segments = .empty segments.rules := by
    obtain ⟨rules, hrules, -⟩ := GatherList.new_eq_ok hsegments
    rw [hrules]
    rfl
  refine ⟨⟨rfl, ?_, hempty⟩, rfl⟩
  show FrameSet.capacityFor l.maxSize < 2 ^ 64
  have hlt := l.maxSize.isLt
  unfold FrameSet.capacityFor FrameSet.slack FrameSet.minCapacity pageSize
  omega

/-- The same limits and the same storage, whatever alignment is asked for and whatever is loaded. -/
structure Alike (m m' : Mapping) : Prop where
  limits : m'.limits = m.limits
  frames : m'.frames = m.frames
  segments : m'.segments = m.segments

theorem Alike.refl (m : Mapping) : m.Alike m := ⟨rfl, rfl, rfl⟩

theorem Alike.trans {m₁ m₂ m₃ : Mapping} (h : m₁.Alike m₂) (h' : m₂.Alike m₃) : m₁.Alike m₃ :=
  ⟨h'.limits.trans h.limits, h'.frames.trans h.frames, h'.segments.trans h.segments⟩

/-- Alignment and payload are all that mappings that are alike can differ in. -/
theorem Alike.eq {m m' : Mapping} (h : m.Alike m') (halignment : m'.alignment = m.alignment)
    (hloaded : m'.loaded = m.loaded) : m' = m := by
  obtain ⟨limits, alignment, frames, segments, loaded⟩ := m'
  obtain ⟨rfl, rfl, rfl⟩ := h
  obtain rfl := halignment
  obtain rfl := hloaded
  rfl

theorem alike_withLoaded (m : Mapping) (l? : Option Loaded) : m.Alike { m with loaded := l? } :=
  ⟨rfl, rfl, rfl⟩

theorem Alike.isBlank {m m' : Mapping} (h : m.Alike m') (hm : m.IsBlank) : m'.IsBlank := by
  refine ⟨?_, ?_, ?_⟩
  · rw [h.frames]
    exact hm.frames
  · rw [h.frames]
    exact hm.capacity
  · rw [h.segments]
    exact hm.segments

theorem IsBlank.withLoaded {m : Mapping} (h : m.IsBlank) (l? : Option Loaded) :
    IsBlank { m with loaded := l? } := (alike_withLoaded m l?).isBlank h

theorem setAlignment_eq_ok {m m' : Mapping} {alignment : Word}
    (h : m.setAlignment alignment = .ok m') : m'.loaded = m.loaded ∧ m.Alike m' := by
  unfold setAlignment at h
  split at h
  · cases h
  · split at h
    · obtain rfl := Except.ok.inj h
      exact ⟨rfl, .refl m⟩
    · obtain rfl := Except.ok.inj h
      exact ⟨rfl, rfl, rfl, rfl⟩

end Mapping

namespace FrameSet

theorem isPages_of_byteSize {s : FrameSet} {size : Word} (hsize : s.byteSize = .ok size)
    (hlt : s.size < 2 ^ 64) {p : Pool} {b : Block} (hb : p.Vacant b) (heq : b.size = size) :
    b.IsPages s.size := by
  have htimes := Word.times_eq_ok_iff.mp hsize
  rw [BitVec.toNat_ofNat, Nat.mod_eq_of_lt hlt, ← heq] at htimes
  refine ⟨hb.start_pages, htimes, ?_⟩
  have hbelow := hb.below
  have hlast := p.last.isLt
  unfold Block.stop at hbelow
  omega

end FrameSet

namespace Tag

def withBlocks (t : Tag) (bs : List Block) : Tag := { t with pool := t.pool.withBlocks bs }

/-- Frames that are laid into a block that is handed out are unbound there, and the block is given
back. -/
theorem unmap_eq {t : Tag} {s : FrameSet} {b : Block} {runs : List (Run .phys)}
    (hs : s.LaidIn b (Run.frames runs)) (hb : b.IsPages (Run.frames runs).length)
    (hmem : b ∈ t.pool.blocks) :
    t.unmap s b = .ok (t.withBlocks (t.pool.blocks.erase b),
      (b.unbinds (Run.frames runs)).map Event.table) := by
  have hcalls := hs.unbindCalls_eq hb fun _ => Run.inSpace_of_mem_frames
  unfold unmap
  simp only [hcalls, Checked.ok_bind, Pool.release_of_mem hmem]
  rfl

section Binding

variable {t : Tag} {m : Mapping} {p : Payload} {length : Word} {runs : List (Run .phys)}
  {frames : FrameSet} {b : Block} {o : Outcome}

/-- Binding recorded frames in a block that is handed out: the runs are gathered, or the segments
run out and the block is given back. -/
theorem bindRuns_cases (hs : frames.WellFormed)
    (hslots : frames.toList = (Run.frames runs).map (⟨·, none⟩))
    (hb : b.IsPages (Run.frames runs).length) (hin : ∀ r ∈ runs, r.isEmpty = false → r.InPage)
    (hmem : b ∈ t.pool.blocks) (h : bindRuns t m p length runs frames b = .ok o) :
    (o.tag = t.withBlocks (t.pool.blocks.erase b) ∧ o.mapping = m ∧
      o.result = .error .tooManySegments ∧
      Event.tableCalls o.events = b.binds (Run.frames runs) m.limits.traits ++
        b.unbinds (Run.frames runs)) ∨
    ∃ l : Loaded, l.Fits ∧ l.block = b ∧ l.runs = runs ∧ l.length = length ∧ o.tag = t ∧
      o.mapping = { m with loaded := some l } ∧ o.result = .ok () ∧
      Event.tableCalls o.events = b.binds (Run.frames runs) m.limits.traits ∧
      l.shape = p.shape ∧ l.base = p.base? := by
  have hinSpace (f : FrameNo) (hf : f ∈ Run.frames runs) : f.InSpace :=
    Run.inSpace_of_mem_frames hf
  have htouched (r : Run .phys) (hr : r ∈ runs) (he : r.isEmpty = false) :
      r.addr.pageNo ∈ Run.frames runs := Run.mem_frames.mpr ⟨r, hr, he, rfl⟩
  obtain ⟨laid, hassign, hlaid, -⟩ := FrameSet.assign_laidIn hs hslots hb
  unfold bindRuns at h
  rw [hassign, Checked.ok_bind, hlaid.bindCalls_eq hb hinSpace, Checked.ok_bind] at h
  obtain ⟨segments, hreset, h⟩ := Checked.bind_eq_ok.mp h
  rw [GatherList.appendRuns_eq hlaid hb htouched] at h
  obtain ⟨outcome, hgather, h⟩ := Checked.bind_eq_ok.mp h
  obtain ⟨gathered, hall, rfl⟩ := Checked.map_eq_ok.mp hgather
  have hcases := GatherList.appendAll_cases hall
  cases gathered with
  | error reason =>
    have hmany : reason = .tooManySegments := hcases
    subst hmany
    simp only [Except.mapError, unmap_eq hlaid hb hmem, Checked.ok_bind, Checked.pure_eq] at h
    obtain rfl := Except.ok.inj h
    exact .inl ⟨rfl, rfl, rfl, by simp [Declined.notices]⟩
  | ok gathered =>
    obtain ⟨-, hbytes, hnonempty⟩ := hcases
    obtain rfl := Except.ok.inj h
    have hempty : segments.newestFirst = [] := by
      unfold GatherList.reset at hreset
      split at hreset
      · obtain rfl := Except.ok.inj hreset
        rfl
      · cases hreset
    refine .inr ⟨.ofPayload p length b laid runs gathered, ⟨hb, hlaid, hin, ?_, ?_⟩, rfl, rfl, rfl,
      rfl, rfl, rfl, by simp, rfl, rfl⟩
    · show gathered.bytes = _
      rw [hbytes, GatherList.bytes_eq segments, hempty]
      rfl
    · exact hnonempty fun r hr => by
        rw [hempty] at hr
        cases hr

end Binding

/-- What a load can come to. -/
inductive LoadEffect (t : Tag) (m : Mapping) (p : Payload) (o : Outcome) : Prop
  /-- The load is turned down before any page is bound. -/
  | declined (d : Declined) (houtcome : o = t.declined m d)
  /-- The segments run out: the pages that were bound in a free block are unbound again. -/
  | unwound (b : Block) (frames : List FrameNo)
      (hvacant : t.pool.Vacant b)
      (hpages : b.IsPages frames.length)
      (htag : o.tag = t)
      (hmapping : o.mapping = m)
      (hresult : o.result = .error .tooManySegments)
      (hcalls : Event.tableCalls o.events =
        b.binds frames m.limits.traits ++ b.unbinds frames)
  | loaded (l : Loaded)
      (hvacant : t.pool.Vacant l.block)
      (hfits : l.Fits)
      (hlength : p.length? = some l.length)
      (hfailure : (t.memory.resolve p).failure = none)
      (hruns : l.runs = (t.memory.resolve p).runs)
      (htag : o.tag = t.withBlocks (Pool.insert l.block t.pool.blocks))
      (hmapping : o.mapping = { m with loaded := some l })
      (hresult : o.result = .ok ())
      (hcalls : Event.tableCalls o.events =
        l.block.binds (Run.frames l.runs) m.limits.traits)
      (hshape : l.shape = p.shape)
      (hbase : l.base = p.base?)

theorem loaded_eq_none_of_load {t : Tag} {m : Mapping} {p : Payload} {o : Outcome}
    (h : t.load m p = .ok o) : m.loaded = none := by
  cases hl : m.loaded with
  | none => rfl
  | some l =>
    unfold load at h
    rw [if_pos (by rw [Mapping.isLoaded, hl]; rfl)] at h
    cases h

/-- What a load of a payload with a word for a length comes to, once it is resolved. -/
theorem load_eq {t : Tag} {m : Mapping} {p : Payload} (hloaded : m.loaded = none) :
    t.load m p =
      match p.length? with
      | none => .ok (t.declined m ⟨.invalid, some (.lengthOverflows t.name)⟩)
      | some length =>
        if length = 0 ∨ m.limits.maxSize < length then
          .ok (t.declined m ⟨.invalid, some (.badLength t.name length m.limits.maxSize)⟩)
        else match (t.memory.resolve p).failure with
          | some d => .ok (t.declined m d)
          | none => t.mapRuns m p length (t.memory.resolve p).runs := by
  unfold load
  exact if_neg (by simp [Mapping.isLoaded, hloaded])

theorem load_isOk_of_failure {t : Tag} {m : Mapping} {p : Payload} (hloaded : m.loaded = none)
    {d : Declined} (h : (t.memory.resolve p).failure = some d) : ∃ o, t.load m p = .ok o := by
  rw [load_eq hloaded]
  cases p.length? with
  | none => exact ⟨_, rfl⟩
  | some length =>
    simp only [h]
    split <;> exact ⟨_, rfl⟩

/-- A load is declined for what its payload is, or goes on to map the payload's runs. -/
theorem load_cases {t : Tag} {m : Mapping} {p : Payload} {o : Outcome} (h : t.load m p = .ok o) :
    (∃ d, o = t.declined m d ∧
      (d.reason = .invalid ∨ d.reason = .unsupported ∨ d.reason = .outOfMemory)) ∨
      ∃ length, p.length? = some length ∧ length ≤ m.limits.maxSize ∧
        (t.memory.resolve p).failure = none ∧
        t.mapRuns m p length (t.memory.resolve p).runs = .ok o := by
  rw [load_eq (loaded_eq_none_of_load h)] at h
  cases hlength : p.length? with
  | none =>
    simp only [hlength] at h
    exact .inl ⟨_, (Except.ok.inj h).symm, .inl rfl⟩
  | some length =>
    simp only [hlength] at h
    split at h
    · exact .inl ⟨_, (Except.ok.inj h).symm, .inl rfl⟩
    · next hgood =>
      cases hfailure : (t.memory.resolve p).failure with
      | some d =>
        simp only [hfailure] at h
        exact .inl ⟨d, (Except.ok.inj h).symm, (t.memory.follows_resolve p).reasons d hfailure⟩
      | none =>
        simp only [hfailure] at h
        exact .inr ⟨length, rfl, BitVec.not_lt.mp (not_or.mp hgood).2, rfl, h⟩

theorem loadEffect_of_mapRuns {t : Tag} {m : Mapping} {p : Payload} {length : Word} {o : Outcome}
    (hpool : t.pool.WellFormed) (hm : m.IsBlank) (hlength : p.length? = some length)
    (hfailure : (t.memory.resolve p).failure = none)
    (h : t.mapRuns m p length (t.memory.resolve p).runs = .ok o) : t.LoadEffect m p o := by
  unfold mapRuns at h
  rw [hm.frames] at h
  obtain ⟨recorded, hrecord, h⟩ := Checked.bind_eq_ok.mp h
  have hrecorded := FrameSet.record_ofCapacity hrecord
  cases recorded with
  | error d => exact .declined d (Except.ok.inj h).symm
  | ok frames =>
    obtain ⟨hs, hcap, hslots, hin⟩ := hrecorded
    have hsize : frames.size = (Run.frames (t.memory.resolve p).runs).length := by
      rw [FrameSet.size_eq, FrameSet.frames, hslots, List.map_map, List.length_map]
    have hlt : frames.size < 2 ^ 64 := by
      have := hs.size_le
      have := hm.capacity
      omega
    obtain ⟨size, hbytes, h⟩ := Checked.bind_eq_ok.mp h
    obtain ⟨reserved, hreserve, h⟩ := Checked.bind_eq_ok.mp h
    cases reserved with
    | error reason => exact .declined _ (Except.ok.inj h).symm
    | ok reserved =>
      obtain ⟨b, q⟩ := reserved
      obtain ⟨hbsize, rfl, hvacant, -⟩ := Pool.reserve_eq_ok hpool hreserve
      have hb := FrameSet.isPages_of_byteSize hbytes hlt hvacant hbsize
      rw [hsize] at hb
      have hmem : b ∈ Pool.insert b t.pool.blocks :=
        (Pool.insert_perm b t.pool.blocks).mem_iff.mpr (by simp)
      -- when the segments run out, taking the block back undoes the reservation
      have hback : (Pool.insert b t.pool.blocks).erase b = t.pool.blocks :=
        Pool.erase_insert hvacant.not_mem
      obtain hfull | hloaded := bindRuns_cases hs hslots hb hin hmem h
      · obtain ⟨htag, hmapping, hresult, hcalls⟩ := hfull
        refine .unwound b _ hvacant hb ?_ hmapping hresult hcalls
        rw [htag]
        show t.withBlocks ((Pool.insert b t.pool.blocks).erase b) = t
        rw [hback]
        rfl
      · obtain ⟨l, hfits, rfl, hruns, rfl, htag, hmapping, hresult, hcalls, hshape, hbase⟩ := hloaded
        rw [← hruns] at hcalls
        exact .loaded l hvacant hfits hlength hfailure hruns htag hmapping hresult hcalls hshape
          hbase

theorem loadEffect_of_load {t : Tag} {m : Mapping} {p : Payload} {o : Outcome}
    (hpool : t.pool.WellFormed) (hm : m.IsBlank) (h : t.load m p = .ok o) : t.LoadEffect m p o := by
  rcases load_cases h with ⟨d, rfl, -⟩ | ⟨length, hlength, -, hfailure, h⟩
  · exact .declined d rfl
  · exact loadEffect_of_mapRuns hpool hm hlength hfailure h

theorem tableCalls_declined (t : Tag) (m : Mapping) (d : Declined) :
    Event.tableCalls (t.declined m d).events = [] := Event.tableCalls_map_notice _

theorem unload_eq {t : Tag} {m : Mapping} {l : Loaded} (hl : m.loaded = some l) (hfits : l.Fits)
    (hmem : l.block ∈ t.pool.blocks) :
    t.unload m = .ok (t.withBlocks (t.pool.blocks.erase l.block), { m with loaded := none },
      (l.block.unbinds (Run.frames l.runs)).map Event.table) := by
  unfold unload
  rw [hl]
  simp only [unmap_eq hfits.laid hfits.pages hmem, Checked.ok_bind]
  rfl

theorem destroy_eq {t : Tag} {m : Mapping} {l : Loaded} (hl : m.loaded = some l) (hfits : l.Fits)
    (hmem : l.block ∈ t.pool.blocks) :
    t.destroy m = .ok (t.withBlocks (t.pool.blocks.erase l.block),
      (l.block.unbinds (Run.frames l.runs)).map Event.table) := by
  unfold destroy
  rw [if_pos (by rw [Mapping.isLoaded, hl]; rfl), unload_eq hl hfits hmem]
  rfl

end Tag

end Aperture
