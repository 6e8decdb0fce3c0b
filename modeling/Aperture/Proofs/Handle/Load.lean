import Aperture.Handle.Refines

namespace Aperture

theorem Resolver.resolveOnto_nil (r : Resolver) (s : Storage) (p : Payload) :
    r.resolveOnto s [] p = r.resolve s p := rfl

/-- All that a new load leaves of an earlier one are the limits of the list. -/
theorem GatherList.reset_congr {g g' : GatherList} (hcount : g.rules.maxCount = g'.rules.maxCount)
    (hlength : g.rules.maxLength = g'.rules.maxLength) (boundary : Word) :
    g.reset boundary = g'.reset boundary := by
  obtain ⟨⟨count, length, _, _, _, _⟩, _⟩ := g
  obtain ⟨⟨count', length', _, _, _, _⟩, _⟩ := g'
  obtain rfl : count = count' := hcount
  obtain rfl : length = length' := hlength
  rfl

theorem GatherList.rules_of_reset {g g' : GatherList} {boundary : Word}
    (h : g.reset boundary = .ok g') :
    g'.rules.maxCount = g.rules.maxCount ∧ g'.rules.maxLength = g.rules.maxLength := by
  unfold reset at h
  split at h
  · obtain rfl := Except.ok.inj h
    exact ⟨rfl, rfl⟩
  · cases h

namespace Handle.Refines

variable {h : Handle} {m : Mapping} (hr : h.Refines m)

include hr

theorem isLoaded_eq : h.isLoaded = m.isLoaded := by
  unfold isLoaded Mapping.isLoaded
  cases hl : m.loaded with
  | none => rw [(hr.idle hl).stage]; rfl
  | some l => rw [(hr.loaded l hl).stage]; rfl

/-- An arena that is cleared, a list of segments that is empty, no runs and no block: that is all
that is to be seen of a load that has failed. -/
theorem emptied (hnone : m.loaded = none) {a : Arena} {g : GatherList}
    (ha : a.HasRoom m.frames.capacity) (hcount : g.rules.maxCount = m.segments.rules.maxCount)
    (hlength : g.rules.maxLength = m.segments.rules.maxLength) (hempty : g.newestFirst = []) :
    Refines { h with arena := a.clear, runs := [], segments := g, block := none } m := by
  have hidle := hr.idle hnone
  refine ⟨hr.limits, hr.alignment, hr.blank, ha.clear, hcount, hlength, fun _ => ?_, ?_⟩
  · exact ⟨hidle.stage, rfl, hempty, rfl, hidle.shape, hidle.base, hidle.owner, hidle.length, rfl,
      rfl⟩
  · intro l hl
    cases hnone.symm.trans hl

theorem withArena (hnone : m.loaded = none) {a : Arena} (ha : a.HasRoom m.frames.capacity) :
    Refines { h with arena := a.clear, runs := [] } m := by
  have hidle := hr.idle hnone
  have hsame := hr.emptied hnone ha hr.maxCount hr.maxLength hidle.segments
  rw [← hidle.block] at hsame
  exact hsame

section Constraints

variable {k : Work}

theorem boundary_eq (hlimits : k.handle.limits = h.limits) : k.boundary = k.tag.boundaryFor m := by
  rw [Work.boundary, hlimits, hr.limits, Tag.boundaryFor]

theorem window_eq (hlimits : k.handle.limits = h.limits) : k.window = k.tag.windowFor m := by
  rw [Work.window, hlimits, hr.limits, Tag.windowFor]

theorem alignment_eq (halignment : k.handle.alignment = h.alignment) :
    k.alignment = k.tag.alignmentFor m := by
  rw [Work.alignment, halignment, hr.alignment, Tag.alignmentFor]

end Constraints

/-- With the fields set that tell of the payload, the handle has what the mapping has loaded. -/
theorem settled {k : Work} {a : Arena} {frames : FrameSet} {block : Block} {runs : List (Run .phys)}
    {segments : GatherList} (hhandle : k.handle = { h with
      arena := a, runs := runs, segments := segments, block := some block })
    (hframes : a.Holds frames) (hwell : frames.WellFormed)
    (hcapacity : frames.capacity = m.frames.capacity)
    (hcount : segments.rules.maxCount = m.segments.rules.maxCount)
    (hlength : segments.rules.maxLength = m.segments.rules.maxLength) (p : Payload)
    (length : Word) : (k.settle p length).handle.Refines
      { m with loaded := some (.ofPayload p length block frames runs segments) } := by
  obtain ⟨t, _, es⟩ := k
  obtain rfl := hhandle
  refine ⟨hr.limits, hr.alignment, hr.blank.withLoaded _, hcapacity ▸ hframes.hasRoom, hcount,
    hlength, fun hnone => ?_, fun l hl => ?_⟩
  · cases hnone
  · obtain rfl := Option.some.inj hl
    exact ⟨rfl, rfl, rfl, rfl, rfl, rfl, rfl, rfl, hframes, hwell⟩

theorem withoutRuns (hnone : m.loaded = none) : { h with runs := [] } = h := by
  rw [← (hr.idle hnone).runs]

end Handle.Refines

namespace Work

variable {h : Handle} {m : Mapping} {t : Tag} {p : Payload} {length : Word}
  {runs : List (Run .phys)} {es : List Event}

/-- Unmapping a handle that holds a block does to the tag what unmapping a mapping does, and leaves
nothing of it in the handle. -/
theorem unmap_agrees {k : Work} {frames : FrameSet} {block : Block}
    (hframes : k.handle.arena.Holds frames) (hblock : k.handle.block = some block) :
    Checked.Agree (fun k' x => k' = ⟨x.1, { k.handle with
        arena := k.handle.arena.clear
        block := none
        segments := k.handle.segments.clear }, k.events ++ x.2⟩)
      k.unmap (k.tag.unmap frames block) := by
  unfold unmap Tag.unmap
  rw [hframes.unbindCalls_eq]
  refine .bind_same _ fun calls _ => ?_
  simp only [call, clearArena, setHandle, hblock, release]
  cases k.tag.pool.release block with
  | ok pool => exact .ok rfl
  | error reason => exact .ok (by simp [note])

/-- What mapping the runs of a handle comes to where mapping them for a mapping comes to that. A
failure leaves nothing but the runs. -/
inductive MappedAs (h : Handle) (m : Mapping) (p : Payload) (length : Word)
    (runs : List (Run .phys)) (es : List Event) :
    Work × Except Refusal Unit → Tag.Outcome → Prop
  | undone {k : Work} {o : Tag.Outcome} (reason : Refusal) (htag : k.tag = o.tag)
      (hhandle : k.clearRuns.handle.Refines m) (hmapping : o.mapping = m)
      (hresult : o.result = .error reason) (hevents : k.events = es ++ o.events) :
      MappedAs h m p length runs es (k, .error reason) o
  | done {k : Work} {o : Tag.Outcome} {a : Arena} {frames : FrameSet} {block : Block}
      {segments : GatherList} (htag : k.tag = o.tag)
      (hhandle : k.handle = { h with
        arena := a, runs := runs, segments := segments, block := some block })
      (hframes : a.Holds frames) (hwell : frames.WellFormed)
      (hcapacity : frames.capacity = m.frames.capacity)
      (hcount : segments.rules.maxCount = m.segments.rules.maxCount)
      (hlength : segments.rules.maxLength = m.segments.rules.maxLength)
      (hmapping : o.mapping =
        { m with loaded := some (.ofPayload p length block frames runs segments) })
      (hresult : o.result = .ok ())
      (hevents : es ++ o.events =
        k.events ++ [.notice (.loaded k.tag.name p.describe segments.count)]) :
      MappedAs h m p length runs es (k, .ok ()) o

variable (hr : h.Refines m) (hnone : m.loaded = none)

include hr hnone

theorem bindRuns_agrees {a : Arena} {s : FrameSet} (ha : a.Holds s) (hs : s.WellFormed)
    (hcapacity : s.capacity = m.frames.capacity) (block : Block) :
    Checked.Agree (MappedAs h m p length runs es)
      (bindRuns ⟨t, { h with arena := a, runs := runs }, es⟩ block (t.boundaryFor m))
      (t.bindRuns m p length runs s block) := by
  unfold bindRuns bind gather Tag.bindRuns
  simp only [bind_assoc, pure_bind, setHandle, call]
  refine (ha.assign_agrees hs _).bind fun arena frames hassigned => ?_
  obtain ⟨hframes, hwell, hsame⟩ := hassigned
  rw [hframes.bindCalls_eq, hr.limits, GatherList.reset_congr hr.maxCount hr.maxLength]
  refine .bind_same _ fun calls _ => .bind_same _ fun empty hreset => ?_
  obtain ⟨hcount, hlength⟩ := GatherList.rules_of_reset hreset
  refine (GatherList.gather_agrees hframes hwell empty runs).bind fun x y hgathered => ?_
  cases hgathered with
  | @whole segments hrules =>
    rw [← hrules] at hcount hlength
    refine .ok (.done rfl ?_ hframes hwell (hsame.trans hcapacity) hcount hlength rfl rfl ?_)
    · rw [hr.limits]
    · simp
  | @cut segments d hrules =>
    rw [← hrules] at hcount hlength
    refine (unmap_agrees hframes rfl).bind fun k x hk => ?_
    subst hk
    have hroom : arena.HasRoom m.frames.capacity := hcapacity ▸ hsame ▸ hframes.hasRoom
    have hempty := hr.emptied hnone hroom (g := segments.clear) hcount hlength rfl
    rw [hr.limits] at hempty
    exact .ok (.undone _ rfl hempty rfl rfl (by simp [note]))

theorem mapRuns_agrees : Checked.Agree (MappedAs h m p length runs es)
    (mapRuns ⟨t, { h with runs := runs }, es⟩) (t.mapRuns m p length runs) := by
  have hclear : h.arena.clear.Holds m.frames := by
    rw [hr.blank.frames]
    exact hr.room.holds_clear
  have hwell : m.frames.WellFormed := by
    rw [hr.blank.frames]
    exact FrameSet.wellFormed_ofCapacity _
  unfold mapRuns record Tag.mapRuns
  simp only [bind_assoc, pure_bind, clearArena, setHandle]
  refine (hclear.recordRuns_agrees hwell runs).bind fun x y hrecorded => ?_
  cases hrecorded with
  | full d hroom =>
    exact .ok (.undone _ rfl (hr.withArena hnone hroom) rfl rfl rfl)
  | @recorded a s ha hs hcapacity =>
    have hboundary := hr.boundary_eq (k := ⟨t, { h with arena := a, runs := runs }, es⟩) rfl
    have halignment := hr.alignment_eq (k := ⟨t, { h with arena := a, runs := runs }, es⟩) rfl
    have hwindow := hr.window_eq (k := ⟨t, { h with arena := a, runs := runs }, es⟩) rfl
    dsimp only
    rw [ha.byteSize_eq, hboundary, halignment, hwindow]
    refine .bind_same _ fun size _ => .bind_same _ fun reserved _ => ?_
    cases reserved with
    | error reason =>
      have hroom : a.HasRoom m.frames.capacity := hcapacity ▸ ha.hasRoom
      exact .ok (.undone _ rfl (hr.withArena hnone hroom) rfl rfl rfl)
    | ok reserved =>
      obtain ⟨block, pool⟩ := reserved
      exact bindRuns_agrees (t := { t with pool := pool }) hr hnone ha hs hcapacity block

omit hnone in
/-- A load does to the tag what a load of the mapping does, for the same reason if it fails, and the
handle stands for the mapping afterwards. -/
theorem load_agrees (p : Payload) : Checked.Agree (fun x o => x.1.tag = o.tag ∧
      x.1.handle.Refines o.mapping ∧ x.2 = o.result ∧ x.1.events = es ++ o.events)
    (load ⟨t, h, es⟩ p) (t.load m p) := by
  unfold load Tag.load
  rw [hr.isLoaded_eq]
  cases hloaded : m.isLoaded with
  | true => exact .error _
  | false =>
    have hnone : m.loaded = none := by simpa [Mapping.isLoaded] using hloaded
    rw [if_neg Bool.false_ne_true, if_neg Bool.false_ne_true]
    cases p.length? with
    | none => exact .ok ⟨rfl, hr, rfl, rfl⟩
    | some length =>
      dsimp only
      rw [hr.limits]
      by_cases hbad : length = 0 ∨ m.limits.maxSize < length
      · rw [if_pos hbad, if_pos hbad]
        exact .ok ⟨rfl, hr, rfl, rfl⟩
      rw [if_neg hbad, if_neg hbad]
      unfold resolve
      dsimp only
      rw [(hr.idle hnone).runs, Resolver.resolveOnto_nil]
      unfold HostMemory.resolve
      generalize t.memory.host.resolver.resolve t.memory.host.storage p = found
      obtain ⟨runs, failure⟩ := found
      cases failure with
      | some d => exact .ok ⟨rfl, hr.withoutRuns hnone ▸ hr, rfl, rfl⟩
      | none =>
        dsimp only
        rw [← bind_pure (t.mapRuns m p length runs)]
        refine (mapRuns_agrees hr hnone).bind fun x o hx => ?_
        cases hx with
        | undone reason htag hhandle hmapping hresult hevents =>
          exact .ok ⟨htag, hmapping ▸ hhandle, hresult.symm, hevents⟩
        | done htag hhandle hframes hwell hcapacity hcount hlength hmapping hresult hevents =>
          refine .ok ⟨htag, ?_, hresult.symm, ?_⟩
          · rw [hmapping]
            exact hr.settled hhandle hframes hwell hcapacity hcount hlength p length
          · rw [hevents, ← congrArg (·.segments.count) hhandle]
            rfl

omit hnone in
/-- An unload leaves nothing of the payload, in the mapping and in the handle. -/
theorem unload_agrees : Checked.Agree (fun k x => k.tag = x.1 ∧ k.handle.Refines x.2.1 ∧
    x.2.1.loaded = none ∧ k.events = es ++ x.2.2) (unload ⟨t, h, es⟩) (t.unload m) := by
  unfold unload Tag.unload
  rw [hr.isLoaded_eq, Mapping.isLoaded]
  cases hl : m.loaded with
  | none => exact .ok ⟨rfl, hr, hl, rfl⟩
  | some l =>
    have hhas := hr.loaded l hl
    refine (unmap_agrees hhas.frames hhas.block).bind fun k x hk => ?_
    subst hk
    refine .ok ⟨rfl, ?_, rfl, rfl⟩
    refine ⟨hr.limits, hr.alignment, hr.blank.withLoaded none, hr.room.clear, hr.maxCount,
      hr.maxLength, fun _ => ?_, fun l' hl' => ?_⟩
    · exact ⟨rfl, rfl, rfl, rfl, rfl, rfl, rfl, rfl, rfl, rfl⟩
    · cases hl'

omit hnone in
/-- A handle that is ended holds no block any more that could be lost. -/
theorem destroy_agrees : Checked.Agree (fun x y => x.1 = y.1 ∧ x.2 = es ++ y.2)
    (destroy ⟨t, h, es⟩) (t.destroy m) := by
  unfold destroy Tag.destroy
  rw [hr.isLoaded_eq]
  cases hloaded : m.isLoaded with
  | false =>
    have hnone : m.loaded = none := by simpa [Mapping.isLoaded] using hloaded
    refine .ok ⟨rfl, ?_⟩
    show es ++ h.dropped = es ++ []
    rw [Handle.dropped, (hr.idle hnone).block]
  | true =>
    refine (unload_agrees hr).bind fun k x hk => ?_
    obtain ⟨t', m', events⟩ := x
    obtain ⟨rfl, hrefines, hnone, hevents⟩ := hk
    refine .ok ⟨rfl, ?_⟩
    show k.events ++ k.handle.dropped = es ++ events
    rw [Handle.dropped, (hrefines.idle hnone).block, hevents, List.append_nil]

omit hnone in
/-- What is flushed depends on the fields of a loaded payload only; without one, the length is zero
and no offset is inside. -/
theorem syncPlan_eq (lineSize offset length : Word) (phases : Phases) :
    h.syncPlan lineSize offset length phases = m.syncPlan lineSize offset length phases := by
  unfold Handle.syncPlan Mapping.syncPlan
  rw [hr.limits]
  cases hl : m.loaded with
  | none =>
    have hzero : h.length ≤ offset := by
      rw [(hr.idle hl).length]
      exact BitVec.le_def.mpr (Nat.zero_le _)
    rw [if_pos hzero, (hr.idle hl).length]
  | some l =>
    have hhas := hr.loaded l hl
    rw [hhas.length, hhas.shape, hhas.base, hhas.runs]
    rfl

omit hnone in
theorem sync_agrees (offset length : Word) (phases : Phases) :
    Checked.Agree (fun x y => x.2 = y.1 ∧ x.1.events = es ++ y.2)
      (sync ⟨t, h, es⟩ offset length phases) (t.sync m offset length phases) := by
  unfold sync Tag.sync
  cases t.cache with
  | none => exact .ok ⟨rfl, (List.append_nil es).symm⟩
  | some cache =>
    dsimp only
    rw [syncPlan_eq hr]
    refine .bind_same _ fun plan _ => ?_
    cases cache.follow plan with
    | error f => exact .error f
    | ok x => exact .ok ⟨rfl, rfl⟩

end Work

namespace Handle.Refines

variable {h : Handle} {m : Mapping}

theorem dropped_eq (hr : h.Refines m) : h.dropped = m.dropped := by
  unfold dropped Mapping.dropped
  cases hl : m.loaded with
  | none => rw [(hr.idle hl).block]
  | some l => rw [(hr.loaded l hl).block]

end Handle.Refines

namespace Handle

theorem IsIdle.withAlignment {h : Handle} (hidle : h.IsIdle) (alignment : Word) :
    IsIdle { h with alignment := alignment } :=
  ⟨hidle.stage, hidle.runs, hidle.segments, hidle.block, hidle.shape, hidle.base, hidle.owner,
    hidle.length, hidle.size, hidle.unbound⟩

theorem HasLoaded.withAlignment {h : Handle} {l : Loaded} (hhas : h.HasLoaded l)
    (alignment : Word) : HasLoaded { h with alignment := alignment } l :=
  ⟨hhas.stage, hhas.runs, hhas.segments, hhas.block, hhas.shape, hhas.base, hhas.owner,
    hhas.length, hhas.frames, hhas.wellFormed⟩

/-- What making a handle comes to, where making a mapping comes to that. -/
inductive MadeAs : Except Refusal Handle → Except Refusal Mapping → Prop
  | made {h : Handle} {m : Mapping} (hr : h.Refines m) : MadeAs (.ok h) (.ok m)
  | refused (reason : Refusal) : MadeAs (.error reason) (.error reason)

theorem new_agrees (storage : Storage) (l : Limits) :
    MadeAs (Handle.new storage l) (Mapping.new storage l) := by
  cases hvalid : l.validate with
  | error reason =>
    rw [Handle.new, Mapping.new, hvalid]
    exact .refused reason
  | ok =>
    cases hroom : HostMemory.checkStorage storage l.maxSize with
    | error reason =>
      simp only [Handle.new, Mapping.new, hvalid, hroom]
      exact .refused reason
    | ok =>
      cases hsegments : GatherList.new storage l.maxSegments l.maxLength l.boundary with
      | error reason =>
        simp only [Handle.new, ofLimits, Mapping.new, hvalid, hroom, hsegments]
        exact .refused reason
      | ok segments =>
        have hnew : Mapping.new storage l = .ok ⟨l, .ofNat 64 pageSize,
            .ofCapacity (FrameSet.capacityFor l.maxSize), segments, none⟩ := by
          simp only [Mapping.new, hvalid, hroom, hsegments]
          rfl
        have hempty := (Mapping.isBlank_new hnew).1
        simp only [Handle.new, ofLimits, hvalid, hroom, hsegments, hnew]
        refine .made ⟨rfl, rfl, hempty, (Arena.holds_ofCapacity _).hasRoom, rfl, rfl,
          fun _ => ?_, nofun⟩
        exact ⟨rfl, rfl, congrArg (·.newestFirst) hempty.segments, rfl, rfl, rfl, rfl, rfl, rfl, rfl⟩

theorem setAlignment_agrees {h : Handle} {m : Mapping} (hr : h.Refines m) (alignment : Word) :
    MadeAs (h.setAlignment alignment) (m.setAlignment alignment) := by
  unfold setAlignment Mapping.setAlignment
  split
  · exact .refused _
  split
  · exact .made hr
  · exact .made ⟨hr.limits, rfl, ⟨hr.blank.frames, hr.blank.capacity, hr.blank.segments⟩, hr.room,
      hr.maxCount, hr.maxLength, fun hnone => (hr.idle hnone).withAlignment alignment,
      fun l hl => (hr.loaded l hl).withAlignment alignment⟩

end Handle

end Aperture
