import Aperture.Proofs.Tag.Load

namespace Aperture

theorem HostMemory.resolve_congr {memory memory' : HostMemory}
    (h : memory'.host = memory.host) (p : Payload) :
    memory'.resolve p = memory.resolve p := by
  unfold resolve
  rw [h]

/-- The pools are equal, what is recorded is too, and so is how host memory is resolved. -/
structure Tag.Twin (t t' : Tag) : Prop where
  pool : t'.pool = t.pool
  recorded : t'.recorded = t.recorded
  host : t'.memory.host = t.memory.host

structure Tag.Outcome.Like (o o' : Tag.Outcome) : Prop where
  mapping : o'.mapping = o.mapping
  result : o'.result = o.result

namespace Tag.Twin

variable {t t' : Tag} {m : Mapping} {p : Payload} {length : Word} {runs : List (Run .phys)}
  {frames : FrameSet} {b : Block} {o : Outcome}

theorem withPool (h : t.Twin t') (pool : Pool) :
    Twin { t with pool := pool } { t' with pool := pool } := ⟨rfl, h.recorded, h.host⟩

theorem boundaryFor (h : t.Twin t') (m : Mapping) : t'.boundaryFor m = t.boundaryFor m := by
  unfold Tag.boundaryFor
  rw [h.recorded]

theorem alignmentFor (h : t.Twin t') (m : Mapping) : t'.alignmentFor m = t.alignmentFor m := by
  unfold Tag.alignmentFor
  rw [h.recorded]

theorem windowFor (h : t.Twin t') (m : Mapping) : t'.windowFor m = t.windowFor m := by
  unfold Tag.windowFor
  rw [h.pool]

theorem unmap (h : t.Twin t') {undone : Tag} {events : List Event}
    (hunmap : t.unmap frames b = .ok (undone, events)) :
    ∃ undone' events', t'.unmap frames b = .ok (undone', events') := by
  obtain ⟨calls, hcalls, -⟩ := Checked.bind_eq_ok.mp hunmap
  unfold Tag.unmap
  rw [hcalls, Checked.ok_bind, h.pool]
  cases t.pool.release b with
  | ok pool => exact ⟨_, _, rfl⟩
  | error reason => exact ⟨_, _, rfl⟩

theorem bindRuns (h : t.Twin t') (ho : Tag.bindRuns t m p length runs frames b = .ok o) :
    ∃ o', Tag.bindRuns t' m p length runs frames b = .ok o' ∧ o.Like o' := by
  obtain ⟨assigned, hassigned, ho⟩ := Checked.bind_eq_ok.mp ho
  obtain ⟨calls, hcalls, ho⟩ := Checked.bind_eq_ok.mp ho
  obtain ⟨segments, hsegments, ho⟩ := Checked.bind_eq_ok.mp ho
  obtain ⟨gathered, hgathered, ho⟩ := Checked.bind_eq_ok.mp ho
  unfold Tag.bindRuns
  rw [hassigned, Checked.ok_bind, hcalls, Checked.ok_bind, h.boundaryFor, hsegments,
    Checked.ok_bind, hgathered, Checked.ok_bind]
  cases gathered with
  | error d =>
    obtain ⟨⟨undone, events⟩, hunmap, ho⟩ := Checked.bind_eq_ok.mp ho
    obtain rfl := Except.ok.inj ho
    obtain ⟨undone', events', hunmap'⟩ := h.unmap hunmap
    dsimp only
    rw [hunmap']
    exact ⟨_, rfl, rfl, rfl⟩
  | ok gathered =>
    obtain rfl := Except.ok.inj ho
    exact ⟨_, rfl, rfl, rfl⟩

theorem mapRuns (h : t.Twin t') (ho : t.mapRuns m p length runs = .ok o) :
    ∃ o', t'.mapRuns m p length runs = .ok o' ∧ o.Like o' := by
  obtain ⟨recorded, hrecorded, ho⟩ := Checked.bind_eq_ok.mp ho
  unfold Tag.mapRuns
  rw [hrecorded, Checked.ok_bind]
  cases recorded with
  | error d =>
    obtain rfl := Except.ok.inj ho
    exact ⟨_, rfl, rfl, rfl⟩
  | ok frames =>
    obtain ⟨size, hsize, ho⟩ := Checked.bind_eq_ok.mp ho
    obtain ⟨reserved, hreserved, ho⟩ := Checked.bind_eq_ok.mp ho
    dsimp only
    rw [hsize, Checked.ok_bind, h.pool, h.alignmentFor, h.boundaryFor, h.windowFor, hreserved,
      Checked.ok_bind]
    cases reserved with
    | error reason =>
      obtain rfl := Except.ok.inj ho
      exact ⟨_, rfl, rfl, rfl⟩
    | ok reserved => exact (h.withPool reserved.2).bindRuns ho

/-- A payload loaded into the same mapping for two tags that are twins comes to the same. -/
theorem load (h : t.Twin t') (hm : m.loaded = none) (ho : t.load m p = .ok o) :
    ∃ o', t'.load m p = .ok o' ∧ o.Like o' := by
  rw [load_eq hm] at ho ⊢
  cases hlength : p.length? with
  | none =>
    simp only [hlength] at ho ⊢
    obtain rfl := Except.ok.inj ho
    exact ⟨_, rfl, rfl, rfl⟩
  | some length =>
    simp only [hlength, HostMemory.resolve_congr h.host] at ho ⊢
    split at ho
    · next hbad =>
      rw [if_pos hbad]
      obtain rfl := Except.ok.inj ho
      exact ⟨_, rfl, rfl, rfl⟩
    · next hgood =>
      rw [if_neg hgood]
      cases hfailure : (t.memory.resolve p).failure with
      | some d =>
        simp only [hfailure] at ho ⊢
        obtain rfl := Except.ok.inj ho
        exact ⟨_, rfl, rfl, rfl⟩
      | none =>
        simp only [hfailure] at ho ⊢
        exact h.mapRuns ho

end Tag.Twin

namespace Tag

variable {t : Tag} {m : Mapping} {p : Payload} {length : Word} {runs : List (Run .phys)}
  {frames : FrameSet} {b : Block} {o : Outcome} {l : Loaded}

theorem assign_of_bindRuns (hnone : m.loaded = none)
    (ho : bindRuns t m p length runs frames b = .ok o) (hl : o.mapping.loaded = some l) :
    frames.assign (Addr.pageNo ⟨b.start⟩) = .ok l.frames ∧ l.block = b ∧ l.runs = runs := by
  obtain ⟨assigned, hassigned, ho⟩ := Checked.bind_eq_ok.mp ho
  obtain ⟨calls, -, ho⟩ := Checked.bind_eq_ok.mp ho
  obtain ⟨segments, -, ho⟩ := Checked.bind_eq_ok.mp ho
  obtain ⟨gathered, -, ho⟩ := Checked.bind_eq_ok.mp ho
  cases gathered with
  | error d =>
    obtain ⟨⟨undone, events⟩, -, ho⟩ := Checked.bind_eq_ok.mp ho
    obtain rfl := Except.ok.inj ho
    rw [hnone] at hl
    cases hl
  | ok gathered =>
    obtain rfl := Except.ok.inj ho
    obtain rfl := Option.some.inj hl
    exact ⟨hassigned, rfl, rfl⟩

theorem record_of_mapRuns (hnone : m.loaded = none) (ho : t.mapRuns m p length runs = .ok o)
    (hl : o.mapping.loaded = some l) :
    ∃ s, m.frames.record l.runs = .ok (.ok s) ∧
      s.assign (Addr.pageNo ⟨l.block.start⟩) = .ok l.frames := by
  obtain ⟨recorded, hrecorded, ho⟩ := Checked.bind_eq_ok.mp ho
  cases recorded with
  | error d =>
    obtain rfl := Except.ok.inj ho
    rw [declined, hnone] at hl
    cases hl
  | ok frames =>
    obtain ⟨size, -, ho⟩ := Checked.bind_eq_ok.mp ho
    obtain ⟨reserved, -, ho⟩ := Checked.bind_eq_ok.mp ho
    cases reserved with
    | error reason =>
      obtain rfl := Except.ok.inj ho
      rw [declined, hnone] at hl
      cases hl
    | ok reserved =>
      obtain ⟨b, pool⟩ := reserved
      obtain ⟨hassign, rfl, rfl⟩ := assign_of_bindRuns hnone ho hl
      exact ⟨frames, hrecorded, hassign⟩

/-- What is loaded has the frames of its runs as the storage of the mapping records them, with the
pages of its block. -/
theorem record_of_load (ho : t.load m p = .ok o) (hnone : m.loaded = none)
    (hl : o.mapping.loaded = some l) :
    ∃ s, m.frames.record l.runs = .ok (.ok s) ∧
      s.assign (Addr.pageNo ⟨l.block.start⟩) = .ok l.frames := by
  rcases load_cases ho with ⟨d, rfl, -⟩ | ⟨length, -, -, -, ho⟩
  · rw [declined, hnone] at hl
    cases hl
  · exact record_of_mapRuns hnone ho hl

end Tag

end Aperture
