import Aperture.Proofs.Payload.Failure
import Aperture.Proofs.Tag.Aside
import Aperture.Proofs.Tag.Route

namespace Aperture

/-- The notice is about the payload, and neither about the aperture nor about the segments. -/
inductive Notice.TellsPayload : Notice → Prop
  | overflow (tag : String) : TellsPayload (.lengthOverflows tag)
  | length (tag : String) (length limit : Word) : TellsPayload (.badLength tag length limit)
  | hole {n : Notice} (h : n.TellsHole) : TellsPayload n
  | crowd (page : PhysAddr) (capacity : Nat) : TellsPayload (.recordFull page capacity)

namespace Mapping

/-- Why a payload is declined on its own account. -/
inductive Declines (m : Mapping) (p : Payload) (d : Declined) : Prop
  | length
      (h : p.BadLength m.limits.maxSize)
      (hreason : d.reason = .invalid)
  | foreign
      (hlength : ¬ p.BadLength m.limits.maxSize)
      (h : p.IsForeign)
      (hreason : d.reason = .unsupported)
  | unbacked
      (hlength : ¬ p.BadLength m.limits.maxSize)
      (hreach : ¬ p.IsForeign)
      (h : p.IsUnbacked)
      (hreason : d.reason = .invalid)
  | crowded
      (hlength : ¬ p.BadLength m.limits.maxSize)
      (hreach : ¬ p.IsForeign)
      (hbacked : ¬ p.IsUnbacked)
      (h : m.frames.capacity < p.frames.length)
      (hreason : d.reason = .tooManyFrames)

variable {m : Mapping} {p : Payload} {d : Declined}

theorem Declines.not_admits (h : m.Declines p d) : ¬ m.Admits p := by
  intro hadmits
  cases h with
  | length h => exact hadmits.length h
  | foreign _ h => exact hadmits.reach h
  | unbacked _ _ h => exact hadmits.backed h
  | crowded _ _ _ h => exact Nat.not_lt_of_le hadmits.few h

end Mapping

namespace Payload

/-- The check of the length declines what has a bad length and nothing else. -/
theorem badLength_iff {p : Payload} {limit : Word} :
    p.BadLength limit ↔
      match p.length? with
      | none => True
      | some length => length = 0 ∨ limit < length := by
  unfold BadLength
  cases hlength : p.length? with
  | none =>
    have hsize := length?_eq_none_iff.mp hlength
    exact iff_true_intro (.inr (.inr hsize))
  | some length =>
    have hsize := length?_eq_some_iff.mp hlength
    have hlt := length.isLt
    show _ ↔ length = 0 ∨ limit < length
    rw [Word.eq_zero_iff, BitVec.lt_def, hsize]
    constructor
    · rintro (hz | hlong | hover)
      · exact .inl hz
      · exact .inr hlong
      · omega
    · rintro (hz | hlong)
      · exact .inl hz
      · exact .inr (.inl hlong)

end Payload

namespace Tag

variable {t : Tag} {m : Mapping} {p : Payload} {o : Outcome}

/-- A load that comes to an end is declined before any page is bound, or goes on in the first block
there is room for. It is declined for the number of frames only if they are more than can be
recorded. -/
theorem load_route (hpool : t.pool.WellFormed) (ht : t.recorded.WellFormed) (hm : m.IsMade)
    (hblank : m.IsBlank) (h : t.load m p = .ok o) :
    (∃ d, o = t.declined m d ∧ d.reason ≠ .tooManySegments ∧
      (d.reason = .tooManyFrames → p.size ≤ m.limits.maxSize.toNat ∧
        Run.Overfill m.frames.capacity [] (t.memory.resolve p).runs)) ∨
    ∃ length b, (t.memory.resolve p).failure = none ∧
      (∀ r ∈ (t.memory.resolve p).runs, r.isEmpty = false → r.InPage) ∧
      0 < (Run.frames (t.memory.resolve p).runs).length ∧
      t.FirstOffer m (Run.frames (t.memory.resolve p).runs).length b ∧
      BindRoute (t.withBlocks (Pool.insert b t.pool.blocks)) m p length
        (t.memory.resolve p).runs b (.ok o) := by
  rcases load_cases h with ⟨d, rfl, hreason⟩ | ⟨length, hlength, hlimit, hfailure, h⟩
  · have hother {reason : Refusal} (hr : d.reason = reason) :
        reason = .invalid ∨ reason = .unsupported ∨ reason = .outOfMemory := hr ▸ hreason
    exact .inl ⟨d, rfl, fun hr => by simpa using hother hr, fun hr => by simpa using hother hr⟩
  obtain ⟨recorded, hrecord, hmap⟩ := Checked.bind_eq_ok.mp h
  cases recorded with
  | error d =>
    obtain rfl := Except.ok.inj hmap
    rw [hblank.frames] at hrecord
    obtain ⟨hreason, hmany⟩ := FrameSet.record_ofCapacity hrecord
    rw [BitVec.le_def, Payload.length?_eq_some_iff.mp hlength] at hlimit
    exact .inl ⟨d, rfl, by simp [hreason], fun _ => ⟨hlimit, hmany⟩⟩
  | ok frames =>
    have hroute := mapRuns_route hpool ht hm hblank hrecord p length
    rw [h] at hroute
    rw [hblank.frames] at hrecord
    obtain ⟨-, -, -, hin⟩ := FrameSet.record_ofCapacity hrecord
    cases hroute with
    | untouched _ hreason => exact .inl ⟨_, rfl, by simp [hreason], by simp [hreason]⟩
    | noRoom => exact .inl ⟨_, rfl, by simp, by simp⟩
    | bound hn hb hroute => exact .inr ⟨_, _, hfailure, hin, hn, hb, hroute⟩

/-- A load that is refused for the number of frames has touched more than can be recorded, with a
payload of no more bytes than the mapping is made for. -/
theorem crowded_of_load (hpool : t.pool.WellFormed) (ht : t.recorded.WellFormed) (hm : m.IsMade)
    (hblank : m.IsBlank) (h : t.load m p = .ok o) (hresult : o.result = .error .tooManyFrames) :
    p.size ≤ m.limits.maxSize.toNat ∧
      Run.Overfill m.frames.capacity [] (t.memory.resolve p).runs := by
  rcases load_route hpool ht hm hblank h with ⟨d, rfl, -, hcrowded⟩ | ⟨_, b, -, -, -, -, hroute⟩
  · exact hcrowded (Except.error.inj hresult)
  · cases hroute with
    | full => cases hresult
    | done => cases hresult

/-- The course of a load into a mapping that holds nothing. -/
inductive Course (t : Tag) (m : Mapping) (p : Payload) : Checked Outcome → Prop
  | declined {d : Declined}
      (hdeclines : m.Declines p d)
      (hnotice : ∀ n ∈ d.notices, n.TellsPayload) :
      Course t m p (.ok (t.declined m d))
  | noRoom {size : Word}
      (hadmits : m.Admits p)
      (hnone : ∀ start, ¬ t.Offers m p.frames.length start) :
      Course t m p (.ok (t.declined m
        ⟨.spaceExhausted, some (.noBlock t.name size (t.alignmentFor m) (t.boundaryFor m))⟩))
  | bound {length : Word} {b : Block} {result : Checked Outcome}
      (hadmits : m.Admits p)
      (hb : t.FirstOffer m p.frames.length b)
      (hroute : BindRoute (t.withBlocks (Pool.insert b t.pool.blocks)) m p length
        (t.memory.resolve p).runs b result) :
      Course t m p result

/-- The course of a load whose payload is resolved. -/
theorem mapRuns_course (hpool : t.pool.WellFormed) (ht : t.recorded.WellFormed) (hm : m.IsMade)
    (hblank : m.IsBlank) (hresolves : t.memory.Resolves p) (hpaged : p.IsPaged)
    {length : Word} (hlength : p.length? = some length) (hgood : ¬ p.BadLength m.limits.maxSize)
    (hreach : ¬ p.IsForeign) (hbacked : ¬ p.IsUnbacked) (hfailure : p.resolve.failure = none) :
    Course t m p (t.mapRuns m p length p.resolve.runs) := by
  have hframes := Payload.frames_of_resolve hpaged hfailure
  have hpositive : 0 < length.toNat := by
    refine Nat.pos_of_ne_zero fun hz => hgood (.inl ?_)
    rw [← Payload.length?_eq_some_iff.mp hlength, hz]
  have hsome := Payload.length_frames_pos (Payload.bytes?_of_resolve hpaged hfailure) hlength
    hpositive
  rcases FrameSet.record_of_inPage m.frames.capacity
    (fun r hr _ => Payload.inPage_resolve hpaged.keepsOffsets r hr) with
    ⟨hmany, page, hrecord⟩ | ⟨hfew, frames, hrecord⟩
  · rw [← hblank.frames] at hrecord
    rw [mapRuns, hrecord]
    refine .declined (.crowded hgood hreach hbacked (hframes ▸ hmany) rfl) fun n hn => ?_
    obtain rfl := List.mem_singleton.mp hn
    exact .crowd ..
  · rw [← hblank.frames] at hrecord
    have hadmits : m.Admits p := ⟨hgood, hreach, hbacked, hframes ▸ hfew⟩
    have hroute := mapRuns_route hpool ht hm hblank hrecord p length
    generalize t.mapRuns m p length p.resolve.runs = result at hroute
    cases hroute with
    | untouched hnone =>
      rw [hframes, hnone] at hsome
      exact absurd hsome (Nat.lt_irrefl 0)
    | noRoom hnone => exact .noRoom hadmits (hframes ▸ hnone)
    | bound _ hb hroute =>
      exact .bound hadmits (hframes ▸ hb) (hresolves ▸ hroute)

theorem load_course (hpool : t.pool.WellFormed) (ht : t.recorded.WellFormed) (hm : m.IsMade)
    (hblank : m.IsBlank) (hloaded : m.loaded = none) (hresolves : t.memory.Resolves p)
    (hpaged : p.IsPaged) : Course t m p (t.load m p) := by
  rw [load_eq hloaded]
  cases hlength : p.length? with
  | none =>
    have hbad : p.BadLength m.limits.maxSize := by rw [Payload.badLength_iff, hlength]; trivial
    refine .declined (.length hbad rfl) fun n hn => ?_
    obtain rfl := List.mem_singleton.mp hn
    exact .overflow t.name
  | some length =>
    have hbad : p.BadLength m.limits.maxSize ↔ length = 0 ∨ m.limits.maxSize < length := by
      rw [Payload.badLength_iff, hlength]
    dsimp only
    by_cases hlong : length = 0 ∨ m.limits.maxSize < length
    · rw [if_pos hlong]
      refine .declined (.length (hbad.mpr hlong) rfl) fun n hn => ?_
      obtain rfl := List.mem_singleton.mp hn
      exact .length ..
    rw [if_neg hlong, hresolves]
    have hgood := fun h => hlong (hbad.mp h)
    rcases Payload.resolve_tells hpaged with ⟨hforeign, heq⟩ | ⟨hreach, htells⟩
    · rw [heq]
      exact .declined (.foreign hgood hforeign rfl) fun n hn => by cases hn
    unfold Resolution.Tells at htells
    cases hfailure : p.resolve.failure with
    | some d =>
      simp only [hfailure] at htells
      obtain ⟨hunbacked, hreason, n, hn, hhole⟩ := htells
      refine .declined (.unbacked hgood hreach hunbacked hreason) fun n' hn' => ?_
      rw [Declined.notices, hn] at hn'
      obtain rfl := List.mem_singleton.mp hn'
      exact .hole hhole
    | none =>
      simp only [hfailure] at htells
      exact mapRuns_course hpool ht hm hblank hresolves hpaged hlength hgood hreach htells hfailure

section Verdict

variable {d : Declined} {b : Block}

theorem verdict_of_declines (h : m.Declines p d) : t.verdict m p = .error d.reason := by
  unfold verdict
  cases h with
  | length h hreason => rw [if_pos h, hreason]
  | foreign hlength h hreason => rw [if_neg hlength, if_pos h, hreason]
  | unbacked hlength hreach h hreason => rw [if_neg hlength, if_neg hreach, if_pos h, hreason]
  | crowded hlength hreach hbacked h hreason =>
    rw [if_neg hlength, if_neg hreach, if_neg hbacked, if_pos h, hreason]

theorem verdict_of_noRoom (h : m.Admits p) (hnone : ∀ start, ¬ t.Offers m p.frames.length start) :
    t.verdict m p = .error .spaceExhausted := by
  unfold verdict
  rw [if_neg h.length, if_neg h.reach, if_neg h.backed, if_neg (Nat.not_lt_of_le h.few),
    if_pos (not_exists.mpr hnone)]

theorem verdict_of_firstOffer (h : m.Admits p) (hb : t.FirstOffer m p.frames.length b) :
    t.verdict m p = if m.limits.maxSegments.toNat < (t.segmentsIn m p b).length then
      .error .tooManySegments else .ok () := by
  have hany : (∃ c, t.FirstOffer m p.frames.length c ∧
      m.limits.maxSegments.toNat < (t.segmentsIn m p c).length) ↔
      m.limits.maxSegments.toNat < (t.segmentsIn m p b).length := by
    constructor
    · intro hc
      obtain ⟨c, hc, hmany⟩ := hc
      rwa [hb.unique hc]
    · intro hmany
      exact ⟨b, hb, hmany⟩
  unfold verdict
  rw [if_neg h.length, if_neg h.reach, if_neg h.backed, if_neg (Nat.not_lt_of_le h.few),
    if_neg (not_not.mpr ⟨b.start, hb.offered⟩)]
  simp only [hany]

/-- A load that comes to an end comes to what it should. -/
theorem Course.result_eq (hm : m.IsMade) (h : Course t m p (.ok o)) : o.result = t.verdict m p := by
  cases h with
  | declined hdeclines => exact (verdict_of_declines hdeclines).symm
  | noRoom hadmits hnone => exact (verdict_of_noRoom hadmits hnone).symm
  | bound hadmits hb hroute =>
    rw [verdict_of_firstOffer hadmits hb, ← maxCount_rulesFor t hm]
    cases hroute with
    | full _ hmany => exact (if_pos hmany).symm
    | done _ hfew => exact (if_neg (Nat.not_lt_of_le hfew)).symm

end Verdict

end Tag

end Aperture
