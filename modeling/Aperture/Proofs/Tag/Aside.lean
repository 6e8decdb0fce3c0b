import Aperture.HostMemory.History
import Aperture.Proofs.Payload.Bytes
import Aperture.Tag.Sync

namespace Aperture

namespace HostMemory

variable {memory : HostMemory} {p : Payload}

theorem follows_resolve (memory : HostMemory) (p : Payload) :
    (memory.resolve p).Follows p.resolve := memory.host.resolver.follows _ p

theorem resolves_iff_of_direct (h : memory.host.resolver = .direct) :
    memory.Resolves p ↔ p.resolve.runs.length ≤ memory.host.storage.limit := by
  unfold Resolves resolve
  rw [h]
  constructor
  · intro heq
    by_contra hlong
    have hruns := congrArg (·.runs.length) heq
    simp only [Resolver.direct, Resolution.storedIn, if_neg hlong, List.length_take] at hruns
    omega
  · exact fun hle => if_pos hle

/-- Without storage for all runs, a payload is turned down. -/
theorem failure_of_direct (h : memory.host.resolver = .direct) (hlong : ¬ memory.Resolves p) :
    (memory.resolve p).failure = some ⟨.outOfMemory, none⟩ := by
  rw [resolves_iff_of_direct h] at hlong
  unfold resolve
  rw [h]
  show (p.resolve.storedIn _).failure = _
  rw [Resolution.storedIn, if_neg hlong]

theorem runs_of_direct (h : memory.host.resolver = .direct) :
    (memory.resolve p).runs <+: p.resolve.runs := by
  unfold resolve
  rw [h]
  exact Resolution.runs_storedIn_isPrefix ..

/-- The runs of a payload that is resolved hold its bytes, whoever resolves it. -/
theorem bytes?_of_resolve (hpaged : p.IsPaged) (hfailure : (memory.resolve p).failure = none)
    (hin : ∀ r ∈ (memory.resolve p).runs, r.isEmpty = false → r.InPage) :
    p.bytes? = some ((memory.resolve p).runs.flatMap Run.bytes) := by
  obtain ⟨hdone, hbytes⟩ := (memory.follows_resolve p).complete hfailure hin
  rw [hbytes]
  exact Payload.bytes?_of_resolve hpaged hdone

theorem host_alloc {memory memory' : HostMemory} {size alignment boundary : Word}
    {run : Run .phys} (h : memory.alloc size alignment boundary = .ok (.ok (run, memory'))) :
    memory'.host = memory.host := by
  unfold alloc at h
  split at h
  · cases h
  · obtain ⟨size, hsize, h⟩ := Checked.bind_eq_ok.mp h
    obtain ⟨reserved, hreserved, h⟩ := Checked.bind_eq_ok.mp h
    split at h
    · cases h
    · cases h
    · obtain ⟨rfl, rfl⟩ := by simpa using Except.ok.inj h
      rfl

theorem host_free {memory memory' : HostMemory} {r : Run .phys}
    (h : memory.free r = .ok memory') : memory'.host = memory.host := by
  unfold free at h
  split at h
  · cases h
  · split at h
    · cases h
    · obtain rfl := Except.ok.inj h
      rfl

section Next

variable {m m₁ m' : HostMemory}

/-- The memory is left alone, or one call is made on it. -/
inductive Next (m m' : HostMemory) : Prop
  | kept (h : m' = m)
  | called (c : Call) (o : Outcome) (h : m.carryOut c = .ok (o, m'))

theorem Next.runAll (h : m.Next m₁) {cs : List Call} {outcomes : List Outcome}
    (hrun : m₁.runAll cs = .ok (outcomes, m')) :
    ∃ cs outcomes, m.runAll cs = .ok (outcomes, m') := by
  cases h with
  | kept h => exact ⟨cs, outcomes, h ▸ hrun⟩
  | called c o h =>
    refine ⟨c :: cs, o :: outcomes, ?_⟩
    rw [HostMemory.runAll, h, Checked.ok_bind, hrun]
    rfl

theorem Next.host_eq (h : m.Next m') : m'.host = m.host := by
  cases h with
  | kept h => rw [h]
  | called c o h =>
    cases c with
    | alloc length alignment boundary =>
      obtain ⟨answer, halloc, h⟩ := Checked.bind_eq_ok.mp h
      cases answer with
      | error d => exact congrArg host (Prod.mk.inj (Except.ok.inj h)).2.symm
      | ok found =>
        obtain ⟨-, rfl⟩ := Prod.mk.inj (Except.ok.inj h)
        exact host_alloc halloc
    | free r =>
      rw [carryOut] at h
      cases hfree : m.free r with
      | error why =>
        rw [hfree] at h
        exact congrArg host (Prod.mk.inj (Except.ok.inj h)).2.symm
      | ok left =>
        rw [hfree] at h
        obtain ⟨-, rfl⟩ := Prod.mk.inj (Except.ok.inj h)
        exact host_free hfree

end Next

end HostMemory

namespace Cache

variable {cache : Cache} {plan : SyncPlan} {result : Except Refusal Unit} {events : List Event}

/-- What comes of a plan that is followed, with the calls that are written down. -/
theorem follow_eq_ok (h : cache.follow plan = .ok (result, events)) :
    result = plan.result.mapError (·.reason) ∧
      cache.perform plan.calls = .ok (Event.cacheCalls events) ∧ Event.tableCalls events = [] := by
  obtain ⟨calls, hcalls, h⟩ := Checked.bind_eq_ok.mp h
  cases hresult : plan.result with
  | ok =>
    rw [hresult] at h
    obtain ⟨rfl, rfl⟩ := by simpa using Except.ok.inj h
    exact ⟨rfl, by simpa using hcalls, by simp⟩
  | error d =>
    rw [hresult] at h
    obtain ⟨rfl, rfl⟩ := by simpa using Except.ok.inj h
    exact ⟨rfl, by simpa using hcalls, by simp⟩

theorem follow_of_done {written : List CacheCall} (hdone : plan.result = .ok ())
    (h : cache.perform plan.calls = .ok written) :
    cache.follow plan = .ok (.ok (), written.map Event.cache) := by
  rw [follow, h, Checked.ok_bind, hdone]
  rfl

def Works (c : Cache) : Prop := ∀ calls, ∃ written, c.perform calls = .ok written

theorem Works.follow {c : Cache} (h : c.Works) (plan : SyncPlan) :
    ∃ outcome, c.follow plan = .ok outcome := by
  obtain ⟨written, hwritten⟩ := h plan.calls
  rw [Cache.follow, hwritten, Checked.ok_bind]
  cases plan.result <;> exact ⟨_, rfl⟩

/-- The line size that is told by a cache that only writes its calls down. -/
def told? : Cache → Option Word
  | recorded lineSize => some lineSize
  | lines _ => none

theorem of_told? {c : Cache} {lineSize : Word} (h : c.told? = some lineSize) :
    c.Works ∧ c.lineSize = lineSize ∧ ∀ calls, c.perform calls = .ok calls := by
  cases c with
  | recorded n => exact ⟨fun calls => ⟨calls, rfl⟩, Option.some.inj h, fun _ => rfl⟩
  | lines => cases h

end Cache

namespace Tag

variable {t t' : Tag}

theorem alloc_eq_ok {size alignment boundary : Word} {result : Except Refusal (Run .phys)}
    {events : List Event} (h : t.alloc size alignment boundary = .ok (t', result, events)) :
    t'.pool = t.pool ∧ t'.memory.host = t.memory.host ∧ Event.tableCalls events = [] := by
  unfold alloc at h
  split at h
  · obtain ⟨allocated, hallocated, h⟩ := Checked.bind_eq_ok.mp h
    cases allocated with
    | error d =>
      obtain ⟨rfl, rfl, rfl⟩ := by simpa using Except.ok.inj h
      exact ⟨rfl, rfl, Event.tableCalls_map_notice _⟩
    | ok found =>
      obtain ⟨run, memory⟩ := found
      obtain ⟨rfl, rfl, rfl⟩ := by simpa using Except.ok.inj h
      exact ⟨rfl, HostMemory.host_alloc hallocated, rfl⟩
  · obtain ⟨rfl, rfl, rfl⟩ := by simpa using Except.ok.inj h
    exact ⟨rfl, rfl, rfl⟩

theorem free_eq (t : Tag) (r : Run .phys) :
    (t.free r).1.pool = t.pool ∧ (t.free r).1.memory.host = t.memory.host := by
  unfold free
  cases hfree : t.memory.free r with
  | error reason => exact ⟨rfl, rfl⟩
  | ok memory => exact ⟨rfl, HostMemory.host_free hfree⟩

theorem memory_alloc {length alignment boundary : Word} {result : Except Refusal (Run .phys)}
    {events : List Event} (h : t.alloc length alignment boundary = .ok (t', result, events)) :
    t.memory.Next t'.memory := by
  unfold alloc at h
  split at h
  · obtain ⟨answer, halloc, h⟩ := Checked.bind_eq_ok.mp h
    cases answer with
    | error d =>
      obtain ⟨rfl, -, -⟩ := by simpa using Except.ok.inj h
      exact .kept rfl
    | ok found =>
      obtain ⟨rfl, -, -⟩ := by simpa using Except.ok.inj h
      refine .called (.alloc length alignment boundary) (.allocated found.1) ?_
      rw [HostMemory.carryOut, halloc]
      rfl
  · obtain ⟨rfl, -, -⟩ := by simpa using Except.ok.inj h
    exact .kept rfl

theorem memory_free (t : Tag) (r : Run .phys) : t.memory.Next (t.free r).1.memory := by
  unfold free
  cases hfree : t.memory.free r with
  | error why => exact .kept rfl
  | ok left =>
    refine .called (.free r) (.freed r) ?_
    rw [HostMemory.carryOut, hfree]

theorem tableCalls_sync {m : Mapping} {offset length : Word} {phases : Phases}
    {result : Except Refusal Unit} {events : List Event}
    (h : t.sync m offset length phases = .ok (result, events)) : Event.tableCalls events = [] := by
  unfold sync at h
  cases hcache : t.cache with
  | none =>
    rw [hcache] at h
    obtain ⟨rfl, rfl⟩ := by simpa using Except.ok.inj h
    rfl
  | some cache =>
    rw [hcache] at h
    obtain ⟨plan, -, h⟩ := Checked.bind_eq_ok.mp h
    exact (Cache.follow_eq_ok h).2.2

end Tag

end Aperture
