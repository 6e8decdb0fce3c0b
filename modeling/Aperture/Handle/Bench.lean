import Aperture.Handle.Load
import Aperture.Session

namespace Aperture

/-- What a synchronisation of `length` bytes at `offset` does with caches of the given line size.
The length tells whether there is anything to synchronise: it is zero without a payload. -/
def Handle.syncPlan (h : Handle) (lineSize offset length : Word) (phases : Phases) :
    Checked SyncPlan :=
  if phases.isPre && phases.isPost then .ok (.refuse (.mixedPhases phases.describe))
  else if h.length ≤ offset then .ok (.refuse (.badOffset offset h.length))
  else if length = 0 ∨ h.length.toNat - offset.toNat < length.toNat then
    .ok (.refuse (.badSpan length offset))
  else if h.limits.traits.coherent then .ok .nothing
  else if ¬ phases.needsFlush then .ok .nothing
  else if lineSize = 0 then .ok ⟨[.all], .ok ()⟩
  else SyncPlan.flushesOf h.shape h.base h.runs offset length

def Work.sync (k : Work) (offset length : Word) (phases : Phases) :
    Checked (Work × Except Refusal Unit) :=
  match k.tag.cache with
  | none => .ok (k, .ok ())
  | some cache => do
    let plan ← k.handle.syncPlan cache.lineSize offset length phases
    let (result, events) ← cache.follow plan
    return ({ k with events := k.events ++ events }, result)

/-- A session whose mappings are handles. -/
structure Bench where
  /-- Gone after a teardown. -/
  tag : Option Tag
  table : Option Table
  handles : List (String × Handle)

structure BenchStep where
  bench : Bench
  reply : Reply
  events : List Event

namespace Bench

def handle? (b : Bench) (name : String) : Option Handle := b.handles.lookup name

def remove (b : Bench) (name : String) : Bench :=
  { b with handles := b.handles.filter (·.1 ≠ name) }

def put (b : Bench) (name : String) (h : Handle) : Bench :=
  { b with handles := (name, h) :: (b.remove name).handles }

def dropped (b : Bench) (name : String) : List Event :=
  match b.handle? name with
  | none => []
  | some h => h.dropped

def settle (b : Bench) (events : List Event) : Bench :=
  { b with table := b.table.map fun t => (Event.tableCalls events).foldl Table.apply t }

def bare (b : Bench) : Session := ⟨b.tag, b.table, []⟩

def new (name : String) (aperture : Option (BusAddr × Word)) (table : Option Table)
    (memory : HostMemory) (cache : Option Cache) : Checked (Bench × List Event) := do
  let (s, events) ← Session.new name aperture table memory cache
  return (⟨s.tag, s.table, []⟩, events)

/-- Does something with the handle `h`, which the tag `t` has under the name. -/
def act (b : Bench) (t : Tag) (name : String) (h : Handle) : Action → Checked BenchStep
  | .limits => .ok ⟨b, .limits h.limits, []⟩
  | .load p => do
    let (k, result) ← Work.load ⟨t, h, []⟩ p
    return ⟨{ b with tag := some k.tag }.put name k.handle, .ofResult result, k.events⟩
  | .unload => do
    let k ← Work.unload ⟨t, h, []⟩
    return ⟨{ b with tag := some k.tag }.put name k.handle, .done, k.events⟩
  | .destroy => do
    let (t, events) ← Work.destroy ⟨t, h, []⟩
    return ⟨{ b with tag := some t }.remove name, .done, events⟩
  | .setAlignment alignment =>
    match h.setAlignment alignment with
    | .error reason => .ok ⟨b, .refused reason, []⟩
    | .ok h => .ok ⟨b.put name h, .done, []⟩
  | .sync offset length phases => do
    let (k, result) ← Work.sync ⟨t, h, []⟩ offset length phases
    return ⟨b, .ofResult result, k.events⟩

def forget (b : Bench) (name : String) : BenchStep := ⟨b.remove name, .done, b.dropped name⟩

def runWith (b : Bench) (t : Tag) : Command → Checked BenchStep
  | .create name limits =>
    match Handle.new t.memory.host.storage limits with
    | .error reason => .ok ⟨b, .refused reason, []⟩
    | .ok h => .ok ⟨b.put name h, .capacity h.arena.slots.size, b.dropped name⟩
  | .act name action =>
    match b.handle? name with
    | none => .ok ⟨b, .noMapping, []⟩
    | some h => b.act t name h action
  | .drop name => .ok (b.forget name)
  -- nothing else is about a handle
  | c => do
    let d ← b.bare.runWith t c
    return ⟨{ b with tag := d.session.tag }, d.reply, d.events⟩

def run (b : Bench) (c : Command) : Checked BenchStep :=
  match b.tag, c with
  | some t, c => b.runWith t c
  | none, .drop name => .ok (b.forget name)
  | none, _ => .ok ⟨b, .noTag, []⟩

def step (b : Bench) (c : Command) : Checked BenchStep := do
  let done ← b.run c
  return { done with bench := done.bench.settle done.events }

def runAll (b : Bench) : List Command → Checked (List BenchStep)
  | [] => .ok []
  | c :: cs => do
    let done ← b.step c
    return done :: (← done.bench.runAll cs)

/-- What is answered to some commands, and done for each. -/
def answers (b : Bench) (cs : List Command) : Checked (List (Reply × List Event)) := do
  return (← b.runAll cs).map fun d => (d.reply, d.events)

/-- Carries out commands on a bench on which some calls were made on the table, and adds theirs. -/
def reach (b : Bench) (calls : List TableCall) : List Command → Checked (Bench × List TableCall)
  | [] => .ok (b, calls)
  | c :: cs => do
    let d ← b.step c
    d.bench.reach (calls ++ Event.tableCalls d.events) cs

/-- The benches of all runs, with the calls that were made on the table. -/
inductive Reachable : Bench → List TableCall → Prop
  | start {name : String} {aperture : Option (BusAddr × Word)} {table : Option Table}
      {memory : HostMemory} {cache : Option Cache} {b : Bench} {events : List Event}
      (h : new name aperture table memory cache = .ok (b, events)) : Reachable b []
  | step {b : Bench} {calls : List TableCall} {c : Command} {d : BenchStep}
      (hb : Reachable b calls) (h : b.step c = .ok d) :
      Reachable d.bench (calls ++ Event.tableCalls d.events)

theorem Reachable.reach {b b' : Bench} {calls calls' : List TableCall} {cs : List Command}
    (hb : b.Reachable calls) (h : b.reach calls cs = .ok (b', calls')) : b'.Reachable calls' := by
  induction cs generalizing b calls with
  | nil =>
    obtain ⟨rfl, rfl⟩ := Prod.mk.inj (Except.ok.inj h)
    exact hb
  | cons c cs ih =>
    obtain ⟨d, hd, h⟩ := Checked.bind_eq_ok.mp h
    exact ih (hb.step hd) h

end Bench

end Aperture
