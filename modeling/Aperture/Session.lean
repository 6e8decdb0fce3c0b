import Aperture.Tag.Load
import Aperture.Tag.Sync

namespace Aperture

structure Session where
  /-- Gone after a teardown. -/
  tag : Option Tag
  /-- The table that the tag's calls reach, if any. -/
  table : Option Table
  mappings : List (String × Mapping)

inductive Action where
  | limits
  | load (payload : Payload)
  | unload
  | destroy
  | setAlignment (alignment : Word)
  | sync (offset length : Word) (phases : Phases)

inductive Command where
  /-- Makes a mapping, in place of one of that name. -/
  | create (name : String) (limits : Limits)
  | act (name : String) (action : Action)
  | alloc (size alignment boundary : Word)
  | free (memory : Run .phys)
  | describe
  | entry (bus : BusAddr)
  /-- Forgets a mapping without ending it. -/
  | drop (name : String)
  | teardown

inductive Reply where
  | noTag
  | noMapping
  | done
  | refused (reason : Refusal)
  | capacity (frames : Nat)
  | limits (limits : Limits)
  | memory (run : Run .phys)
  | aperture (name : String) (start : BusAddr) (size : Word)
  | entry (entry : Option Entry)

namespace Reply

def ofResult : Except Refusal Unit → Reply
  | .ok () => done
  | .error reason => refused reason

def isDone : Reply → Bool
  | done => true
  | _ => false

def refusal? : Reply → Option Refusal
  | refused reason => some reason
  | _ => none

theorem ofResult_eq_done_iff {result : Except Refusal Unit} :
    ofResult result = done ↔ result = .ok () := by
  cases result <;> simp [ofResult]

theorem ofResult_eq_refused_iff {result : Except Refusal Unit} {reason : Refusal} :
    ofResult result = refused reason ↔ result = .error reason := by
  cases result <;> simp [ofResult]

theorem isDone_iff {r : Reply} : r.isDone ↔ r = done := by
  cases r <;> simp [isDone]

theorem refusal?_eq_some_iff {r : Reply} {reason : Refusal} :
    r.refusal? = some reason ↔ r = refused reason := by
  cases r <;> simp [refusal?]

end Reply

/-- The session after a command, what it answers, and what was done on the way. -/
structure Step where
  session : Session
  reply : Reply
  events : List Event

namespace Session

def mapping? (s : Session) (name : String) : Option Mapping :=
  s.mappings.lookup name

def remove (s : Session) (name : String) : Session :=
  { s with mappings := s.mappings.filter (·.1 ≠ name) }

def put (s : Session) (name : String) (m : Mapping) : Session :=
  { s with mappings := (name, m) :: (s.remove name).mappings }

def dropped (s : Session) (name : String) : List Event :=
  match s.mapping? name with
  | none => []
  | some m => m.dropped

/-- The session after the table has carried out the calls made on it. -/
def settle (s : Session) (events : List Event) : Session :=
  { s with table := s.table.map fun t => (Event.tableCalls events).foldl Table.apply t }

/-- A session with a new tag. Without an aperture of its own it has that of the table. -/
def new (name : String) (aperture : Option (BusAddr × Word)) (table : Option Table)
    (memory : HostMemory) (cache : Option Cache) : Checked (Session × List Event) := do
  let (start, size) ← match aperture, table with
    | some own, _ => Except.ok own
    | none, some t => t.byteSize.map (t.aperture, ·)
    | none, none => Except.ok (⟨0⟩, 0)
  let (tag, events) ← Tag.new name start size memory cache
  return (⟨some tag, table, []⟩, events)

/-- Does something with the mapping `m`, which the tag `t` has under the name. -/
def act (s : Session) (t : Tag) (name : String) (m : Mapping) : Action → Checked Step
  | .limits => .ok ⟨s, .limits m.limits, []⟩
  | .load payload => do
    let o ← t.load m payload
    return ⟨{ s with tag := some o.tag }.put name o.mapping, .ofResult o.result, o.events⟩
  | .unload => do
    let (t, m, events) ← t.unload m
    return ⟨{ s with tag := some t }.put name m, .done, events⟩
  | .destroy => do
    let (t, events) ← t.destroy m
    return ⟨{ s with tag := some t }.remove name, .done, events⟩
  | .setAlignment alignment =>
    match m.setAlignment alignment with
    | .error reason => .ok ⟨s, .refused reason, []⟩
    | .ok m => .ok ⟨s.put name m, .done, []⟩
  | .sync offset length phases => do
    let (result, events) ← t.sync m offset length phases
    return ⟨s, .ofResult result, events⟩

def forget (s : Session) (name : String) : Step :=
  ⟨s.remove name, .done, s.dropped name⟩

/-- Carries out a command with the tag `t`, before the table has seen the calls. -/
def runWith (s : Session) (t : Tag) : Command → Checked Step
  | .create name limits =>
    match Mapping.new t.memory.host.storage limits with
    | .error reason => .ok ⟨s, .refused reason, []⟩
    | .ok m => .ok ⟨s.put name m, .capacity m.frames.capacity, s.dropped name⟩
  | .act name action =>
    match s.mapping? name with
    | none => .ok ⟨s, .noMapping, []⟩
    | some m => s.act t name m action
  | .alloc size alignment boundary => do
    let (t, result, events) ← t.alloc size alignment boundary
    let reply := match result with
      | .ok run => Reply.memory run
      | .error reason => Reply.refused reason
    return ⟨{ s with tag := some t }, reply, events⟩
  | .free memory =>
    let (t, result) := t.free memory
    .ok ⟨{ s with tag := some t }, .ofResult result, []⟩
  | .describe => .ok ⟨s, .aperture t.name t.start t.pool.size, []⟩
  | .entry bus => .ok ⟨s, .entry (s.table.bind (·.entryAt? bus)), []⟩
  | .drop name => .ok (s.forget name)
  | .teardown => do
    let events ← t.teardown
    return ⟨{ s with tag := none }, .done, events⟩

/-- Carries out a command; without a tag, mappings can only be dropped. -/
def run (s : Session) (c : Command) : Checked Step :=
  match s.tag, c with
  | some t, c => s.runWith t c
  | none, .drop name => .ok (s.forget name)
  | none, _ => .ok ⟨s, .noTag, []⟩

/-- Carries out a command, and lets the table carry out the calls. -/
def step (s : Session) (c : Command) : Checked Step := do
  let done ← s.run c
  return { done with session := done.session.settle done.events }

def runAll (s : Session) : List Command → Checked (List Step)
  | [] => .ok []
  | c :: cs => do
    let done ← s.step c
    return done :: (← done.session.runAll cs)

end Session

end Aperture
