import Aperture.Bytes
import Aperture.Session

namespace Aperture

/-- A payload and what it is loaded as. -/
structure Tenancy where
  payload : Payload
  loaded : Loaded

namespace Command

def subject? : Command → Option String
  | create name _ | act name _ | drop name => some name
  | _ => none

/-- The command takes away the mapping of that name, or what it has loaded. -/
def ends (storage : Storage) (name : String) : Command → Bool
  | create other limits => other == name && (Mapping.new storage limits).isOk
  | act other .unload | act other .destroy | drop other => other == name
  | teardown => true
  | _ => false

/-- The command makes the mapping of that name anew, or takes it away. -/
def renews (storage : Storage) (name : String) : Command → Bool
  | create other limits => other == name && (Mapping.new storage limits).isOk
  | act other .destroy | drop other => other == name
  | _ => false

/-- The alignment and boundary that a command sets for later loads. -/
def recorded? : Command → Option Recorded
  | alloc _ alignment boundary =>
    if alignment.IsBoundary ∧ boundary.IsBoundary then some ⟨alignment, boundary⟩ else none
  | _ => none

/-- The alignment and boundary of the last allocation that is well-formed. -/
def lastRecorded (cs : List Command) : Recorded :=
  (cs.filterMap recorded?).getLastD ⟨0, 0⟩

end Command

structure Ledger where
  session : Session
  calls : List TableCall
  /-- What the mapping of each name was last loaded with. -/
  payloads : String → Payload
  /-- What was loaded in mappings when they were dropped. -/
  lost : List Tenancy

namespace Ledger

/-- Nothing has been done in the session. -/
def start (s : Session) : Ledger := ⟨s, [], fun _ => .raw [], []⟩

/-- What is bound by the calls so far. -/
def bindings (w : Ledger) : Bindings := Bindings.empty.applyAll w.calls

def tenanciesOf (w : Ledger) (mappings : List (String × Mapping)) : List Tenancy :=
  mappings.filterMap fun x => x.2.loaded.map (⟨w.payloads x.1, ·⟩)

def tenancy? (w : Ledger) (name : String) : Option Tenancy :=
  (w.session.mapping? name).bind fun m => m.loaded.map (⟨w.payloads name, ·⟩)

def held (w : Ledger) : List Tenancy := w.tenanciesOf w.session.mappings

def beside (w : Ledger) (name : String) : List Tenancy :=
  w.tenanciesOf (w.session.remove name).mappings

/-- Everything that was loaded and not unloaded. -/
def tenancies (w : Ledger) : List Tenancy := w.held ++ w.lost

/-- Everything that is loaded, but for what the mapping has that the command is about. -/
def bystanders (w : Ledger) (c : Command) : List Tenancy :=
  (c.subject?.elim w.held w.beside) ++ w.lost

def after (w : Ledger) (c : Command) (d : Step) : Ledger where
  session := d.session
  calls := w.calls ++ Event.tableCalls d.events
  payloads := match c, d.reply with
    | .act name (.load p), .done => fun other => if other = name then p else w.payloads other
    | _, _ => w.payloads
  lost := match c, d.reply with
    | .create name _, .capacity _ => (w.tenancy? name).toList ++ w.lost
    | .drop name, .done => (w.tenancy? name).toList ++ w.lost
    | _, _ => w.lost

def step (w : Ledger) (c : Command) : Checked Ledger := do
  let d ← w.session.step c
  return w.after c d

def runAll (w : Ledger) : List Command → Checked Ledger
  | [] => .ok w
  | c :: cs => do
    let next ← w.step c
    next.runAll cs

/-- Carries out commands in a new session that has `size` bytes of aperture from `first` on, and
no table, no caches and no memory to hand out. -/
def runFrom (first : BusAddr) (size : Word) (cs : List Command) : Checked Ledger := do
  let (s, _) ← Session.new "plain" (some (first, size)) none ⟨none, .plain⟩ none
  (start s).runAll cs

/-- The ledgers of all runs of all sessions. -/
inductive Reachable : Ledger → Prop
  | start {name : String} {aperture : Option (BusAddr × Word)} {table : Option Table}
      {memory : HostMemory} {cache : Option Cache} {s : Session} {events : List Event}
      (h : Session.new name aperture table memory cache = .ok (s, events)) :
      Reachable (Ledger.start s)
  | step {w w' : Ledger} {c : Command} (hw : Reachable w) (h : w.step c = .ok w') : Reachable w'

theorem step_eq_ok {w w' : Ledger} {c : Command} :
    w.step c = .ok w' ↔ ∃ d, w.session.step c = .ok d ∧ w' = w.after c d := by
  unfold step
  rw [Checked.bind_eq_ok]
  simp only [Checked.pure_eq, Except.ok.injEq, eq_comm]

theorem Reachable.runAll {w w' : Ledger} {cs : List Command} (hw : w.Reachable)
    (h : w.runAll cs = .ok w') : w'.Reachable := by
  induction cs generalizing w with
  | nil =>
    obtain rfl := Except.ok.inj h
    exact hw
  | cons c cs ih =>
    obtain ⟨next, hnext, h⟩ := Checked.bind_eq_ok.mp h
    exact ih (hw.step hnext) h

theorem reachable_runFrom {w : Ledger} {first : BusAddr} {size : Word} {cs : List Command}
    (h : runFrom first size cs = .ok w) : w.Reachable := by
  obtain ⟨⟨s, events⟩, hs, h⟩ := Checked.bind_eq_ok.mp h
  exact (Reachable.start hs).runAll h

end Ledger

end Aperture
