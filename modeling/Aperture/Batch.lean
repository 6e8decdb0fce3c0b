import Aperture.Admission
import Aperture.Ledger

namespace Aperture

/-- No page that is bound is bound again, and none that is not is unbound. -/
def Bindings.Fresh (β : Bindings) : List TableCall → Prop
  | [] => True
  | .bind bus phys traits :: calls => β bus = none ∧ (β.apply (.bind bus phys traits)).Fresh calls
  | .unbind bus :: calls => β bus ≠ none ∧ (β.apply (.unbind bus)).Fresh calls
  | .flush :: calls => β.Fresh calls

/-- After the last call that binds or unbinds there is a flush. -/
def TableCall.Flushed (calls : List TableCall) : Prop :=
  ∀ last, calls.getLast? = some last → last = .flush

/-- The command takes out what the mapping of that name has loaded, if it has something. -/
def Command.Unloads (c : Command) (name : String) : Prop :=
  c = .act name .unload ∨ c = .act name .destroy

/-- The block is the first there is room for, with a page for each frame that a payload touches, in
the order in which it touches them. -/
structure Tag.Places (t : Tag) (m : Mapping) (p : Payload) (b : Block) (frames : List FrameNo) :
    Prop where
  touched : frames = Run.frames (t.memory.resolve p).runs
  resolved : p.IsPaged → frames = p.frames
  block : t.FirstOffer m frames.length b

namespace Ledger

/-- What a command calls. The cases exclude one another. -/
inductive Batch (w : Ledger) (c : Command) (d : Step) : List TableCall → Prop
  | bound {name : String} {p : Payload} {t : Tag} {m : Mapping} {l : Loaded}
      (hcommand : c = .act name (.load p))
      (hreply : d.reply = .done)
      (ht : w.session.tag = some t)
      (hm : w.session.mapping? name = some m)
      (hl : d.session.mapping? name = some { m with loaded := some l })
      (hplaces : t.Places m p l.block (Run.frames l.runs)) :
      Batch w c d (l.block.binds (Run.frames l.runs) m.limits.traits)
  | unwound {name : String} {p : Payload} {t : Tag} {m : Mapping} {b : Block}
      {frames : List FrameNo}
      (hcommand : c = .act name (.load p))
      (hreply : d.reply = .refused .tooManySegments)
      (ht : w.session.tag = some t)
      (hm : w.session.mapping? name = some m)
      (hplaces : t.Places m p b frames) :
      Batch w c d (b.binds frames m.limits.traits ++ b.unbinds frames)
  | unbound {name : String} {m : Mapping} {l : Loaded}
      (hcommand : c.Unloads name)
      (hm : w.session.mapping? name = some m)
      (hl : m.loaded = some l) :
      Batch w c d (l.block.unbinds (Run.frames l.runs))
  | silent
      (hload : ∀ name p, c = .act name (.load p) →
        d.reply ≠ .done ∧ d.reply ≠ .refused .tooManySegments)
      (hunload : ∀ name m, c.Unloads name → w.session.mapping? name = some m →
        m.loaded = none) :
      Batch w c d []

/-- The commands lead from one ledger to another, and each calls its batch. -/
inductive Batches : Ledger → List Command → List (List TableCall) → Ledger → Prop
  | nil {w : Ledger} : Batches w [] [] w
  | cons {w w' : Ledger} {c : Command} {cs : List Command} {d : Step} {calls : List TableCall}
      {batches : List (List TableCall)}
      (hstep : w.session.step c = .ok d)
      (hbatch : w.Batch c d calls)
      (hrest : Batches (w.after c d) cs batches w') :
      Batches w (c :: cs) (calls :: batches) w'

end Ledger

end Aperture
