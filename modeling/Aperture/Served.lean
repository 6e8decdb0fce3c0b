import Aperture.Layout
import Aperture.Ledger

namespace Aperture

/-- The page at `bus` is the one for the frame `f` of what is loaded in the mapping: the first page
of the block is for the first frame that is touched, and so on. -/
def Mapping.Serves (m : Mapping) (bus : BusAddr) (f : FrameNo) : Prop :=
  ∃ l k, m.loaded = some l ∧ (Run.frames l.runs)[k]? = some f ∧
    bus.word.toNat = l.block.start.toNat + k * pageSize

/-- The entry is right for the page at `bus`: it is that of the frame that one of the mappings has
there, if the frame has an entry, and otherwise the scribble entry. So it is valid, points at the
frame, and is snooped just for the frames of coherent mappings. Frames above the first 36 bits of
memory have no entry: they alone are left out where the entry has to point at the frame, as their
pages keep the scribble entry, which is not snooped. -/
structure Entry.IsFor (e scribble : Entry) (mappings : List Mapping) (bus : BusAddr) : Prop where
  valid : e.isValid
  served : ∀ m ∈ mappings, ∀ f, m.Serves bus f →
    e = (ofPage? f.base m.limits.traits.coherent).getD scribble ∧
      (f.base.word.toNat < 2 ^ addressBits → e.address? = some f.base)
  unserved : (∀ m ∈ mappings, ∀ f, ¬ m.Serves bus f) → e = scribble
  snooped : e.isSnooped ↔ ∃ m ∈ mappings, ∃ f, m.Serves bus f ∧ e.address? = some f.base ∧
    m.limits.traits.coherent

/-- The mapping that a command takes out of the session without ending it. -/
def Session.forsaken (s : Session) (c : Command) (d : Step) : Option Mapping :=
  match c, d.reply with
  | .create name _, .capacity _ => s.mapping? name
  | .drop name, .done => s.mapping? name
  | _, _ => none

/-- The mappings that some commands take out of the session without ending them. -/
def Ledger.forgotten (w : Ledger) : List Command → List Mapping
  | [] => []
  | c :: cs =>
    match w.session.step c with
    | .error _ => []
    | .ok d => (w.after c d).forgotten cs ++ (w.session.forsaken c d).toList

end Aperture
