import Aperture.Frames.Arena
import Aperture.Ledger

namespace Aperture

/-- The table is aligned, and pages that are not bound have the scribble entry. -/
structure Table.IdleBeyond (t : Table) (β : Bindings) : Prop where
  aligned : t.aperture.pageOffset = 0
  idle : ∀ a, t.Covers a → β a = none → t.entryAt? a = some t.scribble

/-- The later ledger `w'` is as `w` was, to all who look at its tag, its mappings, what is bound or
the entries of its table. -/
structure Ledger.Restored (w w' : Ledger) : Prop where
  tag : w'.session.tag = w.session.tag
  mapping : ∀ name, w'.session.mapping? name = w.session.mapping? name
  bindings : w'.bindings = w.bindings
  table : ∀ t, w.session.table = some t → t.IdleBeyond w.bindings →
    ∃ t', w'.session.table = some t' ∧ ∀ a, t.Covers a → t'.entryAt? a = t.entryAt? a

/-- The arena, cleared and used once more, comes to hold the frames of the payload in their order,
finds each of them, and has their pages. -/
def Arena.Reholds (a : Arena) (l : Loaded) : Prop :=
  ∃ recorded bound, a.clear.record l.runs = .ok recorded ∧
    recorded.assign (Addr.pageNo ⟨l.block.start⟩) = .ok bound ∧
    bound.live = l.frames.toList ∧ ∀ f, bound.find? f = l.frames.find? f

end Aperture
