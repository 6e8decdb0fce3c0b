import Aperture.Batch
import Aperture.Proofs.Tag.Occupied

namespace Aperture

namespace Bindings

variable {β : Bindings} {l : List (BusAddr × PhysAddr)} {traits : Traits}

theorem fresh_append {cs ds : List TableCall} :
    β.Fresh (cs ++ ds) ↔ β.Fresh cs ∧ (β.applyAll cs).Fresh ds := by
  induction cs generalizing β with
  | nil => simp [Fresh, applyAll]
  | cons c cs ih => cases c <;> simp [Fresh, applyAll, ih, and_assoc, apply]

/-- Different pages of which none is bound can be bound one after another. -/
theorem fresh_map_bind (hkeys : (l.map (·.1)).Nodup) (hfree : ∀ x ∈ l, β x.1 = none) :
    β.Fresh (l.map fun (bus, phys) => .bind bus phys traits) := by
  induction l generalizing β with
  | nil => trivial
  | cons x l ih =>
    obtain ⟨hnew, hrest⟩ := List.nodup_cons.mp hkeys
    refine ⟨hfree x (by simp), ih hrest fun y hy => ?_⟩
    have hne : y.1 ≠ x.1 := fun he => hnew (List.mem_map.mpr ⟨y, hy, he⟩)
    exact (if_neg hne).trans (hfree y (by simp [hy]))

theorem fresh_map_unbind (hkeys : (l.map (·.1)).Nodup) (hbound : ∀ x ∈ l, β x.1 ≠ none) :
    β.Fresh (l.map fun (bus, _) => .unbind bus) := by
  induction l generalizing β with
  | nil => trivial
  | cons x l ih =>
    obtain ⟨hnew, hrest⟩ := List.nodup_cons.mp hkeys
    refine ⟨hbound x (by simp), ih hrest fun y hy => ?_⟩
    have hne : y.1 ≠ x.1 := fun he => hnew (List.mem_map.mpr ⟨y, hy, he⟩)
    exact fun hnone => hbound y (by simp [hy]) ((if_neg hne).symm.trans hnone)

section Layout

variable {b : Block} {frames : List FrameNo}

theorem fresh_binds (hb : b.IsPages frames.length) (hfree : ∀ a, b.Holds a → β a = none) :
    β.Fresh (b.binds frames traits) :=
  fresh_append.mpr ⟨fresh_map_bind hb.nodup_layout fun _ hx => hfree _ (hb.holds_layout hx),
    trivial⟩

theorem fresh_unbinds (hb : b.IsPages frames.length)
    (hbound : ∀ a p, (a, p) ∈ b.layout frames → β a = some p) : β.Fresh (b.unbinds frames) := by
  refine fresh_append.mpr ⟨fresh_map_unbind hb.nodup_layout fun x hx => ?_, trivial⟩
  rw [hbound x.1 x.2 hx]
  exact Option.some_ne_none _

end Layout

end Bindings

namespace Occupied

variable {pool : Pool} {β : Bindings} {l : Loaded} {ls : List Loaded}

theorem fresh_binds (h : Occupied pool β ls) {b : Block} {frames : List FrameNo}
    (hvacant : pool.Vacant b) (hb : b.IsPages frames.length) (traits : Traits) :
    β.Fresh (b.binds frames traits) :=
  Bindings.fresh_binds hb fun _ ha => h.eq_none_of_vacant hvacant ha

theorem fresh_unbinds (h : Occupied pool β ls) (hl : l ∈ ls) :
    β.Fresh (l.block.unbinds (Run.frames l.runs)) :=
  Bindings.fresh_unbinds (h.fits l hl).pages fun a p hmem => (h.bound a p).mpr ⟨l, hl, hmem⟩

/-- What was just bound in a free block can be unbound again. -/
theorem fresh_traceless (h : Occupied pool β ls) {calls : List TableCall}
    (hcalls : Traceless pool calls) : β.Fresh calls := by
  cases hcalls with
  | none => trivial
  | undone traits hvacant hpages =>
    refine Bindings.fresh_append.mpr ⟨h.fresh_binds hvacant hpages traits, ?_⟩
    exact Bindings.fresh_unbinds hpages fun a p hmem =>
      (Bindings.applyAll_binds hpages).mpr (.inl hmem)

end Occupied

end Aperture
