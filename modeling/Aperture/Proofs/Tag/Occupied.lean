import Aperture.Proofs.Table.Bindings
import Aperture.Proofs.Tag.Load

namespace Aperture

/-- The payloads take all blocks that are handed out, and what is bound is bound for them. -/
structure Occupied (pool : Pool) (β : Bindings) (ls : List Loaded) : Prop where
  wellFormed : pool.WellFormed
  blocks : (ls.map (·.block)).Perm pool.blocks
  fits : ∀ l ∈ ls, l.Fits
  bound : ∀ a p, β a = some p ↔ ∃ l ∈ ls, (a, p) ∈ l.layout

/-- Calls that leave no trace: none, or calls that bind pages of a free block and unbind them. -/
inductive Traceless (pool : Pool) : List TableCall → Prop
  | none : Traceless pool []
  | undone {b : Block} {frames : List FrameNo} (traits : Traits) (hvacant : pool.Vacant b)
      (hpages : b.IsPages frames.length) :
      Traceless pool (b.binds frames traits ++ b.unbinds frames)

namespace Tag.LoadEffect

variable {t : Tag} {m : Mapping} {p : Payload} {o : Outcome} {reason : Refusal}

theorem of_error (h : t.LoadEffect m p o) (herror : o.result = .error reason) :
    o.tag = t ∧ o.mapping = m := by
  cases h with
  | declined d ho =>
    rw [ho]
    exact ⟨rfl, rfl⟩
  | unwound b frames _ _ htag hmapping => exact ⟨htag, hmapping⟩
  | loaded l _ _ _ _ _ _ _ hresult =>
    rw [hresult] at herror
    cases herror

theorem traceless_of_error (h : t.LoadEffect m p o) (herror : o.result = .error reason) :
    Traceless t.pool (Event.tableCalls o.events) := by
  cases h with
  | declined d ho =>
    rw [ho, tableCalls_declined]
    exact .none
  | unwound b frames hvacant hpages _ _ _ hcalls =>
    rw [hcalls]
    exact .undone m.limits.traits hvacant hpages
  | loaded l _ _ _ _ _ _ _ hresult =>
    rw [hresult] at herror
    cases herror

end Tag.LoadEffect

namespace Occupied

variable {pool : Pool} {β : Bindings} {l : Loaded} {ls : List Loaded}

theorem perm {ls' : List Loaded} (h : Occupied pool β ls) (hp : ls.Perm ls') :
    Occupied pool β ls' := by
  refine ⟨h.wellFormed, ((hp.map _).symm.trans h.blocks), fun l hl => h.fits l (hp.mem_iff.mpr hl),
    ?_⟩
  intro a p
  simp only [h.bound, hp.mem_iff]

theorem block_mem (h : Occupied pool β ls) (hl : l ∈ ls) : l.block ∈ pool.blocks :=
  h.blocks.mem_iff.mp (List.mem_map.mpr ⟨l, hl, rfl⟩)

theorem pairwise_disjoint (h : Occupied pool β ls) :
    ls.Pairwise fun l l' => l.block.Disjoint l'.block := by
  have hblocks := h.wellFormed.pairwise_disjoint.perm h.blocks.symm fun hd => hd.symm
  exact List.pairwise_map.mp hblocks

theorem eq_none_of_vacant (h : Occupied pool β ls) {b : Block} (hb : pool.Vacant b) {a : BusAddr}
    (ha : b.Holds a) : β a = none := by
  cases hp : β a with
  | none => rfl
  | some p =>
    obtain ⟨l, hl, hmem⟩ := (h.bound a p).mp hp
    have hfits := h.fits l hl
    exact absurd (hfits.pages.holds_layout hmem) ((hb.free _ (h.block_mem hl)).not_holds ha)

/-- A payload that fits in a free block is bound there, beside the others. -/
theorem load (h : Occupied pool β ls) (hvacant : pool.Vacant l.block) (hl : l.Fits)
    (traits : Traits) :
    Occupied (pool.withBlocks (Pool.insert l.block pool.blocks))
      (β.applyAll (l.block.binds (Run.frames l.runs) traits)) (l :: ls) := by
  refine ⟨h.wellFormed.insert hvacant, ?_, ?_, ?_⟩
  · exact (h.blocks.cons l.block).trans (Pool.insert_perm l.block pool.blocks).symm
  · intro l' hl'
    cases List.mem_cons.mp hl' with
    | inl he => rw [he]; exact hl
    | inr hmem => exact h.fits l' hmem
  · intro a p
    rw [Bindings.applyAll_binds hl.pages, h.bound]
    constructor
    · intro hbound
      cases hbound with
      | inl hmem => exact ⟨l, by simp, hmem⟩
      | inr hold =>
        obtain ⟨-, l', hl', hmem⟩ := hold
        exact ⟨l', by simp [hl'], hmem⟩
    · intro hbound
      obtain ⟨l', hl', hmem⟩ := hbound
      cases List.mem_cons.mp hl' with
      | inl he => rw [he] at hmem; exact .inl hmem
      | inr hl' =>
        refine .inr ⟨?_, l', hl', hmem⟩
        intro hin
        obtain ⟨x, hx, rfl⟩ := List.mem_map.mp hin
        have hnone := h.eq_none_of_vacant hvacant (hl.pages.holds_layout hx)
        rw [(h.bound _ p).mpr ⟨l', hl', hmem⟩] at hnone
        cases hnone

/-- A payload that is taken out leaves the others as they are. -/
theorem unload (h : Occupied pool β (l :: ls)) :
    Occupied (pool.withBlocks (pool.blocks.erase l.block))
      (β.applyAll (l.block.unbinds (Run.frames l.runs))) ls := by
  have hl := h.fits l (by simp)
  have hdisjoint := (List.pairwise_cons.mp h.pairwise_disjoint).1
  refine ⟨h.wellFormed.erase l.block, ?_, fun l' hl' => h.fits l' (by simp [hl']), ?_⟩
  · have herase := h.blocks.erase l.block
    rw [List.map_cons, List.erase_cons_head] at herase
    exact herase
  · intro a p
    rw [Bindings.applyAll_unbinds, h.bound]
    constructor
    · intro hbound
      obtain ⟨hout, l', hl', hmem⟩ := hbound
      cases List.mem_cons.mp hl' with
      | inl he =>
        rw [he] at hmem
        exact absurd (List.mem_map.mpr ⟨_, hmem, rfl⟩) hout
      | inr hl' => exact ⟨l', hl', hmem⟩
    · intro hbound
      obtain ⟨l', hl', hmem⟩ := hbound
      refine ⟨?_, l', by simp [hl'], hmem⟩
      intro hin
      obtain ⟨x, hx, rfl⟩ := List.mem_map.mp hin
      have hfits := h.fits l' (by simp [hl'])
      exact (hdisjoint l' hl').not_holds (hl.pages.holds_layout hx) (hfits.pages.holds_layout hmem)

theorem applyAll_traceless (h : Occupied pool β ls) {calls : List TableCall}
    (hcalls : Traceless pool calls) : β.applyAll calls = β := by
  cases hcalls with
  | none => rfl
  | undone traits hvacant hpages =>
    exact Bindings.applyAll_binds_unbinds hpages fun _ ha => h.eq_none_of_vacant hvacant ha

theorem not_holds_of_vacant (h : Occupied pool β ls) {b : Block} (hb : pool.Vacant b) {a : BusAddr}
    (ha : b.Holds a) (hl : l ∈ ls) : ¬ l.block.Holds a :=
  (hb.free _ (h.block_mem hl)).not_holds ha

theorem not_holds_of_traceless (h : Occupied pool β ls) {calls : List TableCall}
    (hcalls : Traceless pool calls) {call : TableCall} (hcall : call ∈ calls) {a : BusAddr}
    (ha : call.bus? = some a) (hl : l ∈ ls) : ¬ l.block.Holds a := by
  cases hcalls with
  | none => cases hcall
  | undone traits hvacant hpages =>
    refine h.not_holds_of_vacant hvacant ?_ hl
    cases List.mem_append.mp hcall with
    | inl hbind => exact Bindings.holds_of_mem_binds hpages hbind ha
    | inr hunbind => exact Bindings.holds_of_mem_unbinds hpages hunbind ha

end Occupied

end Aperture
