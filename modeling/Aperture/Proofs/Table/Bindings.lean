import Aperture.Proofs.Frames.Laid

namespace Aperture

namespace Block

theorem Disjoint.not_holds {b c : Block} (h : b.Disjoint c) {a : BusAddr} (ha : b.Holds a) :
    ¬ c.Holds a := by
  intro hc
  unfold Disjoint at h
  unfold Holds at ha hc
  omega

variable {b : Block} {n k : Nat} {frames : List FrameNo}

theorem IsPages.holds_page (h : b.IsPages n) (hk : k < n) : b.Holds (b.page k) := by
  have hsize := h.size
  have hle : (k + 1) * pageSize ≤ n * pageSize := Nat.mul_le_mul_right _ hk
  rw [Nat.succ_mul] at hle
  unfold Holds stop
  rw [h.toNat_page hk]
  have hpage : 0 < pageSize := by decide
  omega

theorem IsPages.holds_layout (h : b.IsPages frames.length) {a : BusAddr} {p : PhysAddr}
    (hmem : (a, p) ∈ b.layout frames) : b.Holds a := by
  obtain ⟨k, f, hf, rfl, -⟩ := mem_layout.mp hmem
  exact h.holds_page (List.getElem?_eq_some_iff.mp hf).1

theorem IsPages.pageOffset_layout (h : b.IsPages frames.length) {a : BusAddr} {p : PhysAddr}
    (hmem : (a, p) ∈ b.layout frames) : a.pageOffset = 0 := by
  obtain ⟨k, f, hf, rfl, -⟩ := mem_layout.mp hmem
  exact h.pageOffset_page (List.getElem?_eq_some_iff.mp hf).1

end Block

namespace Bindings

theorem applyAll_append (β : Bindings) (cs ds : List TableCall) :
    β.applyAll (cs ++ ds) = (β.applyAll cs).applyAll ds := List.foldl_append

variable {β : Bindings} {l : List (BusAddr × PhysAddr)} {a : BusAddr} {p : PhysAddr}

theorem apply_bind_eq_some_iff {bus : BusAddr} {phys : PhysAddr} {traits : Traits} :
    β.apply (.bind bus phys traits) a = some p ↔ a = bus ∧ p = phys ∨ a ≠ bus ∧ β a = some p := by
  unfold apply
  by_cases h : a = bus
  · simp [h, eq_comm]
  · simp [h]

theorem apply_unbind_eq_some_iff {bus : BusAddr} :
    β.apply (.unbind bus) a = some p ↔ a ≠ bus ∧ β a = some p := by
  unfold apply
  by_cases h : a = bus <;> simp [h]

/-- After some pages are bound, each has what it was bound to, and the others what they had. -/
theorem applyAll_map_bind {traits : Traits} (hkeys : (l.map (·.1)).Nodup) :
    β.applyAll (l.map fun (bus, phys) => .bind bus phys traits) a = some p ↔
      (a, p) ∈ l ∨ a ∉ l.map (·.1) ∧ β a = some p := by
  induction l generalizing β with
  | nil => simp [applyAll]
  | cons x l ih =>
    obtain ⟨bus, phys⟩ := x
    obtain ⟨hnew, hrest⟩ := List.nodup_cons.mp hkeys
    have hstep := ih (β := β.apply (.bind bus phys traits)) hrest
    rw [apply_bind_eq_some_iff] at hstep
    refine hstep.trans ?_
    simp only [List.map_cons, List.mem_cons, Prod.mk.injEq, not_or]
    by_cases ha : a = bus
    · subst ha
      have hout (q : PhysAddr) : (a, q) ∉ l := fun hq => hnew (List.mem_map.mpr ⟨_, hq, rfl⟩)
      simp [hnew, hout]
    · simp [ha]

/-- After some pages are unbound they have nothing, and the others what they had. -/
theorem applyAll_map_unbind :
    β.applyAll (l.map fun (bus, _) => .unbind bus) a = some p ↔
      a ∉ l.map (·.1) ∧ β a = some p := by
  induction l generalizing β with
  | nil => simp [applyAll]
  | cons x l ih =>
    obtain ⟨bus, phys⟩ := x
    have hstep := ih (β := β.apply (.unbind bus))
    rw [apply_unbind_eq_some_iff] at hstep
    refine hstep.trans ?_
    simp only [List.map_cons, List.mem_cons, not_or, ne_eq]
    exact ⟨fun h => ⟨⟨h.2.1, h.1⟩, h.2.2⟩, fun h => ⟨h.1.2, h.1.1, h.2⟩⟩

section Layout

variable {b : Block} {frames : List FrameNo} {traits : Traits}

theorem applyAll_binds (hb : b.IsPages frames.length) :
    β.applyAll (b.binds frames traits) a = some p ↔
      (a, p) ∈ b.layout frames ∨ a ∉ (b.layout frames).map (·.1) ∧ β a = some p := by
  rw [Block.binds, applyAll_append]
  exact applyAll_map_bind hb.nodup_layout

theorem applyAll_unbinds :
    β.applyAll (b.unbinds frames) a = some p ↔
      a ∉ (b.layout frames).map (·.1) ∧ β a = some p := by
  rw [Block.unbinds, applyAll_append]
  exact applyAll_map_unbind

/-- Binding pages of which none was bound, and unbinding them again, changes nothing. -/
theorem applyAll_binds_unbinds (hb : b.IsPages frames.length)
    (hfree : ∀ a, b.Holds a → β a = none) :
    β.applyAll (b.binds frames traits ++ b.unbinds frames) = β := by
  funext a
  apply Option.ext
  intro p
  rw [applyAll_append, applyAll_unbinds, applyAll_binds hb]
  constructor
  · intro h
    obtain ⟨hout, hin | ⟨-, hold⟩⟩ := h
    · exact absurd (List.mem_map.mpr ⟨_, hin, rfl⟩) hout
    · exact hold
  · intro hold
    have hout : a ∉ (b.layout frames).map (·.1) := by
      intro hmem
      obtain ⟨⟨_, q⟩, hq, rfl⟩ := List.mem_map.mp hmem
      rw [hfree _ (hb.holds_layout hq)] at hold
      cases hold
    exact ⟨hout, .inr ⟨hout, hold⟩⟩

theorem exists_of_mem_binds {c : TableCall} (hc : c ∈ b.binds frames traits)
    (ha : c.bus? = some a) : ∃ p, (a, p) ∈ b.layout frames := by
  cases List.mem_append.mp hc with
  | inl hbind =>
    obtain ⟨⟨bus, phys⟩, hx, rfl⟩ := List.mem_map.mp hbind
    obtain rfl := Option.some.inj ha
    exact ⟨phys, hx⟩
  | inr hflush =>
    rw [List.mem_singleton.mp hflush] at ha
    cases ha

theorem exists_of_mem_unbinds {c : TableCall} (hc : c ∈ b.unbinds frames)
    (ha : c.bus? = some a) : ∃ p, (a, p) ∈ b.layout frames := by
  cases List.mem_append.mp hc with
  | inl hunbind =>
    obtain ⟨⟨bus, phys⟩, hx, rfl⟩ := List.mem_map.mp hunbind
    obtain rfl := Option.some.inj ha
    exact ⟨phys, hx⟩
  | inr hflush =>
    rw [List.mem_singleton.mp hflush] at ha
    cases ha

theorem holds_of_mem_binds (hb : b.IsPages frames.length) {c : TableCall}
    (hc : c ∈ b.binds frames traits) (ha : c.bus? = some a) : b.Holds a := by
  obtain ⟨p, hp⟩ := exists_of_mem_binds hc ha
  exact hb.holds_layout hp

theorem holds_of_mem_unbinds (hb : b.IsPages frames.length) {c : TableCall}
    (hc : c ∈ b.unbinds frames) (ha : c.bus? = some a) : b.Holds a := by
  obtain ⟨p, hp⟩ := exists_of_mem_unbinds hc ha
  exact hb.holds_layout hp

end Layout

end Bindings

end Aperture
