import Aperture.Proofs.Table.Bindings
import Aperture.Proofs.Table.Fresh
import Aperture.Proofs.Table.Lookup

namespace Aperture

/-- The physical page behind each bus page that is bound, and the traits it is bound with. -/
abbrev Wiring := BusAddr → Option (PhysAddr × Traits)

namespace Wiring

def empty : Wiring := fun _ => none

def apply (γ : Wiring) : TableCall → Wiring
  | .bind bus phys traits => fun a => if a = bus then some (phys, traits) else γ a
  | .unbind bus => fun a => if a = bus then none else γ a
  | .flush => γ

def applyAll (γ : Wiring) (calls : List TableCall) : Wiring := calls.foldl apply γ

def bindings (γ : Wiring) : Bindings := fun a => (γ a).map (·.1)

variable {γ : Wiring} {calls : List TableCall} {c : TableCall} {a : BusAddr}

theorem applyAll_append (γ : Wiring) (cs ds : List TableCall) :
    γ.applyAll (cs ++ ds) = (γ.applyAll cs).applyAll ds := List.foldl_append

theorem bindings_apply (γ : Wiring) (c : TableCall) :
    (γ.apply c).bindings = γ.bindings.apply c := by
  cases c with
  | bind bus phys traits =>
    funext a
    unfold bindings apply Bindings.apply
    by_cases h : a = bus <;> simp [h]
  | unbind bus =>
    funext a
    unfold bindings apply Bindings.apply
    by_cases h : a = bus <;> simp [h]
  | flush => rfl

theorem bindings_applyAll (γ : Wiring) (calls : List TableCall) :
    (γ.applyAll calls).bindings = γ.bindings.applyAll calls := by
  induction calls generalizing γ with
  | nil => rfl
  | cons c calls ih =>
    have hrest := ih (γ.apply c)
    rw [bindings_apply] at hrest
    exact hrest

theorem apply_bind_self {p : PhysAddr} {traits : Traits} :
    γ.apply (.bind a p traits) a = some (p, traits) := if_pos rfl

theorem apply_unbind_self : γ.apply (.unbind a) a = none := if_pos rfl

theorem apply_of_ne (h : c.bus? ≠ some a) : γ.apply c a = γ a := by
  cases c with
  | bind bus phys traits => exact if_neg fun he => h (congrArg some he.symm)
  | unbind bus => exact if_neg fun he => h (congrArg some he.symm)
  | flush => rfl

theorem applyAll_of_ne (h : ∀ c ∈ calls, c.bus? ≠ some a) : γ.applyAll calls a = γ a := by
  induction calls generalizing γ with
  | nil => rfl
  | cons c calls ih =>
    have hrest := ih (γ := γ.apply c) fun c' hc' => h c' (by simp [hc'])
    exact hrest.trans (apply_of_ne (h c (by simp)))

theorem applyAll_map_bind {l : List (BusAddr × PhysAddr)} {traits : Traits} {p : PhysAddr}
    (hkeys : (l.map (·.1)).Nodup) (hmem : (a, p) ∈ l) :
    γ.applyAll (l.map fun (bus, phys) => .bind bus phys traits) a = some (p, traits) := by
  induction l generalizing γ with
  | nil => cases hmem
  | cons x l ih =>
    obtain ⟨hnew, hrest⟩ := List.nodup_cons.mp hkeys
    cases List.mem_cons.mp hmem with
    | inl he =>
      subst he
      -- the other pages differ from the first, so what it was bound to stays
      have hothers (c : TableCall) (hc : c ∈ l.map fun (bus, phys) => .bind bus phys traits) :
          c.bus? ≠ some a := by
        obtain ⟨y, hy, rfl⟩ := List.mem_map.mp hc
        exact fun he => hnew (List.mem_map.mpr ⟨y, hy, Option.some.inj he⟩)
      exact (applyAll_of_ne hothers).trans apply_bind_self
    | inr hin => exact ih hrest hin

theorem applyAll_binds {b : Block} {frames : List FrameNo} {traits : Traits} {p : PhysAddr}
    (hb : b.IsPages frames.length) (hmem : (a, p) ∈ b.layout frames) :
    γ.applyAll (b.binds frames traits) a = some (p, traits) := by
  rw [Block.binds, applyAll_append]
  exact applyAll_map_bind hb.nodup_layout hmem

end Wiring

/-- What an entry is for a page that is bound like this; `scribble` stands in for nothing, and for a
frame that has no entry. -/
def Entry.forPage (scribble : Entry) : Option (PhysAddr × Traits) → Entry
  | none => scribble
  | some (p, traits) => (ofPage? p traits.coherent).getD scribble

theorem Entry.isValid_forPage {scribble : Entry} (h : scribble.isValid)
    (x : Option (PhysAddr × Traits)) : (scribble.forPage x).isValid := by
  cases x with
  | none => exact h
  | some y =>
    obtain ⟨p, traits⟩ := y
    cases he : ofPage? p traits.coherent with
    | none =>
      rw [forPage, he]
      exact h
    | some e =>
      rw [forPage, he]
      exact isValid_of_ofPage? he

/-- A page that is bound to a frame has the frame's entry, unless the frame lies too high for it. -/
theorem Entry.forPage_cases (scribble : Entry) (f : FrameNo) (traits : Traits) :
    f.base.word.toNat < 2 ^ addressBits ∧
        scribble.forPage (some (f.base, traits)) = encode f.base traits.coherent ∨
      2 ^ addressBits ≤ f.base.word.toNat ∧
        scribble.forPage (some (f.base, traits)) = scribble := by
  rcases Nat.lt_or_ge f.base.word.toNat (2 ^ addressBits) with hlt | hge
  · refine .inl ⟨hlt, ?_⟩
    rw [forPage, ofPage?_eq_some_iff.mpr ⟨f.pageOffset_base, hlt, rfl⟩]
    rfl
  · refine .inr ⟨hge, ?_⟩
    rw [forPage, ofPage?_base_eq_none_iff.mpr hge]
    rfl

namespace Table

variable {t : Table} {γ : Wiring} {c : TableCall} {calls : List TableCall} {a : BusAddr}

/-- The table is aligned, and each of its entries is that of its page in the wiring. -/
structure Shows (t : Table) (γ : Wiring) : Prop where
  aligned : t.aperture.pageOffset = 0
  entry : ∀ a, t.Covers a → t.entryAt? a = some (t.scribble.forPage (γ a))

theorem Shows.apply_bind {phys : PhysAddr} {traits : Traits} (h : t.Shows γ)
    (hcovers : t.Covers a) (hfree : γ a = none) :
    (t.apply (.bind a phys traits)).entryAt? a =
      some (t.scribble.forPage (some (phys, traits))) := by
  obtain ⟨i, hi⟩ := hcovers.exists_position? h.aligned
  cases he : Entry.ofPage? phys traits.coherent with
  | none =>
    -- the call is ignored, and the page keeps the scribble entry that it had
    have hnone : t.effect? (.bind a phys traits) = none := by
      rw [effect?, hi, he]
      rfl
    rw [Table.apply, hnone, h.entry a hcovers, hfree, Entry.forPage, Entry.forPage, he]
    rfl
  | some e =>
    have hsome : t.effect? (.bind a phys traits) = some (i, e) := by
      rw [effect?, hi, he]
      rfl
    rw [Table.apply, hsome, Entry.forPage, he]
    exact entryAt?_write_self h.aligned hcovers.aligned hi

/-- The step lemma: a call on a page keeps the table in line with the wiring, if it does not bind
the page a second time. -/
theorem Shows.apply (h : t.Shows γ) (hc : ∀ bus, c.bus? = some bus → bus.pageOffset = 0)
    (hfresh : γ.bindings.Fresh [c]) : (t.apply c).Shows (γ.apply c) := by
  refine ⟨(congrArg Addr.pageOffset (t.aperture_apply c)).trans h.aligned, fun a ha => ?_⟩
  have hcovers : t.Covers a :=
    ha.congr (t.aperture_apply c).symm (t.size_entries_apply c).symm
  rw [scribble_apply]
  by_cases hne : c.bus? = some a
  · cases c with
    | bind bus phys traits =>
      obtain rfl := Option.some.inj hne
      have hfree : γ bus = none := Option.map_eq_none_iff.mp hfresh.1
      rw [h.apply_bind hcovers hfree, Wiring.apply_bind_self]
    | unbind bus =>
      obtain rfl := Option.some.inj hne
      rw [entryAt?_apply_unbind h.aligned hcovers, Wiring.apply_unbind_self]
      rfl
    | flush => cases hne
  · rw [entryAt?_apply_of_ne h.aligned hcovers.aligned hc hne, Wiring.apply_of_ne hne]
    exact h.entry a hcovers

/-- The run lemma: fresh calls keep the table in line with the wiring. -/
theorem Shows.applyAll (h : t.Shows γ)
    (hcalls : ∀ c ∈ calls, ∀ bus, c.bus? = some bus → bus.pageOffset = 0)
    (hfresh : γ.bindings.Fresh calls) : (calls.foldl Table.apply t).Shows (γ.applyAll calls) := by
  induction calls generalizing t γ with
  | nil => exact h
  | cons c calls ih =>
    have hparts : γ.bindings.Fresh [c] ∧ (γ.bindings.apply c).Fresh calls :=
      Bindings.fresh_append.mp hfresh
    obtain ⟨hfirst, hrest⟩ := hparts
    have hnext := h.apply (hcalls c (by simp)) hfirst
    refine ih hnext (fun c' hc' => hcalls c' (by simp [hc'])) ?_
    rw [Wiring.bindings_apply]
    exact hrest

theorem shows_scrub (ht : t.aperture.pageOffset = 0) : t.scrub.Shows Wiring.empty := by
  refine ⟨(congrArg Addr.pageOffset t.aperture_scrub).trans ht, fun a ha => ?_⟩
  obtain ⟨i, hi⟩ := ha.exists_position? ((congrArg Addr.pageOffset t.aperture_scrub).trans ht)
  rw [entryAt?_eq hi, scribble_scrub]
  refine getElem?_entries_scrub ?_
  rw [← size_entries_scrub]
  exact ((position?_eq_some_iff ((congrArg Addr.pageOffset t.aperture_scrub).trans ht)
    ha.aligned).mp hi).2

end Table

end Aperture
