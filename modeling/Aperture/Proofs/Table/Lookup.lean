import Aperture.Proofs.Table.Entry
import Aperture.Table.Basic

namespace Aperture

namespace Table

variable {t : Table} {c : TableCall} {calls : List TableCall} {a bus : BusAddr}
  {i : Nat} {e : Entry}

@[simp] theorem aperture_apply (t : Table) (c : TableCall) : (t.apply c).aperture = t.aperture := by
  unfold apply
  split <;> rfl

@[simp] theorem scribble_apply (t : Table) (c : TableCall) : (t.apply c).scribble = t.scribble := by
  unfold apply
  split <;> rfl

@[simp] theorem size_entries_apply (t : Table) (c : TableCall) :
    (t.apply c).entries.size = t.entries.size := by
  unfold apply
  split
  · exact Array.size_setIfInBounds
  · rfl

theorem view_foldl {α κ : Type} {step : Table → κ → Table} (view : Table → α)
    (h : ∀ t c, view (step t c) = view t) (t : Table) (calls : List κ) :
    view (calls.foldl step t) = view t := by
  induction calls generalizing t with
  | nil => rfl
  | cons c calls ih => exact (ih (step t c)).trans (h t c)

theorem aperture_applyAll (t : Table) (calls : List TableCall) :
    (calls.foldl apply t).aperture = t.aperture :=
  view_foldl (·.aperture) aperture_apply t calls

theorem scribble_applyAll (t : Table) (calls : List TableCall) :
    (calls.foldl apply t).scribble = t.scribble :=
  view_foldl (·.scribble) scribble_apply t calls

theorem size_entries_applyAll (t : Table) (calls : List TableCall) :
    (calls.foldl apply t).entries.size = t.entries.size :=
  view_foldl (·.entries.size) size_entries_apply t calls

theorem Covers.congr {t' : Table} (h : t.Covers bus) (haperture : t'.aperture = t.aperture)
    (hsize : t'.entries.size = t.entries.size) : t'.Covers bus := by
  refine ⟨h.aligned, ?_, ?_⟩
  · rw [haperture]
    exact h.above
  · rw [haperture, hsize]
    exact h.below

/-- Pages of the aperture have their entries in order. -/
theorem position?_eq_some_iff (ht : t.aperture.pageOffset = 0) (ha : a.pageOffset = 0) :
    t.position? a = some i ↔
      a.word.toNat = t.aperture.word.toNat + i * pageSize ∧ i < t.entries.size := by
  have ht : t.aperture.word.toNat % 4096 = 0 := ht
  have ha : a.word.toNat % 4096 = 0 := ha
  unfold position? pageSize
  split
  · next h =>
    rw [BitVec.lt_def] at h
    exact ⟨nofun, fun h' => by omega⟩
  · next h =>
    rw [BitVec.lt_def] at h
    dsimp only
    split
    · rw [Option.some.injEq]
      omega
    · exact ⟨nofun, fun h' => by omega⟩

theorem Covers.exists_position? (ht : t.aperture.pageOffset = 0) (h : t.Covers a) :
    ∃ i, t.position? a = some i := by
  have habove := h.above
  have hbelow := h.below
  have hoffset : t.aperture.word.toNat % 4096 = 0 := ht
  have ha : a.word.toNat % 4096 = 0 := h.aligned
  refine ⟨(a.word.toNat - t.aperture.word.toNat) / 4096, ?_⟩
  rw [position?_eq_some_iff ht h.aligned]
  unfold pageSize at hbelow ⊢
  omega

theorem eq_of_position? (ht : t.aperture.pageOffset = 0) (ha : a.pageOffset = 0)
    (hbus : bus.pageOffset = 0) (hi : t.position? a = some i) (hj : t.position? bus = some i) :
    a = bus := by
  obtain ⟨hword, -⟩ := (position?_eq_some_iff ht ha).mp hi
  obtain ⟨hword', -⟩ := (position?_eq_some_iff ht hbus).mp hj
  exact congrArg Addr.mk (BitVec.eq_of_toNat_eq (hword.trans hword'.symm))

theorem entryAt?_eq (hi : t.position? a = some i) : t.entryAt? a = t.entries[i]? := by
  unfold entryAt?
  rw [hi]
  rfl

theorem entryAt?_write_self (ht : t.aperture.pageOffset = 0) (ha : a.pageOffset = 0)
    (hi : t.position? a = some i) : (t.write i e).entryAt? a = some e := by
  have hpos : (t.write i e).position? a = some i := (t.position?_write i e a).trans hi
  rw [entryAt?_eq hpos]
  obtain ⟨-, hlt⟩ := (position?_eq_some_iff ht ha).mp hi
  exact Array.getElem?_setIfInBounds_self_of_lt hlt

theorem entryAt?_write_of_ne (ht : t.aperture.pageOffset = 0) (ha : a.pageOffset = 0)
    (hbus : bus.pageOffset = 0) (hi : t.position? bus = some i) (hne : bus ≠ a) :
    (t.write i e).entryAt? a = t.entryAt? a := by
  cases hj : t.position? a with
  | none =>
    unfold entryAt?
    rw [t.position?_write i e a, hj]
    rfl
  | some j =>
    have hij : i ≠ j := fun he => hne (eq_of_position? ht hbus ha (he ▸ hi) hj)
    rw [entryAt?_eq ((t.position?_write i e a).trans hj), entryAt?_eq hj]
    exact Array.getElem?_setIfInBounds_ne hij

/-- A call writes in the entry of its page: the entry of another page, or the scribble entry. -/
theorem effect?_cases (h : t.effect? c = some (i, e)) :
    (∃ bus, c.bus? = some bus ∧ t.position? bus = some i) ∧
      (e = t.scribble ∨ ∃ phys coherent, Entry.ofPage? phys coherent = some e) := by
  cases c with
  | bind bus phys traits =>
    obtain ⟨j, hj, h⟩ := Option.bind_eq_some_iff.mp h
    obtain ⟨e', he', h⟩ := Option.bind_eq_some_iff.mp h
    obtain ⟨rfl, rfl⟩ := Prod.mk.inj (Option.some.inj h)
    exact ⟨⟨bus, rfl, hj⟩, .inr ⟨phys, _, he'⟩⟩
  | unbind bus =>
    obtain ⟨j, hj, h⟩ := Option.map_eq_some_iff.mp h
    obtain ⟨rfl, rfl⟩ := Prod.mk.inj h
    exact ⟨⟨bus, rfl, hj⟩, .inl rfl⟩
  | flush => cases h

theorem entryAt?_apply_of_ne (ht : t.aperture.pageOffset = 0) (ha : a.pageOffset = 0)
    (hc : ∀ bus, c.bus? = some bus → bus.pageOffset = 0) (hne : c.bus? ≠ some a) :
    (t.apply c).entryAt? a = t.entryAt? a := by
  unfold apply
  cases heffect : t.effect? c with
  | none => rfl
  | some written =>
    obtain ⟨i, e⟩ := written
    obtain ⟨⟨bus, hbus, hi⟩, -⟩ := effect?_cases heffect
    exact entryAt?_write_of_ne ht ha (hc bus hbus) hi fun he => hne (he ▸ hbus)

theorem entryAt?_applyAll_of_ne (ht : t.aperture.pageOffset = 0) (ha : a.pageOffset = 0)
    (hcalls : ∀ c ∈ calls, ∀ bus, c.bus? = some bus → bus.pageOffset = 0)
    (hne : ∀ c ∈ calls, c.bus? ≠ some a) : (calls.foldl apply t).entryAt? a = t.entryAt? a := by
  induction calls generalizing t with
  | nil => rfl
  | cons c calls ih =>
    have halign : (t.apply c).aperture.pageOffset = 0 := by rw [t.aperture_apply c, ht]
    have hrest := ih halign (fun c' hc' => hcalls c' (by simp [hc'])) fun c' hc' =>
      hne c' (by simp [hc'])
    exact hrest.trans (entryAt?_apply_of_ne ht ha (hcalls c (by simp)) (hne c (by simp)))

theorem entryAt?_apply_unbind (ht : t.aperture.pageOffset = 0) (ha : t.Covers a) :
    (t.apply (.unbind a)).entryAt? a = some t.scribble := by
  obtain ⟨i, hi⟩ := ha.exists_position? ht
  have hsome : t.effect? (.unbind a) = some (i, t.scribble) := by
    rw [effect?, hi]
    rfl
  rw [apply, hsome]
  exact entryAt?_write_self ht ha.aligned hi

theorem entryAt?_applyAll_unbind {l : List (BusAddr × PhysAddr)} {p : PhysAddr}
    (ht : t.aperture.pageOffset = 0) (ha : t.Covers a) (hl : ∀ x ∈ l, x.1.pageOffset = 0)
    (hkeys : (l.map (·.1)).Nodup) (hmem : (a, p) ∈ l) :
    ((l.map fun (bus, _) => TableCall.unbind bus).foldl apply t).entryAt? a =
      some t.scribble := by
  induction l generalizing t with
  | nil => cases hmem
  | cons x l ih =>
    obtain ⟨hnew, hrest⟩ := List.nodup_cons.mp hkeys
    have halign : (t.apply (.unbind x.1)).aperture.pageOffset = 0 := by rw [t.aperture_apply, ht]
    have haligned : ∀ y ∈ l, y.1.pageOffset = 0 := fun y hy => hl y (by simp [hy])
    cases List.mem_cons.mp hmem with
    | inl he =>
      subst he
      refine Eq.trans ?_ (entryAt?_apply_unbind ht ha)
      refine entryAt?_applyAll_of_ne halign ha.aligned (fun c hc bus hbus => ?_) fun c hc he => ?_
      · obtain ⟨y, hy, rfl⟩ := List.mem_map.mp hc
        obtain rfl := Option.some.inj hbus
        exact haligned y hy
      · obtain ⟨y, hy, rfl⟩ := List.mem_map.mp hc
        exact hnew (List.mem_map.mpr ⟨y, hy, Option.some.inj he⟩)
    | inr hin =>
      have hcovers : (t.apply (.unbind x.1)).Covers a :=
        ha.congr (t.aperture_apply _) (t.size_entries_apply _)
      have htail := ih halign hcovers haligned hrest hin
      rw [t.scribble_apply] at htail
      exact htail

theorem foldl_write (t : Table) (e : Entry) (n : Nat) :
    ∃ entries latest, (List.range n).foldl (fun t i => t.write i e) t =
        ⟨t.aperture, t.scribble, entries, latest⟩ ∧ entries.size = t.entries.size ∧
      ∀ i, i < n → i < t.entries.size → entries[i]? = some e := by
  induction n with
  | zero => exact ⟨t.entries, t.latest, rfl, rfl, nofun⟩
  | succ n ih =>
    obtain ⟨entries, latest, heq, hsize, hwritten⟩ := ih
    refine ⟨entries.setIfInBounds n e, n, ?_, ?_, fun i hi hlt => ?_⟩
    · rw [List.range_succ, List.foldl_append, heq]
      rfl
    · rw [Array.size_setIfInBounds, hsize]
    · by_cases hin : i = n
      · subst hin
        exact Array.getElem?_setIfInBounds_self_of_lt (hsize ▸ hlt)
      · rw [Array.getElem?_setIfInBounds_ne (Ne.symm hin)]
        exact hwritten i (by omega) hlt

/-- Scrubbing changes nothing but the entries, all of which become the scribble entry. -/
theorem scrub_eq (t : Table) :
    ∃ entries latest, t.scrub = ⟨t.aperture, t.scribble, entries, latest⟩ ∧
      entries.size = t.entries.size ∧ ∀ i, i < t.entries.size → entries[i]? = some t.scribble := by
  obtain ⟨entries, latest, heq, hsize, hwritten⟩ := t.foldl_write t.scribble t.entries.size
  have scribbled (t' : Table) (indices : List Nat) (h : t'.scribble = t.scribble) :
      indices.foldl (fun t i => t.write i t.scribble) t' =
        indices.foldl (fun t' i => t'.write i t.scribble) t' := by
    induction indices generalizing t' with
    | nil => rfl
    | cons i indices ih =>
      rw [List.foldl_cons, List.foldl_cons, h]
      exact ih (t'.write i t.scribble) h
  exact ⟨entries, latest, (scribbled t _ rfl).trans heq, hsize, fun i hi => hwritten i hi hi⟩

@[simp] theorem aperture_scrub (t : Table) : t.scrub.aperture = t.aperture := by
  obtain ⟨entries, latest, heq, -⟩ := t.scrub_eq
  rw [heq]

@[simp] theorem scribble_scrub (t : Table) : t.scrub.scribble = t.scribble := by
  obtain ⟨entries, latest, heq, -⟩ := t.scrub_eq
  rw [heq]

@[simp] theorem size_entries_scrub (t : Table) : t.scrub.entries.size = t.entries.size := by
  obtain ⟨entries, latest, heq, hsize, -⟩ := t.scrub_eq
  rw [heq]
  exact hsize

theorem getElem?_entries_scrub (hi : i < t.entries.size) :
    t.scrub.entries[i]? = some t.scribble := by
  obtain ⟨entries, latest, heq, -, hentries⟩ := t.scrub_eq
  rw [heq]
  exact hentries i hi

/-- The entries are valid, the scribble entry among them. -/
structure AllValid (t : Table) : Prop where
  scribble : t.scribble.isValid
  entries : ∀ (i : Nat) e, t.entries[i]? = some e → e.isValid

theorem AllValid.write (h : t.AllValid) (he : e.isValid) : (t.write i e).AllValid := by
  refine ⟨h.scribble, fun j e' hj => ?_⟩
  have hj : (t.entries.setIfInBounds i e)[j]? = some e' := hj
  rw [Array.getElem?_setIfInBounds] at hj
  split at hj
  · split at hj
    · exact Option.some.inj hj ▸ he
    · cases hj
  · exact h.entries j e' hj

theorem AllValid.apply (h : t.AllValid) (c : TableCall) : (t.apply c).AllValid := by
  unfold Table.apply
  cases heffect : t.effect? c with
  | none => exact h
  | some written =>
    obtain ⟨i, e⟩ := written
    obtain ⟨-, rfl | ⟨phys, coherent, he⟩⟩ := effect?_cases heffect
    · exact h.write h.scribble
    · exact h.write (Entry.isValid_of_ofPage? he)

theorem AllValid.applyAll (h : t.AllValid) (calls : List TableCall) :
    (calls.foldl Table.apply t).AllValid := by
  induction calls generalizing t with
  | nil => exact h
  | cons c calls ih => exact ih (h.apply c)

theorem allValid_scrub (h : t.scribble.isValid) : t.scrub.AllValid := by
  refine ⟨t.scribble_scrub ▸ h, fun i e he => ?_⟩
  have hlt := (Array.getElem?_eq_some_iff.mp he).1
  rw [getElem?_entries_scrub (t.size_entries_scrub ▸ hlt)] at he
  exact Option.some.inj he ▸ h

theorem AllValid.entryAt? (h : t.AllValid) (ht : t.aperture.pageOffset = 0) (ha : t.Covers a) :
    ∃ e, t.entryAt? a = some e ∧ e.isValid := by
  obtain ⟨i, hi⟩ := ha.exists_position? ht
  obtain ⟨-, hlt⟩ := (position?_eq_some_iff ht ha.aligned).mp hi
  have hget := Array.getElem?_eq_getElem hlt
  exact ⟨t.entries[i], (entryAt?_eq hi).trans hget, h.entries i _ hget⟩

/-- The scribble entry of a new table is that of a page that can be encoded. -/
theorem new_eq_ok {aperture : BusAddr} {scribblePage : PhysAddr} {entries : Array Entry}
    (h : new aperture scribblePage entries = .ok t) :
    t.aperture.pageOffset = 0 ∧ Entry.ofPage? scribblePage false = some t.scribble := by
  unfold new at h
  split at h
  · cases h
  · next haligned =>
    split at h
    · cases h
    · next hscribble =>
      obtain rfl := Except.ok.inj h
      exact ⟨not_not.mp haligned, hscribble⟩

end Table

end Aperture
