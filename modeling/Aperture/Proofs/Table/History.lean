import Aperture.Proofs.Table.Lookup
import Aperture.Table.History

namespace Aperture

namespace Table

variable {t : Table} {c : TableCall} {cs : List Call} {aperture bus : BusAddr} {phys : PhysAddr}
  {traits : Traits} {scribble e : Entry} {i j : Nat}

theorem Call.writes?_bind_eq_some_iff :
    (make (.bind bus phys traits)).writes? aperture scribble i = some e ↔
      bus.OnPage aperture i ∧ Entry.ofPage? phys traits.coherent = some e := by
  show (if _ then some _ else none) = some e ↔ _
  rw [Option.ite_none_right_eq_some, Option.some.injEq, Entry.ofPage?_eq_some_iff, eq_comm,
    and_assoc]
  exact and_congr_right fun _ => and_assoc

theorem Call.writes?_unbind_eq_some_iff :
    (make (.unbind bus)).writes? aperture scribble i = some e ↔
      bus.OnPage aperture i ∧ scribble = e := by
  show (if _ then some _ else none) = some e ↔ _
  rw [Option.ite_none_right_eq_some, Option.some.injEq]

theorem position?_eq_some_iff_onPage :
    t.position? bus = some i ↔ bus.OnPage t.aperture i ∧ i < t.entries.size := by
  unfold position? Addr.OnPage pageSize
  split
  · next h =>
    rw [BitVec.lt_def] at h
    exact ⟨nofun, fun h' => by omega⟩
  · next h =>
    rw [BitVec.lt_def] at h
    dsimp only
    split
    · rw [Option.some.injEq]
      omega
    · exact ⟨nofun, fun h' => by omega⟩

/-- The effect of a call is what it writes, where that is in the table. -/
theorem effect?_eq_some_iff : t.effect? c = some (i, e) ↔
    (Call.make c).writes? t.aperture t.scribble i = some e ∧ i < t.entries.size := by
  cases c with
  | bind bus phys traits =>
    have heffect : t.effect? (.bind bus phys traits) = some (i, e) ↔
        t.position? bus = some i ∧ Entry.ofPage? phys traits.coherent = some e := by
      unfold effect?
      simp [Option.bind_eq_some_iff]
    rw [heffect, position?_eq_some_iff_onPage, Call.writes?_bind_eq_some_iff]
    exact and_right_comm
  | unbind bus =>
    have heffect : t.effect? (.unbind bus) = some (i, e) ↔
        t.position? bus = some i ∧ t.scribble = e := by
      show (t.position? bus).map (·, t.scribble) = _ ↔ _
      cases t.position? bus <;> simp
    rw [heffect, position?_eq_some_iff_onPage, Call.writes?_unbind_eq_some_iff]
    exact and_right_comm
  | flush => exact ⟨nofun, fun h => by cases h.1⟩

theorem writes?_of_effect? (h : t.effect? c = some (j, e)) (hi : i < t.entries.size) :
    (Call.make c).writes? t.aperture t.scribble i = if j = i then some e else none := by
  split
  · next hij =>
    subst hij
    exact (effect?_eq_some_iff.mp h).1
  · next hij =>
    refine Option.eq_none_iff_forall_ne_some.mpr fun e' he' => hij ?_
    have heffect := effect?_eq_some_iff.mpr ⟨he', hi⟩
    exact congrArg Prod.fst (Option.some.inj (h.symm.trans heffect))

theorem writes?_of_no_effect? (h : t.effect? c = none) (hi : i < t.entries.size) :
    (Call.make c).writes? t.aperture t.scribble i = none := by
  refine Option.eq_none_iff_forall_ne_some.mpr fun e he => ?_
  cases h.symm.trans (effect?_eq_some_iff.mpr ⟨he, hi⟩)

/-- The step lemma: a call leaves at each position what it writes there, or else what was there. -/
theorem getElem?_carryOut (c : Call) (hi : t.entries[i]? = some e) :
    (t.carryOut c).entries[i]? = some ((c.writes? t.aperture t.scribble i).getD e) := by
  have hlt := (Array.getElem?_eq_some_iff.mp hi).1
  cases c with
  | scrub => exact getElem?_entries_scrub hlt
  | make c =>
    show (t.apply c).entries[i]? = _
    unfold apply
    cases heffect : t.effect? c with
    | none => rw [writes?_of_no_effect? heffect hlt, Option.getD_none, hi]
    | some written =>
      obtain ⟨j, e'⟩ := written
      have hj := (effect?_eq_some_iff.mp heffect).2
      rw [writes?_of_effect? heffect hlt]
      show (t.entries.setIfInBounds j e')[i]? = _
      rw [Array.getElem?_setIfInBounds, if_pos hj, hi]
      split <;> rfl

theorem aperture_carryOut (t : Table) (c : Call) : (t.carryOut c).aperture = t.aperture := by
  cases c with
  | make c => exact t.aperture_apply c
  | scrub => exact t.aperture_scrub

theorem scribble_carryOut (t : Table) (c : Call) : (t.carryOut c).scribble = t.scribble := by
  cases c with
  | make c => exact t.scribble_apply c
  | scrub => exact t.scribble_scrub

theorem size_entries_carryOut (t : Table) (c : Call) :
    (t.carryOut c).entries.size = t.entries.size := by
  cases c with
  | make c => exact t.size_entries_apply c
  | scrub => exact t.size_entries_scrub

theorem latest_foldl_write {indices : List Nat} {n : Nat} (h : ∀ i ∈ indices, i < n)
    (hlatest : t.latest < n) :
    (indices.foldl (fun t i => t.write i t.scribble) t).latest < n := by
  induction indices generalizing t with
  | nil => exact hlatest
  | cons i indices ih =>
    exact ih (t := t.write i t.scribble) (fun j hj => h j (by simp [hj])) (h i (by simp))

theorem latest_carryOut (c : Call) (h : t.latest < t.entries.size) :
    (t.carryOut c).latest < t.entries.size := by
  cases c with
  | scrub => exact latest_foldl_write (fun i hi => List.mem_range.mp hi) h
  | make c =>
    show (t.apply c).latest < _
    unfold apply
    cases heffect : t.effect? c with
    | none => exact h
    | some written => exact (effect?_eq_some_iff.mp heffect).2

theorem apply_bind_of_not_encodable (h : ¬ phys.IsEncodable) :
    t.apply (.bind bus phys traits) = t := by
  have hnone : t.effect? (.bind bus phys traits) = none := by
    refine Option.eq_none_iff_forall_ne_some.mpr fun written hwritten => h ?_
    have hencoded := (Call.writes?_bind_eq_some_iff.mp (effect?_eq_some_iff.mp hwritten).1).2
    obtain ⟨hpage, hlow, -⟩ := Entry.ofPage?_eq_some_iff.mp hencoded
    exact ⟨hpage, hlow⟩
  unfold apply
  rw [hnone]

theorem apply_of_outside (hbus : c.bus? = some bus)
    (h : bus.word.toNat < t.aperture.word.toNat ∨
      t.aperture.word.toNat + t.entries.size * pageSize ≤ bus.word.toNat) : t.apply c = t := by
  have hnone : t.effect? c = none := by
    refine Option.eq_none_iff_forall_ne_some.mpr fun written hwritten => ?_
    obtain ⟨⟨bus', hbus', hposition⟩, -⟩ := effect?_cases hwritten
    obtain rfl := Option.some.inj (hbus.symm.trans hbus')
    obtain ⟨⟨habove, hbelow⟩, hlt⟩ := position?_eq_some_iff_onPage.mp hposition
    have hle : (written.1 + 1) * pageSize ≤ t.entries.size * pageSize :=
      Nat.mul_le_mul_right pageSize hlt
    omega
  unfold apply
  rw [hnone]

/-- No call changes more than one entry. -/
theorem exists_getElem?_apply (t : Table) (c : TableCall) :
    ∃ i : Nat, ∀ j : Nat, j ≠ i → (t.apply c).entries[j]? = t.entries[j]? := by
  unfold apply
  cases t.effect? c with
  | none => exact ⟨0, fun j _ => rfl⟩
  | some written =>
    exact ⟨written.1, fun j hj => Array.getElem?_setIfInBounds_ne (Ne.symm hj)⟩

/-- The run lemma: at each position is what was written there last. -/
theorem getElem?_runAll (cs : List Call) (hi : t.entries[i]? = some e) :
    (t.runAll cs).entries[i]? = some (lastWritten t.aperture t.scribble i e cs) := by
  induction cs generalizing t e with
  | nil => exact hi
  | cons c cs ih =>
    have hrest := ih (getElem?_carryOut c hi)
    rw [aperture_carryOut, scribble_carryOut] at hrest
    refine hrest.trans (congrArg some ?_)
    unfold lastWritten
    rw [List.filterMap_cons]
    cases c.writes? t.aperture t.scribble i with
    | none => rfl
    | some e' => exact List.getLastD_cons.symm

theorem size_entries_runAll (t : Table) (cs : List Call) :
    (t.runAll cs).entries.size = t.entries.size :=
  view_foldl (·.entries.size) size_entries_carryOut t cs

theorem latest_runAll (cs : List Call) (h : t.latest < t.entries.size) :
    (t.runAll cs).latest < t.entries.size := by
  induction cs generalizing t with
  | nil => exact h
  | cons c cs ih =>
    have hsize := t.size_entries_carryOut c
    exact hsize ▸ ih (hsize.symm ▸ latest_carryOut c h)

theorem fields_of_new {scribblePage : PhysAddr} {words : Array Entry}
    (h : Table.new aperture scribblePage words = .ok t) :
    t.aperture = aperture ∧ t.entries = words ∧ t.latest = 0 := by
  unfold new at h
  split at h
  · cases h
  · split at h
    · cases h
    · obtain rfl := Except.ok.inj h
      exact ⟨rfl, rfl, rfl⟩

/-- After any calls on a new table each entry is what was written there last: that of the page that
was bound, the scribble entry where a page was unbound or all were scrubbed, and what was there at
first if nothing was written. Calls outside the aperture, and those that bind what cannot be
encoded, are ignored, no call changes more than one entry, and a flush has an entry to read. -/
theorem entries_after_calls {scribblePage : PhysAddr} {words : Array Entry}
    (h : Table.new aperture scribblePage words = .ok t) (cs : List Call) :
    Entry.ofPage? scribblePage false = some t.scribble ∧
    (t.runAll cs).entries.size = words.size ∧
    (∀ (i : Nat) e, words[i]? = some e →
      (t.runAll cs).entries[i]? = some (lastWritten aperture t.scribble i e cs)) ∧
    (∀ c bus, c.bus? = some bus → bus.word.toNat < aperture.word.toNat ∨
      aperture.word.toNat + words.size * pageSize ≤ bus.word.toNat →
      (t.runAll cs).apply c = t.runAll cs) ∧
    (∀ bus phys traits, ¬ phys.IsEncodable →
      (t.runAll cs).apply (.bind bus phys traits) = t.runAll cs) ∧
    (∀ c, ∃ i : Nat, ∀ j : Nat, j ≠ i →
      ((t.runAll cs).apply c).entries[j]? = (t.runAll cs).entries[j]?) ∧
    (words.size ≠ 0 → (t.runAll cs).latest < words.size ∧
      ∃ e, (t.runAll cs).readBack? = some e) := by
  obtain ⟨-, hscribble⟩ := new_eq_ok h
  obtain ⟨haperture, hentries, hlatest⟩ := fields_of_new h
  have haperture' : (t.runAll cs).aperture = aperture :=
    (view_foldl (·.aperture) aperture_carryOut t cs).trans haperture
  have hsize : (t.runAll cs).entries.size = words.size :=
    (t.size_entries_runAll cs).trans (congrArg Array.size hentries)
  refine ⟨hscribble, hsize, fun i e he => ?_, fun c bus hbus hout => ?_,
    fun bus phys traits hphys => apply_bind_of_not_encodable hphys,
    fun c => exists_getElem?_apply _ c, fun hpos => ?_⟩
  · rw [← haperture]
    exact getElem?_runAll cs (hentries ▸ he)
  · refine apply_of_outside hbus ?_
    rw [haperture', hsize]
    exact hout
  · have hlt : (t.runAll cs).latest < words.size := by
      rw [← hentries] at hpos ⊢
      exact latest_runAll cs (hlatest ▸ Nat.pos_of_ne_zero hpos)
    exact ⟨hlt, _, Array.getElem?_eq_getElem (hsize.symm ▸ hlt)⟩

/-- Addresses in the middle of pages, a page that cannot be bound again, one that is out of the
aperture, and one that no call is about. -/
theorem entries_after_calls_on_four_pages :
    let words : Array Entry := #[⟨1⟩, ⟨2⟩, ⟨3⟩, ⟨4⟩]
    let cs : List Call := [.make (.bind ⟨0xd0001fff⟩ ⟨0x9000⟩ {}),
      .make (.bind ⟨0xd0002000⟩ ⟨0xa00003000⟩ { coherent := true }),
      .make (.bind ⟨0xd0002000⟩ ⟨0x1000000000⟩ {}), .make (.unbind ⟨0xd0000abc⟩),
      .make (.unbind ⟨0xd0004000⟩), .make .flush]
    ∃ t, Table.new ⟨0xd0000000⟩ ⟨0x7ff000⟩ words = .ok t ∧
      (t.runAll cs).entries[0]? = some ⟨0x7ff001⟩ ∧ (t.runAll cs).entries[1]? = some ⟨0x9001⟩ ∧
      (t.runAll cs).entries[2]? = some ⟨0x30a7⟩ ∧ (t.runAll cs).entries[3]? = some ⟨4⟩ ∧
      (t.runAll cs).latest < 4 := by
  intro words cs
  have htable : Table.new ⟨0xd0000000⟩ ⟨0x7ff000⟩ words =
      .ok ⟨⟨0xd0000000⟩, ⟨0x7ff001⟩, words, 0⟩ := rfl
  obtain ⟨-, -, hlast, -, -, -, hflush⟩ := entries_after_calls htable cs
  exact ⟨_, htable, (hlast 0 ⟨1⟩ rfl).trans (by decide), (hlast 1 ⟨2⟩ rfl).trans (by decide),
    (hlast 2 ⟨3⟩ rfl).trans (by decide), (hlast 3 ⟨4⟩ rfl).trans (by decide),
    (hflush (by decide)).1⟩

end Table

end Aperture
