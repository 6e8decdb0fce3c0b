import Aperture.Proofs.Ledger.Sound

namespace Aperture

namespace Ledger

variable {w w' : Ledger} {t t' : Tag} {c : Command} {calls : List TableCall}

theorem Sound.beside_subset (hs : w.Sound t) {name : String} {x : Tenancy}
    (hx : x ∈ w.beside name) : x ∈ w.held :=
  (held_perm hs.names name).mem_iff.mpr (List.mem_append_right _ hx)

theorem Sound.bystanders_subset (hs : w.Sound t) {x : Tenancy} (hx : x ∈ w.bystanders c) :
    x ∈ w.tenancies := by
  cases List.mem_append.mp hx with
  | inl hheld =>
    refine List.mem_append_left _ ?_
    cases hname : c.subject? with
    | none =>
      rw [hname] at hheld
      exact hheld
    | some name =>
      rw [hname] at hheld
      exact hs.beside_subset hheld
  | inr hlost => exact List.mem_append_right _ hlost

/-- The calls of a command leave the pages of all bystanders alone. -/
theorem Effect.not_holds (he : Effect w t c calls w' t') (hs : w.Sound t) {x : Tenancy}
    (hx : x ∈ w.bystanders c) {call : TableCall} (hcall : call ∈ calls) {a : BusAddr}
    (ha : call.bus? = some a) : ¬ x.loaded.block.Holds a := by
  have hloaded : x.loaded ∈ w.tenancies.map (·.loaded) :=
    List.mem_map.mpr ⟨x, hs.bystanders_subset hx, rfl⟩
  cases he with
  | idle _ _ _ _ _ hnone =>
    rw [hnone] at hcall
    cases hcall
  | kept _ _ _ _ _ _ _ _ htraceless =>
    exact hs.occupied.not_holds_of_traceless htraceless hcall ha hloaded
  | loaded _ _ _ hvacant hfits _ _ _ _ _ heq =>
    rw [heq] at hcall
    have hholds := Bindings.holds_of_mem_binds hfits.pages hcall ha
    exact hs.occupied.not_holds_of_vacant hvacant hholds hloaded
  | @unloaded name m l _ hsubject _ hm hl _ _ _ _ _ heq =>
    rw [heq] at hcall
    obtain ⟨hfits, -⟩ := hs.fits_of_loaded hm hl
    have hholds := Bindings.holds_of_mem_unbinds hfits.pages hcall ha
    -- what is unbound was loaded itself, and no two loaded payloads share a page
    have htenancies := tenancies_perm hs.names name
    rw [tenancy?_eq hm, hl, Option.map_some] at htenancies
    have hdisjoint := (hs.occupied.perm (htenancies.map Tenancy.loaded)).pairwise_disjoint
    have hbeside : x ∈ w.beside name ++ w.lost := by
      rw [bystanders, hsubject] at hx
      exact hx
    exact ((List.pairwise_cons.mp hdisjoint).1 _ (List.mem_map.mpr ⟨x, hbeside, rfl⟩)).not_holds
      hholds
  | gone _ _ _ _ _ _ _ hnone =>
    rw [hnone] at hcall
    cases hcall

theorem Sound.frames_eq (hs : w.Sound t) {x : Tenancy} (hx : x ∈ w.tenancies)
    (hpaged : x.payload.IsPaged) :
    x.payload.bytes? = some (x.loaded.runs.flatMap Run.bytes) ∧
      x.payload.frames = Run.frames x.loaded.runs := by
  have hbytes := (hs.faithful x hx).bytes hpaged
  exact ⟨hbytes, Payload.frames_eq hbytes (hs.fits hx).inPage⟩

/-- The bindings are exactly those of the frames of what is loaded or lost, in the order of first
touch from the start of each block on. No page is bound for two payloads, none outside the blocks
that are handed out, and no command touches the pages of another mapping. Payloads that map pages in
parts are left out: they have bytes in frames that are never looked up. -/
theorem Reachable.exposure (hw : w.Reachable) (ht : w.session.tag = some t)
    (hpaged : ∀ x ∈ w.tenancies, x.payload.IsPaged) :
    (∀ a p, w.bindings a = some p ↔ ∃ x ∈ w.tenancies, ∃ k f, x.payload.frames[k]? = some f ∧
        a.word.toNat = x.loaded.block.start.toNat + k * pageSize ∧
        p.word.toNat = f.word.toNat * pageSize) ∧
      (w.tenancies.flatMap fun x => (x.loaded.block.layout x.payload.frames).map (·.1)).Nodup ∧
      (∀ x ∈ w.tenancies, ∃ bytes, x.payload.bytes? = some bytes ∧
        ∀ f, f ∈ x.payload.frames ↔ ∃ n ∈ bytes, frameAt n = f) ∧
      (∀ a p, w.bindings a = some p → ∃ b ∈ t.pool.blocks, b.Holds a) ∧
      ∀ c d, w.session.step c = .ok d → c ≠ .teardown →
        ∀ call ∈ Event.tableCalls d.events, ∀ a, call.bus? = some a →
          ∀ x ∈ w.bystanders c, ¬ x.loaded.block.Holds a := by
  have hs := hw.sound t ht
  have hfits (x : Tenancy) (hx : x ∈ w.tenancies) : x.loaded.Fits := hs.fits hx
  have hframes (x : Tenancy) (hx : x ∈ w.tenancies) :=
    hs.frames_eq hx (hpaged x hx)
  refine ⟨?_, ?_, ?_, ?_, ?_⟩
  · intro a p
    rw [hs.occupied.bound]
    constructor
    · intro h
      obtain ⟨l, hl, hmem⟩ := h
      obtain ⟨x, hx, rfl⟩ := List.mem_map.mp hl
      refine ⟨x, hx, ?_⟩
      rw [(hframes x hx).2]
      exact (Block.mem_layout_iff (hfits x hx).pages fun _ => Run.inSpace_of_mem_frames).mp hmem
    · intro h
      obtain ⟨x, hx, hmem⟩ := h
      rw [(hframes x hx).2] at hmem
      exact ⟨x.loaded, List.mem_map.mpr ⟨x, hx, rfl⟩,
        (Block.mem_layout_iff (hfits x hx).pages fun _ => Run.inSpace_of_mem_frames).mpr hmem⟩
  · refine List.nodup_flatMap.mpr ⟨fun x hx => ?_, ?_⟩
    · rw [(hframes x hx).2]
      exact (hfits x hx).pages.nodup_layout
    · have hdisjoint := List.pairwise_map.mp hs.occupied.pairwise_disjoint
      refine hdisjoint.imp_of_mem fun hx hy hxy => ?_
      have holds {z : Tenancy} (hz : z ∈ w.tenancies) {a : BusAddr}
          (ha : a ∈ (z.loaded.block.layout z.payload.frames).map (·.1)) :
          z.loaded.block.Holds a := by
        obtain ⟨⟨_, p⟩, hp, rfl⟩ := List.mem_map.mp ha
        rw [(hframes z hz).2] at hp
        exact (hfits z hz).pages.holds_layout hp
      exact fun a hax hay => hxy.not_holds (holds hx hax) (holds hy hay)
  · intro x hx
    refine ⟨_, (hframes x hx).1, fun f => ?_⟩
    rw [Payload.frames, (hframes x hx).1, Option.getD_some, List.mem_eraseDups, List.mem_map]
  · intro a p hbound
    obtain ⟨l, hl, hmem⟩ := (hs.occupied.bound a p).mp hbound
    exact ⟨l.block, hs.occupied.block_mem hl, (hs.occupied.fits l hl).pages.holds_layout hmem⟩
  · intro c d hd hc call hcall a ha x hx
    obtain ⟨t', -, he⟩ := hs.effect ht hd hc
    exact he.not_holds hs hx hcall ha

/-- One payload is lost, and another loaded that touches the second of its frames first. -/
theorem exposure_after_drop :
    let limits : Limits := ⟨0x2000, 4, 0x2000, 0, {}⟩
    ∃ (w : Ledger) (t : Tag),
      runFrom ⟨0x10000⟩ 0x10000 [.create "m" limits, .act "m" (.load (.raw [⟨⟨0x5800⟩, 0x1000⟩])),
        .drop "m", .create "n" limits,
        .act "n" (.load (.raw [⟨⟨0x6800⟩, 8⟩, ⟨⟨0x5000⟩, 8⟩, ⟨⟨0x6000⟩, 8⟩]))] = .ok w ∧
      w.session.tag = some t ∧ (∀ x ∈ w.tenancies, x.payload.IsPaged) ∧
      w.held.length = 1 ∧ w.lost.length = 1 ∧
      (∀ a p, w.bindings a = some p ↔ ∃ x ∈ w.tenancies, ∃ k f, x.payload.frames[k]? = some f ∧
        a.word.toNat = x.loaded.block.start.toNat + k * pageSize ∧
        p.word.toNat = f.word.toNat * pageSize) ∧
      (∀ a p, w.bindings a = some p → ∃ b ∈ t.pool.blocks, b.Holds a) := by
  intro limits
  have hrun : (do
      let w ← runFrom ⟨0x10000⟩ 0x10000 [.create "m" limits,
        .act "m" (.load (.raw [⟨⟨0x5800⟩, 0x1000⟩])), .drop "m", .create "n" limits,
        .act "n" (.load (.raw [⟨⟨0x6800⟩, 8⟩, ⟨⟨0x5000⟩, 8⟩, ⟨⟨0x6000⟩, 8⟩]))]
      return (w.session.tag.isSome,
        w.tenancies.all fun x => x.payload.space?.isNone, w.held.length, w.lost.length) :
        Checked _).toOption = some (true, true, 1, 1) := by decide +kernel
  obtain ⟨w, hw, hrun⟩ := Checked.bind_eq_ok.mp (Checked.eq_ok_of_toOption hrun)
  obtain ⟨hsome, hrest⟩ := Prod.mk.inj (Except.ok.inj hrun)
  obtain ⟨hraw, hlengths⟩ := Prod.mk.inj hrest
  obtain ⟨hheld, hlost⟩ := Prod.mk.inj hlengths
  obtain ⟨t, ht⟩ := Option.isSome_iff_exists.mp hsome
  have hpaged : ∀ x ∈ w.tenancies, x.payload.IsPaged := by
    intro x hx v hv
    have hnone := List.all_eq_true.mp hraw x hx
    rw [hv] at hnone
    cases hnone
  obtain ⟨hbound, -, -, hinside, -⟩ := (reachable_runFrom hw).exposure ht hpaged
  exact ⟨w, t, hw, ht, hpaged, hheld, hlost, hbound, hinside⟩

end Ledger

end Aperture
