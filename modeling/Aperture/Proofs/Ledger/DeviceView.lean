import Aperture.Proofs.Ledger.Sound
import Aperture.Proofs.Tag.View

namespace Aperture

namespace Ledger

variable {w w' : Ledger} {t : Tag} {name : String} {p : Payload}

theorem Sound.boundIn (hs : w.Sound t) {x : Tenancy} (hx : x ∈ w.tenancies) :
    x.loaded.Fits ∧ x.loaded.BoundIn w.bindings := by
  refine ⟨hs.fits hx, fun a p hmem => (hs.occupied.bound a p).mpr ⟨x.loaded, ?_, hmem⟩⟩
  exact List.mem_map.mpr ⟨x, hx, rfl⟩

theorem Sound.loaded_of_done (hs : w.Sound t) (ht : w.session.tag = some t) {d : Step}
    (h : w.session.step (.act name (.load p)) = .ok d) (hdone : d.reply = .done) :
    ∃ m l t', (w.after (.act name (.load p)) d).session.tag = some t' ∧
      (w.after (.act name (.load p)) d).session.mapping? name = some m ∧ m.loaded = some l ∧
      (w.after (.act name (.load p)) d).payloads name = p ∧
      t'.memory.host = t.memory.host := by
  have hpayload : (w.after (.act name (.load p)) d).payloads name = p := by
    unfold after
    rw [hdone]
    exact if_pos rfl
  obtain ⟨hno, -⟩ | ⟨m, o, -, -, heffect, htag, hmappings, hreply, -⟩ := hs.load_cases ht h
  · rw [hdone] at hno
    cases hno
  rw [hdone] at hreply
  cases heffect with
  | declined d' ho =>
    rw [ho] at hreply
    cases hreply
  | unwound b frames _ _ _ _ hresult =>
    rw [hresult] at hreply
    cases hreply
  | loaded l _ _ _ _ _ hafter hmapping =>
    refine ⟨o.mapping, l, o.tag, htag, hmappings.mapping?_self, ?_, hpayload, ?_⟩
    · rw [hmapping]
    · rw [hafter]
      rfl

/-- After a load that is done, and until the mapping is ended, reading its segments byte by byte
through the bindings gives the bytes of the payload. The segments are as long as the payload and
lie in the mapping's block. Where a page is mapped in parts, only one of them would be looked up. -/
theorem Reachable.deviceView (hw : w.Reachable) (ht : w.session.tag = some t) (hpaged : p.IsPaged)
    {d : Step}
    (h : w.session.step (.act name (.load p)) = .ok d) (hdone : d.reply = .done)
    {cs : List Command} (hrun : (w.after (.act name (.load p)) d).runAll cs = .ok w')
    (hends : ∀ c ∈ cs, c.ends t.memory.host.storage name = false) :
    ∃ m l bytes, w'.session.mapping? name = some m ∧ m.loaded = some l ∧
      p.bytes? = some bytes ∧
      l.segments.bytes.mapM w'.bindings.byte? = some bytes ∧
      p.length? = some m.length ∧ l.segments.total = .ok m.length ∧
      ∀ r ∈ l.segments.segments, l.block.start.toNat ≤ r.addr.word.toNat ∧
        r.addr.word.toNat + r.length.toNat ≤ l.block.stop := by
  obtain ⟨m₁, l, t₁, ht₁, hm₁, hl₁, hpayload₁, hhost₁⟩ :=
    (hw.sound t ht).loaded_of_done ht h hdone
  have hreach : (w.after (.act name (.load p)) d).Reachable :=
    hw.step (step_eq_ok.mpr ⟨d, h, rfl⟩)
  obtain ⟨t', hkept⟩ := hreach.keptThrough ht₁ ⟨m₁, hm₁, hl₁⟩ hrun
    (hhost₁ ▸ hends)
  obtain ⟨m, hm, hl⟩ := hkept.loaded
  have hs := (hreach.runAll hrun).sound t' hkept.tag
  -- soundness at the end of the run is enough: what was loaded is still a tenancy there
  have hx := mem_tenancies hm hl
  rw [hkept.payload, hpayload₁] at hx
  obtain ⟨hfits, hbound⟩ := hs.boundIn hx
  have hfaithful := hs.faithful _ hx
  have hbytes : p.bytes? = some (l.runs.flatMap Run.bytes) := hfaithful.bytes hpaged
  have hlength : p.length? = some l.length := hfaithful.length
  have hmlength : m.length = l.length := by rw [Mapping.length, hl]; rfl
  refine ⟨m, l, l.runs.flatMap Run.bytes, hm, hl, hbytes, hfits.mapM_byte? hbound, ?_, ?_,
    fun r hr => hfits.segment_inside hr⟩
  · rw [hmlength, hlength]
  · rw [hmlength]
    exact hfits.total_eq hbound (Payload.length_bytes hbytes hlength)

/-- A payload over two pages, seen after another mapping was loaded and unloaded beside it. -/
theorem deviceView_beside :
    let limits : Limits := ⟨0x2000, 4, 0x2000, 0, {}⟩
    let load : Command := .act "m" (.load (.raw [⟨⟨0x5800⟩, 0x1000⟩]))
    let later : List Command := [.create "n" limits,
      .act "n" (.load (.raw [⟨⟨0x5000⟩, 0x800⟩])), .act "n" .unload]
    ∃ (w w' : Ledger) (t : Tag) (d : Step) (m : Mapping) (l : Loaded) (bytes : List Nat),
      runFrom ⟨0x10000⟩ 0x10000 [.create "m" limits] = .ok w ∧ w.session.tag = some t ∧
      w.session.step load = .ok d ∧ d.reply = .done ∧ (w.after load d).runAll later = .ok w' ∧
      (∀ c ∈ later, c.ends t.memory.host.storage "m" = false) ∧
      w'.session.mapping? "m" = some m ∧ m.loaded = some l ∧
      Payload.bytes? (.raw [⟨⟨0x5800⟩, 0x1000⟩]) = some bytes ∧
      l.segments.bytes.mapM w'.bindings.byte? = some bytes := by
  intro limits load later
  have hrun : (do
      let w ← runFrom ⟨0x10000⟩ 0x10000 [.create "m" limits]
      let d ← w.session.step load
      let _ ← (w.after load d).runAll later
      return (w.session.tag.isSome, d.reply.isDone) : Checked _).toOption =
        some (true, true) := by decide +kernel
  obtain ⟨w, hw, hrun⟩ := Checked.bind_eq_ok.mp (Checked.eq_ok_of_toOption hrun)
  obtain ⟨d, hd, hrun⟩ := Checked.bind_eq_ok.mp hrun
  obtain ⟨w', hlater, hrun⟩ := Checked.bind_eq_ok.mp hrun
  obtain ⟨hsome, hdone⟩ := Prod.mk.inj (Except.ok.inj hrun)
  obtain ⟨t, ht⟩ := Option.isSome_iff_exists.mp hsome
  have hreply := Reply.isDone_iff.mp hdone
  have hends : ∀ c ∈ later, c.ends t.memory.host.storage "m" = false := by
    simp [later, Command.ends]
  obtain ⟨m, l, bytes, hm, hl, hbytes, hview, -⟩ := (reachable_runFrom hw).deviceView ht
    (fun _ hv => by cases hv) hd hreply hlater hends
  exact ⟨w, w', t, d, m, l, bytes, hw, ht, hd, hreply, hlater, hends, hm, hl, hbytes,
    hview⟩

end Ledger

end Aperture
