import Aperture.Proofs.Gather.Tiling
import Aperture.Proofs.Ledger.Limits
import Aperture.Proofs.Payload.Linear
import Aperture.Proofs.Tag.View

namespace Aperture

namespace Tag.Placed

variable {t : Tag} {m : Mapping} {base : VirtAddr} {length : Word} {space : VirtSpace} {l : Loaded}
  (h : t.Placed m (.linear base length space) l)

include h

/-- Whoever resolves the payload, its runs have the bytes that the mapped pages have. -/
theorem resolved_linear : ((⟨base, length⟩ : Run .virt).resolve space).failure = none ∧
    l.runs.flatMap Run.bytes = ((⟨base, length⟩ : Run .virt).resolve space).runs.flatMap Run.bytes :=
  h.runs ▸ (t.memory.follows_resolve (.linear base length space)).complete h.resolved
    (h.runs ▸ h.fits.inPage)

variable (hoffsets : space.KeepsOffsets)

include hoffsets

theorem frames_linear :
    Run.frames l.runs = Run.frames ((⟨base, length⟩ : Run .virt).resolve space).runs := by
  have hruns := Payload.eraseDups_map_frameAt h.fits.inPage []
  have hresolved := Payload.eraseDups_map_frameAt
    (fun r hr _ => Run.inPage_resolve (r := ⟨base, length⟩) hoffsets r hr) []
  rw [h.resolved_linear.2] at hruns
  exact hruns.symm.trans hresolved

theorem length_pos : 0 < length.toNat := by
  refine Nat.pos_of_ne_zero fun hz => ?_
  have hnone := Run.resolve_of_empty (r := ⟨base, length⟩) (Run.isEmpty_iff.mpr hz) space
  have htouched := h.touched
  rw [h.frames_linear hoffsets, hnone] at htouched
  exact absurd htouched (Nat.lt_irrefl 0)

variable (hapart : space.Separates ⟨base, length⟩)

include hapart

theorem busBytes_linear : l.block.busBytes l.runs =
    List.range' (l.block.start.toNat + base.pageOffset) length.toNat := by
  obtain ⟨hresolved, hbytes⟩ := h.resolved_linear
  have hpages : l.block.IsPages (Run.frames (Run.resolve ⟨base, length⟩ space).runs).length :=
    h.frames_linear hoffsets ▸ h.fits.pages
  have hbus := Run.busBytes_resolve hoffsets hapart hresolved hpages
  rw [Run.busBytes_eq (fun r hr _ => Run.inPage_resolve hoffsets r hr) hpages, ← hbytes] at hbus
  rw [Run.busBytes_eq h.fits.inPage h.fits.pages, h.frames_linear hoffsets, hbus]

theorem bytes_linear : l.segments.bytes =
    List.range' (l.block.start.toNat + base.pageOffset) length.toNat := by
  rw [h.fits.bytes, ← h.busBytes_linear hoffsets hapart, Block.busBytes, Block.stretches,
    List.flatMap_map]
  rfl

theorem tiles_linear : Stretch.Tiles (l.block.start.toNat + base.pageOffset)
    (l.block.start.toNat + base.pageOffset + length.toNat)
    (l.segments.segments.map Run.stretch) := by
  refine Stretch.tiles_of_bytes (fun s hs => ?_) ?_
  · obtain ⟨r, hr, rfl⟩ := List.mem_map.mp hs
    exact h.fits.noneEmpty r (List.mem_reverse.mp hr)
  · rw [List.flatMap_map]
    exact h.bytes_linear hoffsets hapart

theorem segments_linear (ht : t.recorded.WellFormed) (hm : m.IsMade)
    (hbound : t.boundaryFor m = 0 ∨ l.block.size ≤ t.boundaryFor m)
    (hlength : length ≤ m.limits.maxLength) : l.segments.segments.map Run.stretch =
      [⟨l.block.start.toNat + base.pageOffset, length.toNat⟩] := by
  have hinside := Block.stretches_inside h.fits.pages h.fits.inPage
  have hstop : l.block.start.toNat + base.pageOffset + length.toNat ≤ l.block.stop := by
    have hlast := h.length_pos hoffsets
    have hmem : l.block.start.toNat + base.pageOffset + (length.toNat - 1) ∈ l.segments.bytes := by
      rw [h.bytes_linear hoffsets hapart, List.mem_range'_1]
      omega
    have hlt := (h.fits.bytes_inside hmem).2
    omega
  rw [h.segments]
  refine SegmentRules.segmentsOf_of_bytes ⟨h.length_pos hoffsets, ?_, ?_⟩
    (fun s hs => (hinside s hs).1) (h.busBytes_linear hoffsets hapart)
  · rw [maxLength_rulesFor t hm]
    exact BitVec.le_def.mp hlength
  · rw [boundary_rulesFor (isBoundary_boundaryFor ht hm)]
    by_cases hz : t.boundaryFor m = 0
    · rw [hz]
      exact Stretch.not_crosses_zero _
    · exact Stretch.not_crosses_of_inside (h.first.uncrossed hz (hbound.resolve_left hz))
        (Nat.le_add_right ..) hstop

end Tag.Placed

namespace Ledger

variable {w : Ledger} {t : Tag} {name : String} {base : VirtAddr} {length : Word}
  {space : VirtSpace} {d : Step}

/-- When the pages of a linear payload are in different frames, wherever these are, the segments of
a load that is done tile one interval of the bus. It starts in the first page of the block, as far
in as the payload starts in its first page, and is as long as the payload. If there is no boundary,
or the block is no larger, and the largest segment length allows it, the interval is one segment. -/
theorem Reachable.linear_tiles (hw : w.Reachable) (ht : w.session.tag = some t)
    (hoffsets : space.KeepsOffsets) (hapart : space.Separates ⟨base, length⟩)
    (h : w.session.step (.act name (.load (.linear base length space))) = .ok d)
    (hdone : d.reply = .done) :
    ∃ m l, w.session.mapping? name = some m ∧
      d.session.mapping? name = some { m with loaded := some l } ∧
      Stretch.Tiles (l.block.start.toNat + base.pageOffset)
        (l.block.start.toNat + base.pageOffset + length.toNat)
        (l.segments.segments.map Run.stretch) ∧
      (t.boundaryFor m = 0 ∨ l.block.size ≤ t.boundaryFor m → length ≤ m.limits.maxLength →
        l.segments.segments.map Run.stretch =
          [⟨l.block.start.toNat + base.pageOffset, length.toNat⟩]) := by
  obtain ⟨t', m, ht', hm⟩ := Session.of_load_done h hdone
  obtain rfl := Option.some.inj (ht.symm.trans ht')
  obtain ⟨l, hl, hplaced⟩ := hw.placed_of_load ht hm h hdone
  exact ⟨m, l, hm, hl, hplaced.tiles_linear hoffsets hapart,
    hplaced.segments_linear hoffsets hapart (hw.lawful.recorded t ht)
      (hw.lawful.mappings _ (Session.mem_mappings hm))⟩

/-- Three pages, with their frames in the opposite order. -/
theorem linear_tiles_backwards :
    let space : VirtSpace := .ofPages 1 [(⟨0x10⟩, #[⟨9⟩, ⟨8⟩, ⟨7⟩])]
    let load : Command := .act "m" (.load (.linear ⟨0x10800⟩ 0x2000 space))
    ∃ (w : Ledger) (t : Tag) (d : Step) (m : Mapping) (l : Loaded),
      runFrom ⟨0x12000⟩ 0x10000 [.create "m" ⟨0x2000, 4, 0x2000, 0x4000, {}⟩] = .ok w ∧
      w.session.tag = some t ∧ space.KeepsOffsets ∧ space.Separates ⟨⟨0x10800⟩, 0x2000⟩ ∧
      w.session.step load = .ok d ∧ d.reply = .done ∧
      d.session.mapping? "m" = some { m with loaded := some l } ∧
      l.block.size ≤ t.boundaryFor m ∧ (0x2000 : Word) ≤ m.limits.maxLength ∧
      l.segments.segments.map Run.stretch = [⟨0x14800, 0x2000⟩] := by
  intro space load
  have hrun : (do
      let w ← runFrom ⟨0x12000⟩ 0x10000 [.create "m" ⟨0x2000, 4, 0x2000, 0x4000, {}⟩]
      let d ← w.session.step load
      return (d.reply.isDone, do
        let t ← w.session.tag
        let m ← w.session.mapping? "m"
        let l ← (← d.session.mapping? "m").loaded
        return decide (l.block.start = 0x14000 ∧ l.block.size ≤ t.boundaryFor m ∧
          (0x2000 : Word) ≤ m.limits.maxLength)) : Checked _).toOption =
        some (true, some true) := by decide +kernel
  obtain ⟨w, hw, hrun⟩ := Checked.bind_eq_ok.mp (Checked.eq_ok_of_toOption hrun)
  obtain ⟨d, hd, hrun⟩ := Checked.bind_eq_ok.mp hrun
  obtain ⟨hdone, hrun⟩ := Prod.mk.inj (Except.ok.inj hrun)
  obtain ⟨t, ht, hrun⟩ := Option.bind_eq_some_iff.mp hrun
  obtain ⟨m, hm, hrun⟩ := Option.bind_eq_some_iff.mp hrun
  obtain ⟨m', hm', hrun⟩ := Option.bind_eq_some_iff.mp hrun
  obtain ⟨l, hl, hlast⟩ := Option.bind_eq_some_iff.mp hrun
  obtain ⟨hstart, hbound, hlength⟩ := of_decide_eq_true (Option.some.inj hlast)
  have hreply := Reply.isDone_iff.mp hdone
  have hoffsets : space.KeepsOffsets := fun _ _ =>
    (VirtSpace.isPaged_ofPages 1 _).pageOffset_eq
  have hapart : space.Separates ⟨⟨0x10800⟩, 0x2000⟩ :=
    VirtSpace.separates_ofPages (by decide) (by decide) _
  obtain ⟨m₁, l₁, hm₁, hl₁, -, hone⟩ :=
    (reachable_runFrom hw).linear_tiles ht hoffsets hapart hd hreply
  obtain rfl := Option.some.inj (hm.symm.trans hm₁)
  obtain rfl := Option.some.inj (hm'.symm.trans hl₁)
  obtain rfl := Option.some.inj hl
  have hsegment := hone (.inr hbound) hlength
  rw [hstart] at hsegment
  exact ⟨w, t, d, m, l₁, hw, ht, hoffsets, hapart, hd, hreply, hl₁, hbound, hlength, hsegment⟩

end Ledger

end Aperture
