import Aperture.Proofs.Payload.Bytes
import Aperture.Proofs.Tag.Route

namespace Aperture

namespace Loaded

variable {l : Loaded} {β : Bindings} {r : Run .phys}

/-- Each page that the payload was given is bound to its frame. -/
def BoundIn (l : Loaded) (β : Bindings) : Prop := ∀ a p, (a, p) ∈ l.layout → β a = some p

namespace Fits

theorem pageNo_mem (hr : r ∈ l.runs) (he : r.isEmpty = false) :
    r.addr.pageNo ∈ Run.frames l.runs := Run.mem_frames.mpr ⟨r, hr, he, rfl⟩

theorem page_of_byte (h : l.Fits) (hr : r ∈ l.runs) (he : r.isEmpty = false) {i : Nat}
    (hi : i < r.length.toNat) :
    ∃ page : BusAddr, (page, r.addr.pageNo.base) ∈ l.layout ∧ pageSize ∣ page.word.toNat ∧
      (l.block.busAddr (Run.frames l.runs) r.addr).word.toNat + i =
        page.word.toNat + (r.addr.pageOffset + i) ∧
      r.addr.pageOffset + i < pageSize := by
  have hmem := pageNo_mem hr he
  have hk := List.idxOf_lt_length_of_mem hmem
  have hin : r.addr.pageOffset + r.length.toNat ≤ pageSize := h.inPage r hr he
  refine ⟨l.block.page ((Run.frames l.runs).idxOf r.addr.pageNo), ?_, ?_, ?_, by omega⟩
  · refine Block.mem_layout.mpr ⟨_, _, ?_, rfl, rfl⟩
    rw [List.getElem?_eq_getElem hk, List.getElem_idxOf]
  · have hoffset := h.pages.pageOffset_page hk
    rw [Addr.pageOffset_eq] at hoffset
    exact Nat.dvd_of_mod_eq_zero hoffset
  · rw [Block.toNat_busAddr h.pages hmem, Nat.add_assoc]

theorem byte?_eq (h : l.Fits) (hβ : l.BoundIn β) (hr : r ∈ l.runs) (he : r.isEmpty = false)
    {i : Nat} (hi : i < r.length.toNat) :
    β.byte? ((l.block.busAddr (Run.frames l.runs) r.addr).word.toNat + i) =
      some (r.addr.word.toNat + i) := by
  obtain ⟨page, hmem, ⟨q, hq⟩, hbus, hlt⟩ := h.page_of_byte hr he hi
  have hpage : (⟨.ofNat 64 ((page.word.toNat + (r.addr.pageOffset + i)) / pageSize * pageSize)⟩ :
      BusAddr) = page := by
    have hstart : (page.word.toNat + (r.addr.pageOffset + i)) / pageSize * pageSize =
        page.word.toNat := by
      unfold pageSize at hq hlt ⊢
      omega
    refine congrArg Addr.mk (BitVec.eq_of_toNat_eq ?_)
    rw [hstart, BitVec.toNat_ofNat, Nat.mod_eq_of_lt page.word.isLt]
  have hoffset : (page.word.toNat + (r.addr.pageOffset + i)) % pageSize =
      r.addr.pageOffset + i := by
    unfold pageSize at hq hlt ⊢
    omega
  have hbase := Addr.base_add_offset r.addr
  rw [hbus, Bindings.byte?, hpage, hβ _ _ hmem, hoffset, Option.map_some, ← Nat.add_assoc, hbase]

/-- Reading the segments byte by byte meets the bytes of the runs, in their order. -/
theorem mapM_byte? (h : l.Fits) (hβ : l.BoundIn β) :
    l.segments.bytes.mapM β.byte? = some (l.runs.flatMap Run.bytes) := by
  have hruns (runs : List (Run .phys)) (hsub : ∀ r ∈ runs, r ∈ l.runs) :
      ((l.block.ranges (Run.frames l.runs) runs).flatMap Run.bytes).mapM β.byte? =
        some (runs.flatMap Run.bytes) := by
    induction runs with
    | nil => rfl
    | cons r rest ih =>
      have hrest := ih fun r' hr' => hsub r' (by simp [hr'])
      cases he : r.isEmpty with
      | true =>
        have hskip : l.block.ranges (Run.frames l.runs) (r :: rest) =
            l.block.ranges (Run.frames l.runs) rest := by simp [Block.ranges, he]
        rw [hskip, List.flatMap_cons, Run.bytes_eq_nil he, hrest]
        rfl
      | false =>
        have hfirst : l.block.ranges (Run.frames l.runs) (r :: rest) =
            ⟨l.block.busAddr (Run.frames l.runs) r.addr, r.length⟩ ::
              l.block.ranges (Run.frames l.runs) rest := by simp [Block.ranges, he]
        have hrun : (List.range' (l.block.busAddr (Run.frames l.runs) r.addr).word.toNat
            r.length.toNat).mapM β.byte? = some r.bytes :=
          mapM_range'_shift fun i hi => h.byte?_eq hβ (hsub r (by simp)) he hi
        rw [hfirst, List.flatMap_cons, List.flatMap_cons]
        exact mapM_append_eq_some hrun hrest
  rw [h.bytes]
  exact hruns l.runs fun _ hr => hr

theorem bytes_inside (h : l.Fits) {n : Nat} (hn : n ∈ l.segments.bytes) :
    l.block.start.toNat ≤ n ∧ n < l.block.stop := by
  rw [h.bytes] at hn
  obtain ⟨range, hrange, hn⟩ := List.mem_flatMap.mp hn
  obtain ⟨-, hstart, hstop⟩ :=
    Block.stretches_inside h.pages h.inPage _ (List.mem_map_of_mem hrange)
  obtain ⟨hlo, hhi⟩ := List.mem_range'_1.mp hn
  exact ⟨Nat.le_trans hstart hlo, Nat.lt_of_lt_of_le hhi hstop⟩

theorem segment_inside (h : l.Fits) {r : Run .bus} (hr : r ∈ l.segments.segments) :
    l.block.start.toNat ≤ r.addr.word.toNat ∧
      r.addr.word.toNat + r.length.toNat ≤ l.block.stop := by
  have hpos : 0 < r.length.toNat := h.noneEmpty r (List.mem_reverse.mp hr)
  have hbyte (i : Nat) (hi : i < r.length.toNat) :
      r.addr.word.toNat + i ∈ l.segments.bytes :=
    List.mem_flatMap.mpr ⟨r, hr, List.mem_range'_1.mpr ⟨by omega, by omega⟩⟩
  have hfirst := h.bytes_inside (hbyte 0 hpos)
  have hlast := h.bytes_inside (hbyte (r.length.toNat - 1) (by omega))
  omega

theorem total_eq (h : l.Fits) (hβ : l.BoundIn β) {n : Word}
    (hn : (l.runs.flatMap Run.bytes).length = n.toNat) : l.segments.total = .ok n := by
  have hbytes : l.segments.bytes.length = (l.segments.segments.map (·.length.toNat)).sum := by
    rw [GatherList.bytes, List.length_flatMap]
    exact congrArg List.sum (List.map_congr_left fun r _ => List.length_range')
  have hlength := length_of_mapM_eq_some (h.mapM_byte? hβ)
  rw [GatherList.total, Word.total_eq_ok_iff, List.map_map, ← hn, hlength, hbytes]
  rfl

end Fits

end Loaded

end Aperture
