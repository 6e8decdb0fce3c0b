import Aperture.Frames.Onto
import Aperture.Proofs.Frames.Answers

namespace Aperture

theorem Addr.eq_of_pageNo {s : Space} {a b : Addr s} (hpage : a.pageNo = b.pageNo)
    (hoffset : a.pageOffset = b.pageOffset) : a = b := by
  have hnumber : a.word.toNat = b.word.toNat := by
    rw [← a.base_add_offset, ← b.base_add_offset, hpage, hoffset]
  exact congrArg Addr.mk (BitVec.eq_of_toNat_eq hnumber)

namespace PageNo

theorem InSpace.exists_addr {s : Space} {p : PageNo s} (h : p.InSpace) {offset : Nat}
    (hoffset : offset < pageSize) : ∃ a : Addr s, a.pageNo = p ∧ a.pageOffset = offset := by
  have hlt : p.word.toNat * pageSize + offset < 2 ^ 64 := by
    refine Nat.lt_of_not_le fun hle => ?_
    unfold InSpace at h
    unfold pageSize at h hoffset hle
    omega
  let a : Addr s := ⟨.ofNatLT _ hlt⟩
  have ha : a.word.toNat = p.word.toNat * pageSize + offset := BitVec.toNat_ofNatLT _ hlt
  refine ⟨a, congrArg PageNo.mk (BitVec.eq_of_toNat_eq ?_), ?_⟩
  · refine (Addr.toNat_pageNo a).trans ?_
    rw [ha, Nat.add_comm, Nat.add_mul_div_right _ _ (by decide), Nat.div_eq_of_lt hoffset,
      Nat.zero_add]
  · rw [Addr.pageOffset_eq, ha, Nat.mul_add_mod_self_right, Nat.mod_eq_of_lt hoffset]

/-- Where `a` is on the bus when the frames have the pages from `page` on. -/
def busAddr (page : PageNo .bus) (frames : List FrameNo) (a : PhysAddr) : BusAddr :=
  ⟨.ofNat 64 ((page.word.toNat + frames.idxOf a.pageNo) * pageSize + a.pageOffset)⟩

variable {page : PageNo .bus} {frames : List FrameNo} {n k : Nat}

theorem HasAfter.toNat_skip (h : page.HasAfter n) (hk : k < n) :
    (page.skip k).word.toNat = page.word.toNat + k := by
  have hlt := h k hk
  unfold pageSize at hlt
  rw [skip, BitVec.toNat_ofNat, Nat.mod_eq_of_lt (by omega)]

theorem HasAfter.length_lt (h : page.HasAfter n) : n < 2 ^ 64 := by
  refine Nat.lt_of_not_le fun hle => ?_
  have hlast := h (n - 1) (by omega)
  unfold pageSize at hlast
  omega

theorem HasAfter.add_le (h : page.HasAfter n) : page.word.toNat + n ≤ 2 ^ 64 := by
  cases n with
  | zero => exact Nat.le_of_lt page.word.isLt
  | succ n =>
    have hlast := h n (Nat.lt_succ_self n)
    unfold pageSize at hlast
    omega

theorem HasAfter.inSpace_skip (h : page.HasAfter n) (hk : k < n) : (page.skip k).InSpace := by
  rw [InSpace, h.toNat_skip hk]
  exact h k hk

theorem toNat_busAddr (h : page.HasAfter frames.length) {a : PhysAddr} (ha : a.pageNo ∈ frames) :
    (page.busAddr frames a).word.toNat =
      (page.word.toNat + frames.idxOf a.pageNo) * pageSize + a.pageOffset := by
  have hlt := h _ (List.idxOf_lt_length_of_mem ha)
  have hoffset := a.pageOffset_lt
  unfold pageSize at hlt hoffset
  have hfits : (page.word.toNat + frames.idxOf a.pageNo) * pageSize + a.pageOffset < 2 ^ 64 := by
    refine Nat.lt_of_not_le fun hle => ?_
    unfold pageSize at hle
    omega
  rw [busAddr, BitVec.toNat_ofNat, Nat.mod_eq_of_lt hfits]

theorem pageOffset_busAddr (h : page.HasAfter frames.length) {a : PhysAddr}
    (ha : a.pageNo ∈ frames) : (page.busAddr frames a).pageOffset = a.pageOffset := by
  rw [Addr.pageOffset_eq, toNat_busAddr h ha, Nat.mul_add_mod_self_right,
    Nat.mod_eq_of_lt a.pageOffset_lt]

theorem pageNo_busAddr (h : page.HasAfter frames.length) {a : PhysAddr} (ha : a.pageNo ∈ frames) :
    (page.busAddr frames a).pageNo.word.toNat = page.word.toNat + frames.idxOf a.pageNo := by
  rw [Addr.toNat_pageNo, toNat_busAddr h ha, Nat.add_comm, Nat.add_mul_div_right _ _ (by decide),
    Nat.div_eq_of_lt a.pageOffset_lt, Nat.zero_add]

/-- Addresses of the frames come to lie on one page exactly if they are in one frame. -/
theorem pageNo_busAddr_eq_iff (h : page.HasAfter frames.length) {a b : PhysAddr}
    (ha : a.pageNo ∈ frames) (hb : b.pageNo ∈ frames) :
    (page.busAddr frames a).pageNo = (page.busAddr frames b).pageNo ↔ a.pageNo = b.pageNo := by
  constructor
  · intro he
    have hindex := congrArg (fun p : PageNo .bus => p.word.toNat) he
    simp only [pageNo_busAddr h ha, pageNo_busAddr h hb, Nat.add_left_cancel_iff] at hindex
    exact (List.idxOf_inj ha).mp hindex
  · intro he
    have hindex : (page.busAddr frames a).pageNo.word.toNat =
        (page.busAddr frames b).pageNo.word.toNat := by
      rw [pageNo_busAddr h ha, pageNo_busAddr h hb, he]
    exact congrArg PageNo.mk (BitVec.eq_of_toNat_eq hindex)

theorem injOn_busAddr (h : page.HasAfter frames.length) :
    Set.InjOn (page.busAddr frames) {a | a.pageNo ∈ frames} := by
  intro a ha b hb he
  refine Addr.eq_of_pageNo ((pageNo_busAddr_eq_iff h ha hb).mp (congrArg Addr.pageNo he)) ?_
  rw [← pageOffset_busAddr h ha, he, pageOffset_busAddr h hb]

/-- The bytes of the frames are mapped one to one onto those of as many pages. -/
theorem bijOn_busAddr (h : page.HasAfter frames.length) (hdistinct : frames.Nodup)
    (hin : ∀ f ∈ frames, f.InSpace) :
    Set.BijOn (page.busAddr frames) {a | a.pageNo ∈ frames}
      {b | page.word.toNat * pageSize ≤ b.word.toNat ∧
        b.word.toNat < page.word.toNat * pageSize + frames.length * pageSize} := by
  refine ⟨fun a ha => ?_, injOn_busAddr h, fun b hb => ?_⟩
  · have hindex := List.idxOf_lt_length_of_mem ha
    have hoffset := a.pageOffset_lt
    rw [Set.mem_ofPred_eq, toNat_busAddr h ha]
    unfold pageSize at hoffset ⊢
    omega
  · -- the byte at the same offset of the frame that has the page of `b`
    obtain ⟨hlow, hhigh⟩ := hb
    have hindex : b.word.toNat / pageSize - page.word.toNat < frames.length := by
      unfold pageSize at hlow hhigh ⊢
      omega
    let f := frames[b.word.toNat / pageSize - page.word.toNat]
    have hf : f ∈ frames := List.getElem_mem hindex
    obtain ⟨a, hpage, hoffset⟩ := (hin f hf).exists_addr b.pageOffset_lt
    have ha : a.pageNo ∈ frames := hpage ▸ hf
    refine ⟨a, ha, congrArg Addr.mk (BitVec.eq_of_toNat_eq ?_)⟩
    refine (toNat_busAddr h ha).trans ?_
    rw [hpage, hdistinct.idxOf_getElem, hoffset, Addr.pageOffset_eq]
    unfold pageSize at hlow ⊢
    omega

end PageNo

namespace FrameSet

/-- Where as many frames are recorded as there is room for, the frames that follow do not count. -/
theorem take_eraseDups_of_full {fs : List FrameNo} (hfs : fs.Nodup) {capacity : Nat}
    (hfull : fs.length = capacity) (rest : List FrameNo) :
    ((fs ++ rest).eraseDups).take capacity = fs := by
  rw [List.eraseDups_append, eraseDups_of_nodup hfs, List.take_left' hfull]

theorem WellFormed.fill {s : FrameSet} (h : s.WellFormed) (as : List PhysAddr) :
    (s.fill as).WellFormed ∧
      (s.fill as).frames = ((s.frames ++ as.map (·.pageNo)).eraseDups).take s.capacity := by
  induction as generalizing s with
  | nil =>
    have hroom := h.size_le
    rw [size_eq] at hroom
    refine ⟨h, ?_⟩
    rw [List.map_nil, List.append_nil, eraseDups_of_nodup h.nodup_frames,
      List.take_of_length_le hroom]
    rfl
  | cons a rest ih =>
    rw [FrameSet.fill, List.map_cons]
    rcases h.insert_cases a with ⟨hold, hinsert⟩ | ⟨hnew, hfull, hinsert⟩ | ⟨hnew, hroom, hinsert⟩
    · rw [hinsert, eraseDups_append_cons hold]
      exact ih h
    · have hlength : s.frames.length = s.capacity := by
        have := h.size_le
        rw [← size_eq]
        omega
      have hrest := ih h
      rw [take_eraseDups_of_full h.nodup_frames hlength] at hrest
      rw [hinsert, take_eraseDups_of_full h.nodup_frames hlength]
      exact hrest
    · have hrest := ih (h.add hnew hroom)
      rw [frames_add, List.append_assoc, List.singleton_append] at hrest
      rw [hinsert]
      exact hrest

structure PagesFrom (s : FrameSet) (frames : List FrameNo) (page : PageNo .bus) : Prop where
  wellFormed : s.WellFormed
  slots : s.toList = frames.mapIdx fun k f => ⟨f, some (page.skip k)⟩

theorem WellFormed.assign_pagesFrom {s : FrameSet} (h : s.WellFormed) {page : PageNo .bus}
    (hfits : page.HasAfter s.frames.length) :
    ∃ s', s.assign page = .ok s' ∧ s'.PagesFrom s.frames page := by
  obtain ⟨s', hassign, hwell, hslots, -⟩ := h.assign hfits.add_le
  exact ⟨s', hassign, hwell, hslots⟩

namespace PagesFrom

variable {s : FrameSet} {frames : List FrameNo} {page : PageNo .bus}

theorem frames_eq (h : s.PagesFrom frames page) : s.frames = frames := by
  rw [FrameSet.frames, h.slots, map_frame_mapIdx]

theorem nodup (h : s.PagesFrom frames page) : frames.Nodup :=
  h.frames_eq ▸ h.wellFormed.nodup_frames

theorem contains_iff (h : s.PagesFrom frames page) (a : PhysAddr) :
    s.contains a = true ↔ a.pageNo ∈ frames := by
  rw [h.wellFormed.contains_iff, h.frames_eq]

variable (h : s.PagesFrom frames page) (hfits : page.HasAfter frames.length)

include h hfits

theorem busAddr?_eq (a : PhysAddr) :
    s.busAddr? a = .ok (if s.contains a then some (page.busAddr frames a) else none) := by
  by_cases ha : a.pageNo ∈ frames
  · have hindex := List.idxOf_lt_length_of_mem ha
    have hslot : ⟨a.pageNo, some (page.skip (frames.idxOf a.pageNo))⟩ ∈ s.toList := by
      rw [h.slots, List.mem_mapIdx]
      exact ⟨_, hindex, by rw [List.getElem_idxOf]⟩
    have hin := hfits.inSpace_skip hindex
    rw [if_pos ((h.contains_iff a).mpr ha)]
    refine h.wellFormed.busAddr?_eq hslot hin ?_
    rw [PageNo.toNat_busAddr hfits ha, PageNo.toNat_base hin, hfits.toNat_skip hindex]
  · have hout : ¬ s.contains a = true := fun hin => ha ((h.contains_iff a).mp hin)
    have hfind : s.find? a.pageNo = none := by
      rw [FrameSet.contains, Option.not_isSome_iff_eq_none] at hout
      exact hout
    rw [if_neg hout, busAddr?, hfind]
    rfl

theorem pages_eq (hin : ∀ f ∈ frames, f.InSpace) :
    s.pages = .ok (frames.mapIdx fun k f => (f.base, some (page.skip k).base)) := by
  have hpages : ∀ slot ∈ s.toList, ∀ own, slot.page = some own → own.InSpace := by
    intro slot hslot own hown
    rw [h.slots, List.mem_mapIdx] at hslot
    obtain ⟨k, hk, rfl⟩ := hslot
    obtain rfl := Option.some.inj hown
    exact hfits.inSpace_skip hk
  rw [pages_eq_ok (h.frames_eq ▸ hin) hpages, h.slots]
  refine congrArg Except.ok (List.ext_getElem? fun k => ?_)
  rw [List.getElem?_map, List.getElem?_mapIdx, List.getElem?_mapIdx, Option.map_map]
  rfl

/-- Both readings of the set are of one map, which maps the frames onto their pages. -/
theorem view_onto (hin : ∀ f ∈ frames, f.InSpace) :
    s.view.Onto frames page (page.busAddr frames) where
  recorded := h.contains_iff
  found := h.busAddr?_eq hfits
  bijective := by
    have hsame : {a | s.contains a = true} = {a | a.pageNo ∈ frames} := Set.ext h.contains_iff
    show Set.BijOn _ {a | s.contains a = true} _
    rw [hsame]
    exact PageNo.bijOn_busAddr hfits h.nodup hin
  pageOffset a ha := PageNo.pageOffset_busAddr hfits ((h.contains_iff a).mp ha)
  pageNo a b ha hb :=
    PageNo.pageNo_busAddr_eq_iff hfits ((h.contains_iff a).mp ha) ((h.contains_iff b).mp hb)
  byteSize := by
    intro w
    have hsize : s.size = frames.length := by rw [size_eq, h.frames_eq]
    have hlt := hfits.length_lt
    show Word.times (.ofNat 64 s.size) pageSize = .ok w ↔ _
    rw [Word.times_eq_ok_iff, BitVec.toNat_ofNat, hsize, Nat.mod_eq_of_lt hlt]
  listed := by
    refine ⟨_, h.pages_eq hfits hin, List.length_mapIdx, fun k f hf => ?_⟩
    have hk := (List.getElem?_eq_some_iff.mp hf).1
    have hown := PageNo.toNat_base (hfits.inSpace_skip hk)
    rw [hfits.toNat_skip hk] at hown
    refine ⟨f.base, (page.skip k).base, ?_, PageNo.toNat_base (hin f (List.mem_of_getElem? hf)),
      hown, fun a ha => ?_⟩
    · rw [List.getElem?_mapIdx, hf]
      rfl
    · have hmem : a.pageNo ∈ frames := ha ▸ List.mem_of_getElem? hf
      have hindex : frames.idxOf a.pageNo = k := by
        obtain ⟨_, he⟩ := List.getElem?_eq_some_iff.mp hf
        rw [ha, ← he]
        exact h.nodup.idxOf_getElem k hk
      rw [PageNo.toNat_busAddr hfits hmem, hindex, hown]

end PagesFrom

end FrameSet

namespace Arena.Holds

variable {a : Arena} {s : FrameSet}

theorem fill (h : a.Holds s) (hs : s.WellFormed) (as : List PhysAddr) :
    (a.fill as).Holds (s.fill as) := by
  induction as generalizing a s with
  | nil => exact h
  | cons x rest ih =>
    rw [Arena.fill, FrameSet.fill]
    cases hx : s.insert x with
    | ok grown =>
      obtain ⟨next, hnext, hholds, hwell⟩ := h.insert hs hx
      rw [hnext]
      exact ih hholds hwell
    | error why =>
      rw [h.insert_error hs hx]
      exact ih h hs

theorem view_eq (h : a.Holds s) (hs : s.WellFormed) : a.view = s.view := by
  rw [Arena.view, FrameSet.view, h.byteSize_eq, h.pages_eq,
    funext (h.contains_eq hs), funext (h.busAddr?_eq hs)]

end Arena.Holds

namespace FrameSet

theorem inSpace_of_mem_firstFrames {capacity : Nat} {as : List PhysAddr} {f : FrameNo}
    (hf : f ∈ firstFrames capacity as) : f.InSpace := by
  have hmem := List.mem_eraseDups.mp (List.mem_of_mem_take hf)
  obtain ⟨a, -, rfl⟩ := List.mem_map.mp hmem
  exact PageNo.inSpace_pageNo a

/-- However a record is filled, new or cleared, assigning it maps the bytes of the frames it keeps
one to one onto those of consecutive pages, as long as these have addresses. A set and an arena
give one map, and they list the pages of the frames as they find them. -/
theorem fill_assign_onto {capacity : Nat} {arena : Arena} (hslots : arena.slots.size = capacity)
    (horder : arena.order.size = capacity) (as : List PhysAddr) {page : PageNo .bus}
    (hfits : page.HasAfter (firstFrames capacity as).length) :
    ∃ s a bus, ((ofCapacity capacity).fill as).assign page = .ok s ∧
      (arena.clear.fill as).assign page = .ok a ∧
      s.view.Onto (firstFrames capacity as) page bus ∧
      a.view.Onto (firstFrames capacity as) page bus := by
  have hempty := wellFormed_ofCapacity capacity
  obtain ⟨hfilled, hframes⟩ := hempty.fill as
  have hframes : ((ofCapacity capacity).fill as).frames = firstFrames capacity as :=
    hframes
  rw [← hframes] at hfits
  obtain ⟨s, hs, hpages⟩ := hfilled.assign_pagesFrom hfits
  have honto := hpages.view_onto hfits fun f hf => inSpace_of_mem_firstFrames (hframes ▸ hf)
  have hholds : arena.clear.Holds (.ofCapacity capacity) :=
    hslots ▸ Arena.holds_clear (horder.trans hslots.symm)
  obtain ⟨a, ha, hholds⟩ := (hholds.fill hempty as).assign hs
  rw [hframes] at honto
  exact ⟨s, a, _, hs, ha, honto, hholds.view_eq hpages.wellFormed ▸ honto⟩

/-- A full record that was used before: the frames come unsorted and twice, and one is refused. -/
theorem fill_assign_onto_stale :
    let arena : Arena := ⟨#[⟨⟨9⟩, some ⟨1⟩⟩, ⟨⟨3⟩, none⟩], #[1, 1], 2, some ⟨1⟩⟩
    let as : List PhysAddr := [⟨0x7080⟩, ⟨0x3000⟩, ⟨0x7fff⟩, ⟨0x5000⟩, ⟨0x3004⟩]
    let page : PageNo .bus := ⟨0xffffffffffffe⟩
    arena.slots.size = 2 ∧ arena.order.size = 2 ∧ firstFrames 2 as = [⟨7⟩, ⟨3⟩] ∧
    page.HasAfter (firstFrames 2 as).length ∧
    ∃ s a bus, ((ofCapacity 2).fill as).assign page = .ok s ∧
      (arena.clear.fill as).assign page = .ok a ∧
      s.view.Onto (firstFrames 2 as) page bus ∧ a.view.Onto (firstFrames 2 as) page bus := by
  intro arena as page
  have hslots : arena.slots.size = 2 := rfl
  have horder : arena.order.size = 2 := rfl
  have hframes : firstFrames 2 as = [⟨7⟩, ⟨3⟩] := by decide
  have hfits : page.HasAfter (firstFrames 2 as).length := by
    rw [hframes]
    decide
  exact ⟨hslots, horder, hframes, hfits, fill_assign_onto hslots horder as hfits⟩

end FrameSet

end Aperture
