import Aperture.Proofs.Frames.Record
import Aperture.Tag.Load
import Aperture.Word.Rounding

namespace Aperture

namespace Checked

variable {ε α β : Type}

theorem mapM_eq_ok {f : α → Except ε β} {g : α → β} {l : List α} (h : ∀ a ∈ l, f a = .ok (g a)) :
    l.mapM f = .ok (l.map g) := by
  induction l with
  | nil => rfl
  | cons a l ih =>
    have htail := ih fun b hb => h b (by simp [hb])
    simp [List.mapM_cons, h a (by simp), htail]

end Checked

namespace PageNo

variable {s : Space}

def InSpace (p : PageNo s) : Prop := p.word.toNat * pageSize < 2 ^ 64

instance (p : PageNo s) : Decidable p.InSpace := inferInstanceAs (Decidable (_ < _))

theorem toNat_base {p : PageNo s} (h : p.InSpace) :
    p.base.word.toNat = p.word.toNat * pageSize := by
  rw [base, BitVec.toNat_ofNat, Nat.mod_eq_of_lt h]

theorem start_eq_ok {p : PageNo s} (h : p.InSpace) : p.start = .ok p.base := by
  rw [start, Checked.map_eq_ok]
  refine ⟨.ofNat 64 (p.word.toNat * pageSize), Word.times_eq_ok_iff.mpr ?_, rfl⟩
  rw [BitVec.toNat_ofNat, Nat.mod_eq_of_lt h]

theorem inSpace_pageNo (a : Addr s) : a.pageNo.InSpace := by
  have := a.word.isLt
  unfold InSpace
  rw [Addr.toNat_pageNo]
  exact Nat.lt_of_le_of_lt (Nat.div_mul_le_self _ _) this

theorem base_pageNo (a : Addr s) : a.pageNo.base = a.pageBase := by
  have h : a.pageNo.base.word = a.pageBase.word := BitVec.eq_of_toNat_eq (by
    rw [toNat_base (inSpace_pageNo a), Addr.toNat_pageNo, Addr.toNat_pageBase])
  exact congrArg Addr.mk h

def skip (p : PageNo s) (k : Nat) : PageNo s := ⟨.ofNat 64 (p.word.toNat + k)⟩

end PageNo

theorem Run.inSpace_of_mem_frames {runs : List (Run .phys)} {f : FrameNo}
    (hf : f ∈ Run.frames runs) : f.InSpace := by
  obtain ⟨r, -, -, rfl⟩ := Run.mem_frames.mp hf
  exact PageNo.inSpace_pageNo r.addr

theorem Addr.base_add_offset {s : Space} (a : Addr s) :
    a.pageNo.base.word.toNat + a.pageOffset = a.word.toNat := by
  rw [PageNo.base_pageNo, toNat_pageBase, pageOffset_eq, Nat.mul_comm]
  exact Nat.div_add_mod _ _

namespace Block

variable {b : Block} {n k : Nat}

namespace IsPages

theorem stop_le (h : b.IsPages n) : b.stop ≤ 2 ^ 64 := by
  rw [Block.stop, h.size]
  exact h.fits

theorem toNat_page (h : b.IsPages n) (hk : k < n) :
    (b.page k).word.toNat = b.start.toNat + k * pageSize := by
  have hfits := h.fits
  have hle : (k + 1) * pageSize ≤ n * pageSize := Nat.mul_le_mul_right _ hk
  have hpage : 0 < pageSize := by decide
  rw [Nat.succ_mul] at hle
  rw [page, BitVec.toNat_ofNat, Nat.mod_eq_of_lt (by omega)]

theorem pageOffset_page (h : b.IsPages n) (hk : k < n) : (b.page k).pageOffset = 0 := by
  obtain ⟨i, hi⟩ := h.aligned
  rw [Addr.pageOffset_eq, h.toNat_page hk, hi, Nat.add_mul_mod_self_right, Nat.mul_mod_right]

theorem base_page (h : b.IsPages n) (hk : k < n) : (b.page k).pageNo.base = b.page k := by
  have hword : (b.page k).pageNo.base.word = (b.page k).word := BitVec.eq_of_toNat_eq (by
    have := Addr.base_add_offset (b.page k)
    rw [h.pageOffset_page hk] at this
    exact this)
  exact congrArg Addr.mk hword

theorem page_inj (h : b.IsPages n) {j : Nat} (hj : j < n) (hk : k < n)
    (he : b.page j = b.page k) : j = k := by
  have hword := congrArg (fun a : BusAddr => a.word.toNat) he
  simp only [h.toNat_page hj, h.toNat_page hk] at hword
  unfold pageSize at hword
  omega

theorem toNat_pageNo_page (h : b.IsPages n) (hk : k < n) :
    (b.page k).pageNo.word.toNat = (Addr.pageNo (⟨b.start⟩ : BusAddr)).word.toNat + k := by
  rw [Addr.toNat_pageNo, Addr.toNat_pageNo, h.toNat_page hk]
  exact Nat.add_mul_div_right _ _ (by decide)

theorem pageNo_page (h : b.IsPages n) (hk : k < n) :
    (b.page k).pageNo = (Addr.pageNo ⟨b.start⟩).skip k := by
  rw [PageNo.skip, ← h.toNat_pageNo_page hk, BitVec.ofNat_toNat, BitVec.setWidth_eq]

theorem add_length_le (h : b.IsPages n) :
    (Addr.pageNo (⟨b.start⟩ : BusAddr)).word.toNat + n ≤ 2 ^ 64 := by
  cases n with
  | zero => exact Nat.le_of_lt (BitVec.isLt _)
  | succ n =>
    have hlast := h.toNat_pageNo_page (Nat.lt_succ_self n)
    have := (b.page n).pageNo.word.isLt
    omega

end IsPages

theorem toNat_busAddr {frames : List FrameNo} (h : b.IsPages frames.length) {a : PhysAddr}
    (ha : a.pageNo ∈ frames) :
    (b.busAddr frames a).word.toNat =
      (b.page (frames.idxOf a.pageNo)).word.toNat + a.pageOffset := by
  have hk : frames.idxOf a.pageNo < frames.length := List.idxOf_lt_length_of_mem ha
  have hfits := h.fits
  have hoff := a.pageOffset_lt
  have hle : (frames.idxOf a.pageNo + 1) * pageSize ≤ frames.length * pageSize :=
    Nat.mul_le_mul_right _ hk
  rw [Nat.succ_mul] at hle
  rw [h.toNat_page hk, busAddr, BitVec.toNat_ofNat, Nat.mod_eq_of_lt (by omega)]

theorem length_layout (b : Block) (frames : List FrameNo) :
    (b.layout frames).length = frames.length := List.length_mapIdx

theorem mem_layout {frames : List FrameNo} {bus : BusAddr} {phys : PhysAddr} :
    (bus, phys) ∈ b.layout frames ↔
      ∃ k f, frames[k]? = some f ∧ bus = b.page k ∧ phys = f.base := by
  simp only [layout, List.mem_iff_getElem?, List.getElem?_mapIdx, Option.map_eq_some_iff,
    Prod.mk.injEq]
  constructor
  · intro h
    obtain ⟨k, f, hf, hbus, hphys⟩ := h
    exact ⟨k, f, hf, hbus.symm, hphys.symm⟩
  · intro h
    obtain ⟨k, f, hf, hbus, hphys⟩ := h
    exact ⟨k, f, hf, hbus.symm, hphys.symm⟩

/-- A page of a layout, by its address and that of its frame. -/
theorem mem_layout_iff {frames : List FrameNo} (hb : b.IsPages frames.length)
    (hin : ∀ f ∈ frames, f.InSpace) {a : BusAddr} {p : PhysAddr} :
    (a, p) ∈ b.layout frames ↔ ∃ k f, frames[k]? = some f ∧
      a.word.toNat = b.start.toNat + k * pageSize ∧
      p.word.toNat = f.word.toNat * pageSize := by
  rw [mem_layout]
  constructor
  · intro h
    obtain ⟨k, f, hf, rfl, rfl⟩ := h
    exact ⟨k, f, hf, hb.toNat_page (List.getElem?_eq_some_iff.mp hf).1,
      PageNo.toNat_base (hin f (List.mem_of_getElem? hf))⟩
  · intro h
    obtain ⟨k, f, hf, ha, hp⟩ := h
    have hpage := hb.toNat_page (List.getElem?_eq_some_iff.mp hf).1
    have hbase := PageNo.toNat_base (hin f (List.mem_of_getElem? hf))
    exact ⟨k, f, hf, congrArg Addr.mk (BitVec.eq_of_toNat_eq (ha.trans hpage.symm)),
      congrArg Addr.mk (BitVec.eq_of_toNat_eq (hp.trans hbase.symm))⟩

theorem IsPages.nodup_layout {frames : List FrameNo} (h : b.IsPages frames.length) :
    ((b.layout frames).map (·.1)).Nodup := by
  refine List.nodup_iff_getElem?_ne_getElem?.mpr ?_
  intro i j hij hj he
  rw [List.length_map, length_layout] at hj
  simp only [layout, List.getElem?_map, List.getElem?_mapIdx, List.getElem?_eq_getElem hj,
    List.getElem?_eq_getElem (Nat.lt_trans hij hj), Option.map_some, Option.some.injEq] at he
  have := h.page_inj (Nat.lt_trans hij hj) hj he
  omega

end Block

namespace FrameSet

theorem assignFrom_eq_ok {page : PageNo .bus} {slots : List FrameSlot} {i : Nat}
    (h : ∀ k < slots.length, page.word.toNat + (i + k) < 2 ^ 64) :
    assignFrom page i slots = .ok (slots.mapIdx fun k slot =>
      { slot with page := some ⟨.ofNat 64 (page.word.toNat + (i + k))⟩ }) := by
  induction slots generalizing i with
  | nil => rfl
  | cons slot rest ih =>
    have hown : page.plus i = .ok ⟨.ofNat 64 (page.word.toNat + i)⟩ := by
      have hlt := h 0 (by simp)
      rw [PageNo.plus, Checked.map_eq_ok]
      refine ⟨_, Word.plus_eq_ok_iff.mpr ?_, rfl⟩
      rw [BitVec.toNat_ofNat, Nat.mod_eq_of_lt (by omega)]
    have hrest := ih (i := i + 1) fun k hk => by
      have := h (k + 1) (by simpa using hk)
      omega
    have hshift (k : Nat) : i + 1 + k = i + (k + 1) := by omega
    rw [assignFrom, hown, Checked.ok_bind, hrest, Checked.ok_bind, List.mapIdx_cons]
    simp only [hshift, Nat.add_zero, Checked.pure_eq]

/-- What the tree finds depends on the order of the frames alone. -/
theorem WellFormed.congr {s s' : FrameSet} (h : s.WellFormed) (hcap : s'.capacity = s.capacity)
    (htree : s'.slotOf = s.slotOf) (hframes : s'.frames = s.frames) : s'.WellFormed := by
  constructor
  · intro f i
    rw [htree, h.slotOf_eq_some_iff, ← List.getElem?_map, ← List.getElem?_map]
    exact iff_of_eq (congrArg (fun l : List FrameNo => l[i]? = some f) hframes.symm)
  · rw [size_eq, hframes, hcap, ← size_eq]
    exact h.size_le

theorem map_frame_mapIdx (frames : List FrameNo) (page : Nat → Option (PageNo .bus)) :
    (frames.mapIdx fun k f => (⟨f, page k⟩ : FrameSlot)).map (·.frame) = frames := by
  apply List.ext_getElem?
  intro k
  rw [List.getElem?_map, List.getElem?_mapIdx, Option.map_map]
  exact Option.map_id'

/-- Starts are read off slots whose pages all have addresses. -/
theorem pages_eq_ok {s : FrameSet} (hframes : ∀ f ∈ s.frames, f.InSpace)
    (hpages : ∀ slot ∈ s.toList, ∀ page, slot.page = some page → page.InSpace) :
    s.pages = .ok (s.toList.map fun slot => (slot.frame.base, slot.page.map PageNo.base)) := by
  refine Checked.mapM_eq_ok fun slot hslot => ?_
  rw [PageNo.start_eq_ok (hframes slot.frame (List.mem_map_of_mem hslot)), Checked.ok_bind]
  cases hown : slot.page with
  | none => rfl
  | some page =>
    simp only [PageNo.start_eq_ok (hpages slot hslot page hown), Checked.ok_bind, Option.map_some,
      Checked.pure_eq]

/-- Assigning gives consecutive pages to the frames, whatever pages they had. -/
theorem WellFormed.assign {s : FrameSet} (h : s.WellFormed) {page : PageNo .bus}
    (hfits : page.word.toNat + s.frames.length ≤ 2 ^ 64) :
    ∃ s', s.assign page = .ok s' ∧ s'.WellFormed ∧
      s'.toList = (s.frames.mapIdx fun k f => ⟨f, some (page.skip k)⟩) ∧
      s'.capacity = s.capacity := by
  have hlt (k : Nat) (hk : k < s.toList.length) : page.word.toNat + (0 + k) < 2 ^ 64 := by
    rw [frames, List.length_map] at hfits
    omega
  let slots := s.frames.mapIdx fun k f => (⟨f, some (page.skip k)⟩ : FrameSlot)
  have hassigned : assignFrom page 0 s.toList = .ok slots := by
    rw [assignFrom_eq_ok hlt]
    refine congrArg Except.ok (List.mapIdx_eq_iff.mpr fun k => ?_)
    rw [List.getElem?_mapIdx, frames, List.getElem?_map, Option.map_map]
    simp only [Nat.zero_add]
    rfl
  refine ⟨{ s with slots := slots.toArray, base := some page }, ?_, ?_, rfl, rfl⟩
  · rw [FrameSet.assign, ← toList, hassigned]
    rfl
  · exact h.congr rfl rfl (map_frame_mapIdx _ _)

/-- An address in a frame that has a page is found there, at its own offset. -/
theorem WellFormed.busAddr?_eq {s : FrameSet} (h : s.WellFormed) {a : PhysAddr}
    {page : PageNo .bus} (hslot : ⟨a.pageNo, some page⟩ ∈ s.toList) (hin : page.InSpace)
    {bus : BusAddr} (hbus : bus.word.toNat = page.base.word.toNat + a.pageOffset) :
    s.busAddr? a = .ok (some bus) := by
  have hfind : s.find? a.pageNo = some ⟨a.pageNo, some page⟩ :=
    h.find?_eq_some_iff.mpr ⟨hslot, rfl⟩
  have hplus : page.base.plus a.pageOffset = .ok bus := Addr.plus_eq_ok_iff.mpr hbus
  unfold busAddr?
  simp only [hfind, Option.bind_some, PageNo.start_eq_ok hin, hplus, Checked.ok_bind,
    Checked.pure_eq]

/-- Recorded frames are laid into a block of as many pages. -/
theorem assign_laidIn {s : FrameSet} (hs : s.WellFormed) {frames : List FrameNo}
    (hslots : s.toList = frames.map (⟨·, none⟩)) {b : Block} (hb : b.IsPages frames.length) :
    ∃ s', s.assign (Addr.pageNo ⟨b.start⟩) = .ok s' ∧ s'.LaidIn b frames ∧
      s'.capacity = s.capacity := by
  have hframes : s.frames = frames := by
    rw [FrameSet.frames, hslots, List.map_map]
    exact List.map_id' _
  obtain ⟨s', hassign, hwell, hslots', hcapacity⟩ := hs.assign (hframes ▸ hb.add_length_le)
  refine ⟨s', hassign, ⟨hwell, ?_⟩, hcapacity⟩
  rw [hslots', hframes]
  refine List.mapIdx_eq_mapIdx_iff.mpr fun k hk => ?_
  rw [hb.pageNo_page hk]

namespace LaidIn

variable {s : FrameSet} {b : Block} {frames : List FrameNo}

theorem frames_eq (h : s.LaidIn b frames) : s.frames = frames := by
  rw [FrameSet.frames, h.slots, map_frame_mapIdx]

theorem size_eq (h : s.LaidIn b frames) : s.size = frames.length := by
  rw [FrameSet.size_eq, h.frames_eq]

theorem pages_eq (h : s.LaidIn b frames) (hb : b.IsPages frames.length)
    (hin : ∀ f ∈ frames, f.InSpace) :
    s.pages = .ok ((b.layout frames).map fun (bus, phys) => (phys, some bus)) := by
  have hpages : ∀ slot ∈ s.toList, ∀ page, slot.page = some page → page.InSpace := by
    intro slot hslot page hown
    rw [h.slots, List.mem_mapIdx] at hslot
    obtain ⟨k, hk, hslot⟩ := hslot
    rw [← hslot] at hown
    obtain rfl := Option.some.inj hown
    exact PageNo.inSpace_pageNo (b.page k)
  rw [pages_eq_ok (h.frames_eq ▸ hin) hpages, h.slots, Block.layout]
  refine congrArg Except.ok (List.ext_getElem? fun k => ?_)
  simp only [List.getElem?_map, List.getElem?_mapIdx, Option.map_map]
  cases hk : frames[k]? with
  | none => rfl
  | some f =>
    have hbase := hb.base_page (List.getElem?_eq_some_iff.mp hk).1
    simp [hbase]

theorem bound_eq (h : s.LaidIn b frames) (hb : b.IsPages frames.length)
    (hin : ∀ f ∈ frames, f.InSpace) : s.bound = .ok (b.layout frames) := by
  rw [bound, h.pages_eq hb hin, Checked.ok_bind, Checked.pure_eq, List.filterMap_map]
  exact congrArg Except.ok (List.filterMap_some)

theorem bindCalls_eq (h : s.LaidIn b frames) (hb : b.IsPages frames.length)
    (hin : ∀ f ∈ frames, f.InSpace) (traits : Traits) :
    s.bindCalls traits = .ok (b.binds frames traits) := by
  rw [bindCalls, h.bound_eq hb hin]
  rfl

theorem unbindCalls_eq (h : s.LaidIn b frames) (hb : b.IsPages frames.length)
    (hin : ∀ f ∈ frames, f.InSpace) : s.unbindCalls = .ok (b.unbinds frames) := by
  rw [unbindCalls, h.bound_eq hb hin]
  rfl

theorem busAddr?_eq (h : s.LaidIn b frames) (hb : b.IsPages frames.length) {a : PhysAddr}
    (ha : a.pageNo ∈ frames) : s.busAddr? a = .ok (some (b.busAddr frames a)) := by
  have hk : frames.idxOf a.pageNo < frames.length := List.idxOf_lt_length_of_mem ha
  have hslot : ⟨a.pageNo, some (b.page (frames.idxOf a.pageNo)).pageNo⟩ ∈ s.toList := by
    rw [h.slots, List.mem_mapIdx]
    exact ⟨_, hk, by rw [List.getElem_idxOf]⟩
  refine h.wellFormed.busAddr?_eq hslot (PageNo.inSpace_pageNo _) ?_
  rw [hb.base_page hk]
  exact Block.toNat_busAddr hb ha

end LaidIn

end FrameSet

end Aperture
