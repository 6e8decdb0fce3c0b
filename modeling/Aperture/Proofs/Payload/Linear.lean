import Aperture.Admission
import Aperture.Proofs.Frames.Laid
import Aperture.Proofs.Payload.Bytes
import Mathlib.Data.List.Pairwise

namespace Aperture

theorem Block.toNat_busAddr_of_split {b : Block} {frames before after : List FrameNo} {a : PhysAddr}
    (hframes : frames = before ++ a.pageNo :: after) (hb : b.IsPages frames.length)
    (hnodup : frames.Nodup) : (b.busAddr frames a).word.toNat =
      b.start.toNat + before.length * pageSize + a.pageOffset := by
  subst hframes
  have hnew : a.pageNo ∉ before := fun hmem =>
    (List.nodup_append.mp hnodup).2.2 _ hmem _ (List.mem_cons_self ..) rfl
  have hidx : (before ++ a.pageNo :: after).idxOf a.pageNo = before.length := by
    rw [List.idxOf_append_of_notMem hnew, List.idxOf_cons_self, Nat.add_zero]
  rw [toNat_busAddr hb (by simp), hidx, hb.toNat_page (by simp)]

theorem PageNo.pageNo_ofNat {f : FrameNo} (hf : f.InSpace) {n : Nat} (hn : n < pageSize) :
    (⟨.ofNat 64 (f.word.toNat * pageSize + n)⟩ : PhysAddr).pageNo = f := by
  have hword : (⟨.ofNat 64 (f.word.toNat * pageSize + n)⟩ : PhysAddr).pageNo.word = f.word := by
    apply BitVec.eq_of_toNat_eq
    rw [Addr.toNat_pageNo, BitVec.toNat_ofNat]
    unfold PageNo.InSpace at hf
    unfold pageSize at hf hn ⊢
    omega
  exact congrArg PageNo.mk hword

namespace VirtSpace

variable {id : Nat} {pages : List (PageNo .virt × Array FrameNo)}

theorem of_lookup_ofPages {a : VirtAddr} {p : PhysAddr} (h : (ofPages id pages).lookup a = some p) :
    ∃ x ∈ pages, ∃ f, x.1.word.toNat ≤ a.pageNo.word.toNat ∧
      x.2.toList[a.pageNo.word.toNat - x.1.word.toNat]? = some f ∧
      p = ⟨.ofNat 64 (f.word.toNat * pageSize + a.pageOffset)⟩ := by
  obtain ⟨f, hlast, rfl⟩ := Option.map_eq_some_iff.mp h
  obtain ⟨⟨first, frames⟩, hx, hfound⟩ := List.mem_filterMap.mp (List.mem_of_getLast? hlast)
  dsimp only at hfound
  by_cases hle : first.word ≤ a.pageNo.word
  · rw [if_pos hle, ← Array.getElem?_toList] at hfound
    exact ⟨_, hx, f, BitVec.le_def.mp hle, hfound, rfl⟩
  · rw [if_neg hle] at hfound
    cases hfound

theorem entry_unique (hnodup : (pages.flatMap (·.2.toList)).Nodup)
    {x y : PageNo .virt × Array FrameNo} (hx : x ∈ pages) (hy : y ∈ pages) {f : FrameNo}
    (hfx : f ∈ x.2.toList) (hfy : f ∈ y.2.toList) : x = y := by
  by_contra hne
  have hsymm : Std.Symm (Function.onFun List.Disjoint
      fun x : PageNo .virt × Array FrameNo => x.2.toList) := ⟨fun _ _ => List.disjoint_symm⟩
  exact (List.nodup_flatMap.mp hnodup).2.forall hx hy hne hfx hfy

/-- Where no frame is listed twice, different pages are in different frames. -/
theorem separates_ofPages (hnodup : (pages.flatMap (·.2.toList)).Nodup)
    (hin : ∀ f ∈ pages.flatMap (·.2.toList), f.InSpace) (r : Run .virt) :
    (ofPages id pages).Separates r := by
  intro a b _ _ p q hp hq hsame
  obtain ⟨x, hx, f, hxle, hf, rfl⟩ := of_lookup_ofPages hp
  obtain ⟨y, hy, g, hyle, hg, rfl⟩ := of_lookup_ofPages hq
  have hfx := List.mem_of_getElem? hf
  have hgy := List.mem_of_getElem? hg
  rw [PageNo.pageNo_ofNat (hin f (List.mem_flatMap.mpr ⟨x, hx, hfx⟩)) a.pageOffset_lt,
    PageNo.pageNo_ofNat (hin g (List.mem_flatMap.mpr ⟨y, hy, hgy⟩)) b.pageOffset_lt] at hsame
  subst hsame
  obtain rfl := entry_unique hnodup hx hy hfx hgy
  have honce := (List.nodup_flatMap.mp hnodup).1 x hx
  have hplace := (List.getElem?_inj (List.getElem?_eq_some_iff.mp hf).1 honce).mp
    (hf.trans hg.symm)
  have hword : a.pageNo.word = b.pageNo.word := BitVec.eq_of_toNat_eq (by omega)
  exact congrArg PageNo.mk hword

end VirtSpace

namespace Resolution

section Walks

variable {s : Space} {find : Addr s → Except Declined PhysAddr} {wraps : Declined} {a : Addr s}
  {n : Nat} {res : Resolution} (h : Walks find wraps a n res)

include h

/-- Each run is where one of the addresses is found. -/
theorem Walks.found : ∀ r ∈ res.runs, ∃ x : Addr s,
    x.word.toNat ∈ List.range' a.word.toNat n ∧ find x = .ok r.addr := by
  induction h with
  | done => simp
  | hole => simp
  | @last a n r hn hfind =>
    simp only [List.mem_singleton, forall_eq]
    exact ⟨a, List.mem_range'_1.mpr (by omega), hfind⟩
  | @top a n r hfind _ hout =>
    simp only [List.mem_singleton, forall_eq]
    exact ⟨a, List.mem_range'_1.mpr (by omega), hfind⟩
  | @next a b n r rest hfind _ hout hnext _ ih =>
    intro r' hr'
    cases List.mem_cons.mp hr' with
    | inl he => exact ⟨a, List.mem_range'_1.mpr (by omega), he ▸ hfind⟩
    | inr hrest =>
      obtain ⟨x, hx, hfound⟩ := ih r' hrest
      rw [List.mem_range'_1] at hx
      exact ⟨x, List.mem_range'_1.mpr (by omega), hfound⟩

/-- Where different pages are in different frames, no frame is met twice. -/
theorem Walks.nodup_pageNo (hapart : ∀ x y : Addr s, x.word.toNat ∈ List.range' a.word.toNat n →
      y.word.toNat ∈ List.range' a.word.toNat n → ∀ p q, find x = .ok p → find y = .ok q →
      p.pageNo = q.pageNo → x.pageNo = y.pageNo) :
    (res.runs.map (·.addr.pageNo)).Nodup := by
  induction h with
  | done => simp
  | hole => simp
  | last => simp
  | top => simp
  | @next a b n r rest hfind hlength hout hnext hrest ih =>
    have hlater {x : Addr s} (hx : x.word.toNat ∈ List.range' b.word.toNat (n - r.length.toNat)) :
        x.word.toNat ∈ List.range' a.word.toNat n := by
      rw [List.mem_range'_1] at hx ⊢
      omega
    refine List.nodup_cons.mpr ⟨fun hmem => ?_, ih fun x y hx hy =>
      hapart x y (hlater hx) (hlater hy)⟩
    obtain ⟨r', hr', hpage⟩ := List.mem_map.mp hmem
    obtain ⟨x, hx, hfound⟩ := hrest.found r' hr'
    have hsame := hapart a x (List.mem_range'_1.mpr (by omega)) (hlater hx) _ _ hfind hfound
      hpage.symm
    -- the rest begins in the next page
    have hpages := congrArg (·.word.toNat) hsame
    simp only [Addr.toNat_pageNo] at hpages
    rw [List.mem_range'_1] at hx
    rw [Addr.pageOffset_eq] at hlength
    unfold pageSize at hpages hlength
    omega

/-- Laid into a block after some other frames, the runs follow one another on the bus. -/
theorem Walks.bytes_bus (hdone : res.failure = none)
    (hoffset : ∀ x p, find x = .ok p → p.pageOffset = x.pageOffset) {b : Block}
    {before frames : List FrameNo} (hframes : frames = before ++ res.runs.map (·.addr.pageNo))
    (hb : b.IsPages frames.length) (hnodup : frames.Nodup) :
    res.runs.flatMap (fun r => Run.bytes ⟨b.busAddr frames r.addr, r.length⟩) =
      List.range' (b.start.toNat + before.length * pageSize + a.pageOffset) n := by
  have hfirst {before after : List FrameNo} {a : Addr s} {r : Run .phys}
      (hr : find a = .ok r.addr) (hsplit : frames = before ++ r.addr.pageNo :: after) :
      Run.bytes ⟨b.busAddr frames r.addr, r.length⟩ =
        List.range' (b.start.toNat + before.length * pageSize + a.pageOffset) r.length.toNat := by
    rw [Run.bytes, Block.toNat_busAddr_of_split hsplit hb hnodup, hoffset a _ hr]
  induction h generalizing before with
  | done => rfl
  | hole => cases hdone
  | last _ hr hlength =>
    rw [List.flatMap_singleton, hfirst hr hframes, hlength]
  | top => cases hdone
  | @next a c n r rest hr hlength hout hnext _ ih =>
    have hframes' : frames = (before ++ [r.addr.pageNo]) ++ rest.runs.map (·.addr.pageNo) := by
      rw [hframes, List.append_assoc]
      rfl
    have hstart : c.pageOffset = 0 := by
      rw [Addr.pageOffset_eq] at hlength ⊢
      unfold pageSize at hlength ⊢
      omega
    have hpages : b.start.toNat + (before ++ [r.addr.pageNo]).length * pageSize + c.pageOffset =
        b.start.toNat + before.length * pageSize + a.pageOffset + r.length.toNat := by
      rw [hstart, List.length_append, List.length_singleton, Nat.succ_mul]
      omega
    show Run.bytes _ ++ rest.runs.flatMap _ = _
    rw [hfirst hr hframes, ih hdone hframes', hpages, List.range'_append_1,
      Nat.add_sub_cancel' (Nat.le_of_lt hout)]

end Walks

end Resolution

namespace Run

variable {r : Run .virt} {v : VirtSpace}

theorem frames_of_nodup {runs : List (Run .phys)} (hpos : ∀ r ∈ runs, 0 < r.length.toNat)
    (hnodup : (runs.map (·.addr.pageNo)).Nodup) :
    frames runs = runs.map (·.addr.pageNo) ∧ (runs.filter fun r => !r.isEmpty) = runs := by
  have hall : (runs.filter fun r => !r.isEmpty) = runs := by
    refine List.filter_eq_self.mpr fun r hr => ?_
    rw [isEmpty_eq_false_iff.mpr (hpos r hr)]
    rfl
  exact ⟨by rw [frames, pageNos, hall, eraseDups_of_nodup hnodup], hall⟩

/-- The bytes of a run are on the bus where its frame is. -/
theorem bytes_busAddr {runs : List (Run .phys)} {r : Run .phys} (hr : r ∈ runs)
    (he : r.isEmpty = false) (hin : r.InPage) {b : Block} (hb : b.IsPages (frames runs).length) :
    Run.bytes ⟨b.busAddr (frames runs) r.addr, r.length⟩ = r.bytes.map fun n =>
      b.start.toNat + (frames runs).idxOf (frameAt n) * pageSize + n % pageSize := by
  have hmem : r.addr.pageNo ∈ frames runs := mem_frames.mpr ⟨r, hr, he, rfl⟩
  have hbase : (b.busAddr (frames runs) r.addr).word.toNat =
      b.start.toNat + (frames runs).idxOf r.addr.pageNo * pageSize + r.addr.pageOffset := by
    rw [Block.toNat_busAddr hb hmem, hb.toNat_page (List.idxOf_lt_length_of_mem hmem)]
  rw [bytes, bytes, hbase, List.range'_eq_map_range, List.range'_eq_map_range, List.map_map]
  refine List.map_congr_left fun i hi => ?_
  have hlt : i < r.length.toNat := List.mem_range.mp hi
  have hn : r.addr.word.toNat + i ∈ r.bytes := List.mem_range'_1.mpr (by omega)
  have hpage : frameAt (r.addr.word.toNat + i) = r.addr.pageNo :=
    List.eq_of_mem_replicate (Payload.map_frameAt_bytes hin ▸ List.mem_map_of_mem hn)
  have hoff := r.addr.pageOffset_eq
  unfold InPage at hin
  unfold pageSize at *
  rw [Function.comp_apply, hpage]
  omega

/-- Where runs inside pages are on the bus depends on their bytes only, not on how these are cut. -/
theorem busBytes_eq {runs : List (Run .phys)} (hin : ∀ r ∈ runs, r.isEmpty = false → r.InPage)
    {b : Block} (hb : b.IsPages (frames runs).length) :
    b.busBytes runs = (runs.flatMap bytes).map fun n =>
      b.start.toNat + (frames runs).idxOf (frameAt n) * pageSize + n % pageSize := by
  -- the frames are those of all runs while the induction is on some of them
  have hsub (rs : List (Run .phys)) (hrs : ∀ r ∈ rs, r ∈ runs) :
      ((b.ranges (frames runs) rs).map stretch).flatMap Stretch.bytes =
        (rs.flatMap bytes).map fun n =>
          b.start.toNat + (frames runs).idxOf (frameAt n) * pageSize + n % pageSize := by
    induction rs with
    | nil => rfl
    | cons r rest ih =>
      have ih := ih fun x hx => hrs x (List.mem_cons_of_mem _ hx)
      have hr := hrs r List.mem_cons_self
      unfold Block.ranges at ih ⊢
      cases he : r.isEmpty with
      | true =>
        rw [List.filter_cons_of_neg (by simp [he]), List.flatMap_cons, bytes_eq_nil he]
        exact ih
      | false =>
        rw [List.filter_cons_of_pos (by simp [he]), List.map_cons, List.map_cons,
          List.flatMap_cons, List.flatMap_cons, List.map_append, ih,
          ← bytes_busAddr hr he (hin r hr he) hb]
        rfl
  exact hsub runs fun _ h => h

/-- A virtual run whose pages are in different frames is in one piece on the bus. -/
theorem busBytes_resolve (hoffset : v.KeepsOffsets) (hapart : v.Separates r)
    (hdone : (r.resolve v).failure = none) {b : Block}
    (hb : b.IsPages (frames (r.resolve v).runs).length) :
    b.busBytes (r.resolve v).runs =
      List.range' (b.start.toNat + r.addr.pageOffset) r.length.toNat := by
  have hwalks : Resolution.Walks _ _ r.addr r.length.toNat (r.resolve v) :=
    Resolution.walks ..
  have hpages := hwalks.nodup_pageNo fun x y hx hy p q hp hq =>
    hapart x y hx hy p q (VirtSpace.lookup_of_found hp) (VirtSpace.lookup_of_found hq)
  obtain ⟨hframes, hall⟩ := frames_of_nodup hwalks.length_pos hpages
  have hnone : frames (r.resolve v).runs = [] ++ (r.resolve v).runs.map (·.addr.pageNo) := hframes
  have hbytes := hwalks.bytes_bus hdone (fun x p h => hoffset x p (VirtSpace.lookup_of_found h))
    hnone hb (nodup_frames _)
  rw [List.length_nil, Nat.zero_mul, Nat.add_zero] at hbytes
  rw [Block.busBytes, Block.stretches, Block.ranges, hall, List.map_map, List.flatMap_map]
  exact hbytes

end Run

end Aperture
