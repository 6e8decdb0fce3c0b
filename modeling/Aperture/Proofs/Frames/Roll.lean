import Aperture.Frames.Roll
import Aperture.Proofs.Frames.Arena
import Aperture.Proofs.Frames.Laid

namespace Aperture

namespace Checked

variable {ε α β : Type}

theorem exists_error_bind {x : Except ε α} (h : ∃ e, x = .error e) (f : α → Except ε β) :
    ∃ e, x >>= f = .error e := by
  obtain ⟨e, rfl⟩ := h
  exact ⟨e, rfl⟩

theorem exists_error_mapM {f : α → Except ε β} {a : α} {l : List α} (ha : a ∈ l)
    (h : ∃ e, f a = .error e) : ∃ e, l.mapM f = .error e := by
  induction l with
  | nil => cases ha
  | cons b l ih =>
    rw [List.mapM_cons]
    cases hb : f b with
    | error e => exact ⟨e, rfl⟩
    | ok b' =>
      cases List.mem_cons.mp ha with
      | inl he =>
        obtain ⟨e, he'⟩ := h
        rw [he, hb] at he'
        cases he'
      | inr hmem => exact exists_error_bind (ih hmem) _

end Checked

namespace PageNo

variable {s : Space} {p : PageNo s}

theorem exists_error_start (h : ¬ p.InSpace) : ∃ e, p.start = .error e := by
  cases hstart : p.start with
  | error e => exact ⟨e, rfl⟩
  | ok a =>
    obtain ⟨w, hw, -⟩ := Checked.map_eq_ok.mp hstart
    have hlt := w.isLt
    rw [Word.times_eq_ok_iff.mp hw] at hlt
    exact absurd hlt h

/-- A page that has an address has one for each of its bytes. -/
theorem exists_plus_offset (h : p.InSpace) (a : PhysAddr) :
    ∃ bus, p.base.plus a.pageOffset = .ok bus ∧
      bus.word.toNat = p.word.toNat * pageSize + a.word.toNat % pageSize := by
  have hlt : p.word.toNat * pageSize + a.word.toNat % pageSize < 2 ^ 64 := by
    refine Nat.lt_of_not_le fun hle => ?_
    unfold InSpace at h
    unfold pageSize at h hle
    omega
  refine ⟨⟨.ofNatLT _ hlt⟩, Addr.plus_eq_ok_iff.mpr ?_, BitVec.toNat_ofNatLT _ hlt⟩
  rw [toNat_base h, Addr.pageOffset_eq]
  exact BitVec.toNat_ofNatLT _ hlt

end PageNo

namespace Roll

variable {r : Roll} {frame : Nat}

theorem page?_of_mem {e : Nat × Option Nat} (he : e ∈ r.entries) : r.page? e.1 = e.2 := by
  unfold page?
  cases hfound : r.entries.find? fun e' => e'.1 == e.1 with
  | none =>
    have := List.find?_eq_none.mp hfound e he
    simp at this
  | some e' =>
    have hsame : e'.1 = e.1 := by simpa using List.find?_some hfound
    rw [List.inj_on_of_nodup_map r.distinct (List.mem_of_find?_eq_some hfound) he hsame]
    rfl

theorem page?_of_not_mem (h : frame ∉ r.frames) : r.page? frame = none := by
  have hnone : (r.entries.find? fun e => e.1 == frame) = none := by
    refine List.find?_eq_none.mpr fun e he heq => h ?_
    exact List.mem_map.mpr ⟨e, he, by simpa using heq⟩
  rw [page?, hnone]
  rfl

/-- What comes of a call, if what follows the roll is to keep to it: in range the answer is that of
the roll, which goes on being followed, and out of range there is a fault. -/
def Directs {σ : Type} (r : Roll) (Follows : σ → Roll → Prop) (c : FrameCall)
    (outcome : Checked (FrameAnswer × σ)) : Prop :=
  (r.InRange c ∧ ∃ s, outcome = .ok ((r.carryOut c).1, s) ∧ Follows s (r.carryOut c).2) ∨
    (¬ r.InRange c ∧ ∃ e, outcome = .error e)

end Roll

namespace FrameSlot

def numbers (slot : FrameSlot) : Nat × Option Nat :=
  (slot.frame.word.toNat, slot.page.map (·.word.toNat))

end FrameSlot

namespace FrameSet

/-- The slots have the numbers of the roll, and the frames are frames of memory. -/
structure Follows (s : FrameSet) (r : Roll) : Prop where
  wellFormed : s.WellFormed
  capacity : s.capacity = r.capacity
  entries : s.toList.map FrameSlot.numbers = r.entries
  inSpace : ∀ f ∈ s.frames, f.InSpace

theorem follows_ofCapacity (capacity : Nat) :
    (ofCapacity capacity).Follows (.ofCapacity capacity) := by
  refine ⟨wellFormed_ofCapacity capacity, rfl, rfl, fun f hf => ?_⟩
  simp [ofCapacity, frames, toList] at hf

/-- Giving pages out faults where their numbers run out. -/
theorem exists_error_assignFrom {page : PageNo .bus} {slots : List FrameSlot} {i : Nat}
    (hi : page.word.toNat + i ≤ 2 ^ 64) (h : 2 ^ 64 < page.word.toNat + i + slots.length) :
    ∃ e, assignFrom page i slots = .error e := by
  induction slots generalizing i with
  | nil =>
    rw [List.length_nil] at h
    omega
  | cons slot rest ih =>
    rw [List.length_cons] at h
    rw [assignFrom]
    cases hown : page.plus i with
    | error e => exact ⟨e, rfl⟩
    | ok own =>
      obtain ⟨w, hw, -⟩ := Checked.map_eq_ok.mp hown
      have hlt := w.isLt
      rw [Word.plus_eq_ok_iff.mp hw] at hlt
      exact Checked.exists_error_bind (ih (by omega) (by omega)) _

namespace Follows

variable {s : FrameSet} {r : Roll} (h : s.Follows r)

include h

theorem frames_eq : s.frames.map (·.word.toNat) = r.frames := by
  rw [Roll.frames, ← h.entries, frames, List.map_map, List.map_map]
  rfl

theorem mem_iff {f : FrameNo} : f ∈ s.frames ↔ f.word.toNat ∈ r.frames := by
  rw [← h.frames_eq, List.mem_map]
  constructor
  · intro hf
    exact ⟨f, hf, rfl⟩
  · intro hnumber
    obtain ⟨g, hg, he⟩ := hnumber
    have hsame : g = f := congrArg PageNo.mk (BitVec.eq_of_toNat_eq he)
    exact hsame ▸ hg

theorem size_eq : s.size = r.entries.length := by
  rw [← h.entries, List.length_map]
  rfl

theorem page?_eq (f : FrameNo) :
    ((s.find? f).bind (·.page)).map (·.word.toNat) = r.page? f.word.toNat := by
  cases hfound : s.find? f with
  | none =>
    have hout : f ∉ s.frames := by
      intro hf
      obtain ⟨slot, hslot⟩ := List.mem_map.mp hf
      rw [h.wellFormed.find?_eq_some_iff.mpr hslot] at hfound
      cases hfound
    exact (Roll.page?_of_not_mem fun hnumber => hout (h.mem_iff.mpr hnumber)).symm
  | some slot =>
    obtain ⟨hmem, rfl⟩ := h.wellFormed.find?_eq_some_iff.mp hfound
    have hentry : slot.numbers ∈ r.entries := h.entries ▸ List.mem_map_of_mem hmem
    exact (Roll.page?_of_mem hentry).symm

theorem add {f : FrameNo} (hin : f.InSpace) (hnew : f ∉ s.frames) (hroom : s.size < s.capacity)
    {r' : Roll} (hcapacity : r'.capacity = r.capacity)
    (hentries : r'.entries = r.entries ++ [(f.word.toNat, none)]) : (s.add f).Follows r' := by
  refine ⟨h.wellFormed.add hnew hroom, h.capacity.trans hcapacity.symm, ?_, fun g hg => ?_⟩
  · rw [toList_add, List.map_append, h.entries, hentries]
    rfl
  · rw [frames_add] at hg
    cases List.mem_append.mp hg with
    | inl hold => exact h.inSpace g hold
    | inr hmem => exact List.mem_singleton.mp hmem ▸ hin

theorem insert_eq (a : PhysAddr) :
    ∃ s', s.carryOut (.insert a) = .ok ((r.carryOut (.insert a)).1, s') ∧
      s'.Follows (r.carryOut (.insert a)).2 := by
  have hmem := h.mem_iff (f := a.pageNo)
  rw [Addr.toNat_pageNo] at hmem
  rw [carryOut, Roll.carryOut, Roll.insert]
  rcases h.wellFormed.insert_cases a with
    ⟨hold, hinsert⟩ | ⟨hnew, hfull, hinsert⟩ | ⟨hnew, hroom, hinsert⟩
  · rw [hinsert, dif_pos (hmem.mp hold)]
    exact ⟨s, rfl, h⟩
  · have hlength : r.entries.length = r.capacity := by
      have := r.length_le
      have := h.size_eq
      have := h.capacity
      omega
    rw [hinsert, dif_neg (fun hin => hnew (hmem.mpr hin)), dif_pos hlength]
    exact ⟨s, rfl, h⟩
  · have hlength : r.entries.length ≠ r.capacity := by
      have := h.size_eq
      have := h.capacity
      omega
    rw [hinsert, dif_neg (fun hin => hnew (hmem.mpr hin)), dif_neg hlength]
    exact ⟨_, rfl, h.add (PageNo.inSpace_pageNo a) hnew hroom rfl (by rw [Addr.toNat_pageNo])⟩

theorem assign_eq {page : PageNo .bus} (hin : page.word.toNat + r.entries.length ≤ 2 ^ 64) :
    ∃ s', s.assign page = .ok s' ∧ s'.Follows (r.assign page.word.toNat) := by
  have hlength : s.frames.length = r.entries.length := (FrameSet.size_eq s).symm.trans h.size_eq
  obtain ⟨s', hassign, hwell, hslots, hcapacity⟩ := h.wellFormed.assign (hlength ▸ hin)
  refine ⟨s', hassign, hwell, hcapacity.trans h.capacity, ?_, fun f hf => h.inSpace f ?_⟩
  · rw [hslots]
    refine List.ext_getElem? fun k => ?_
    show ((s.frames.mapIdx _).map FrameSlot.numbers)[k]? = (r.entries.mapIdx _)[k]?
    rw [← h.entries, FrameSet.frames, List.getElem?_map, List.getElem?_mapIdx, List.getElem?_mapIdx,
      List.getElem?_map, List.getElem?_map]
    cases hk : s.toList[k]? with
    | none => rfl
    | some slot =>
      have hindex : k < s.frames.length := by
        rw [FrameSet.frames, List.length_map]
        exact (List.getElem?_eq_some_iff.mp hk).1
      have hnumber : (page.skip k).word.toNat = page.word.toNat + k := by
        rw [PageNo.skip, BitVec.toNat_ofNat, Nat.mod_eq_of_lt]
        omega
      simp only [Option.map_some, FrameSlot.numbers, hnumber]
  · rw [FrameSet.frames, hslots, map_frame_mapIdx] at hf
    exact hf

theorem clear : s.clear.Follows (.ofCapacity r.capacity) := by
  rw [← h.capacity]
  exact follows_ofCapacity s.capacity

theorem directs_assign (page : PageNo .bus) :
    r.Directs Follows (.assign page) (s.carryOut (.assign page)) := by
  by_cases hin : page.word.toNat + r.entries.length ≤ 2 ^ 64
  · obtain ⟨s', hs', hfollows⟩ := h.assign_eq hin
    exact .inl ⟨hin, s', by rw [carryOut, hs']; rfl, hfollows⟩
  · have hpage := page.word.isLt
    have hsize : s.slots.toList.length = r.entries.length := h.size_eq
    have herror : ∃ e, assignFrom page 0 s.slots.toList = .error e :=
      exists_error_assignFrom (by omega) (by omega)
    exact .inr ⟨hin, Checked.exists_error_bind (Checked.exists_error_bind herror _) _⟩

theorem contains_eq (a : PhysAddr) :
    s.contains a = decide (a.word.toNat / pageSize ∈ r.frames) := by
  have hmem := h.mem_iff (f := a.pageNo)
  rw [Addr.toNat_pageNo] at hmem
  exact Bool.eq_iff_iff.mpr (h.wellFormed.contains_iff.trans (hmem.trans decide_eq_true_iff.symm))

theorem directs_translate (a : PhysAddr) :
    r.Directs Follows (.translate a) (s.carryOut (.translate a)) := by
  have hpage := h.page?_eq a.pageNo
  rw [Addr.toNat_pageNo] at hpage
  rw [carryOut, busAddr?]
  cases hfound : (s.find? a.pageNo).bind (·.page) with
  | none =>
    rw [hfound] at hpage
    refine .inl ⟨fun q hq => ?_, s, ?_, h⟩
    · rw [hq] at hpage
      cases hpage
    · rw [Roll.carryOut, ← hpage]
      rfl
  | some page =>
    rw [hfound] at hpage
    by_cases hin : page.InSpace
    · obtain ⟨bus, hbus, hnumber⟩ := PageNo.exists_plus_offset hin a
      refine .inl ⟨fun q hq => ?_, s, ?_, h⟩
      · obtain rfl := Option.some.inj (hpage.trans hq)
        exact hin
      · simp only [PageNo.start_eq_ok hin, Checked.ok_bind, hbus, Checked.pure_eq, Roll.carryOut,
          ← hpage, Option.map_some, ← hnumber, FrameAnswer.ofBus]
    · refine .inr ⟨fun hall => hin (hall _ hpage.symm), ?_⟩
      obtain ⟨e, he⟩ := PageNo.exists_error_start hin
      exact ⟨e, by simp only [he]; rfl⟩

/-- The starts that are read off the slots are those that the roll has. -/
theorem ofPages_eq (hall : ∀ slot ∈ s.toList, ∀ page, slot.page = some page → page.InSpace) :
    .ofPages (s.toList.map fun slot => (slot.frame.base, slot.page.map PageNo.base)) =
      (r.carryOut .pages).1 := by
  rw [Roll.carryOut, ← h.entries, FrameAnswer.ofPages, List.map_map, List.map_map]
  refine congrArg FrameAnswer.pages (List.map_congr_left fun slot hslot => ?_)
  have hframe := PageNo.toNat_base (h.inSpace slot.frame (List.mem_map_of_mem hslot))
  have hpage : (slot.page.map PageNo.base).map (·.word.toNat) =
      (slot.page.map (·.word.toNat)).map (· * pageSize) := by
    cases hown : slot.page with
    | none => rfl
    | some page => exact congrArg some (PageNo.toNat_base (hall slot hslot page hown))
  exact Prod.ext hframe hpage

theorem directs_pages : r.Directs Follows .pages (s.carryOut .pages) := by
  rw [carryOut]
  by_cases hall : ∀ slot ∈ s.toList, ∀ page, slot.page = some page → page.InSpace
  · refine .inl ⟨?_, s, ?_, h⟩
    · intro e he q hq
      rw [← h.entries] at he
      obtain ⟨slot, hslot, rfl⟩ := List.mem_map.mp he
      obtain ⟨page, hpage, rfl⟩ := Option.map_eq_some_iff.mp hq
      exact hall slot hslot page hpage
    · rw [← h.ofPages_eq hall]
      exact Checked.bind_eq_ok.mpr ⟨_, pages_eq_ok h.inSpace hall, rfl⟩
  · simp only [Classical.not_forall] at hall
    obtain ⟨slot, hslot, page, hown, hout⟩ := hall
    refine .inr ⟨fun hin => hout ?_, ?_⟩
    · have hentry : slot.numbers ∈ r.entries := h.entries ▸ List.mem_map_of_mem hslot
      exact hin _ hentry _ (by rw [FrameSlot.numbers, hown]; rfl)
    · rw [FrameSet.pages]
      refine Checked.exists_error_bind (Checked.exists_error_mapM hslot ?_) _
      rw [PageNo.start_eq_ok (h.inSpace slot.frame (List.mem_map_of_mem hslot)), Checked.ok_bind]
      obtain ⟨e, he⟩ := PageNo.exists_error_start hout
      exact ⟨e, by simp only [hown, he]; rfl⟩

/-- What a set does to follow a roll, whatever is asked of it. -/
theorem directs (c : FrameCall) : r.Directs Follows c (s.carryOut c) := by
  cases c with
  | insert a => exact .inl ⟨trivial, h.insert_eq a⟩
  | assign page => exact h.directs_assign page
  | clear => exact .inl ⟨trivial, s.clear, rfl, h.clear⟩
  | contains a => exact .inl ⟨trivial, s, by rw [carryOut, h.contains_eq a, Roll.carryOut], h⟩
  | translate a => exact h.directs_translate a
  | pages => exact h.directs_pages

end Follows

end FrameSet

end Aperture
