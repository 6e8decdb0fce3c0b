import Aperture.Layout
import Mathlib.Data.List.Nodup

namespace Aperture

section FirstOccurrences

variable {α : Type} [BEq α] [LawfulBEq α]

theorem nodup_eraseDups (l : List α) : l.eraseDups.Nodup := by
  match l with
  | [] => exact List.nodup_nil
  | a :: l =>
    rw [List.eraseDups_cons]
    have hlen := List.length_filter_le (fun b => !b == a) l
    refine List.nodup_cons.mpr ⟨?_, nodup_eraseDups _⟩
    intro h
    have := (List.mem_filter.mp (List.mem_eraseDups.mp h)).2
    simp at this
termination_by l.length

theorem eraseDups_of_nodup {l : List α} (h : l.Nodup) : l.eraseDups = l := by
  induction l with
  | nil => rfl
  | cons a l ih =>
    obtain ⟨ha, hl⟩ := List.nodup_cons.mp h
    have hfilter : l.filter (fun b => !b == a) = l := List.filter_eq_self.mpr fun b hb => by
      have hne : b ≠ a := fun he => ha (he ▸ hb)
      simpa using hne
    rw [List.eraseDups_cons, hfilter, ih hl]

theorem eraseDups_append_cons {a : α} {l : List α} (h : a ∈ l) (rest : List α) :
    (l ++ a :: rest).eraseDups = (l ++ rest).eraseDups := by
  have hdrop : (a :: rest).removeAll l = rest.removeAll l := by simp [List.removeAll, h]
  rw [List.eraseDups_append, List.eraseDups_append, hdrop]

end FirstOccurrences

namespace Run

theorem nodup_frames (runs : List (Run .phys)) : (frames runs).Nodup := nodup_eraseDups _

theorem mem_frames {runs : List (Run .phys)} {f : FrameNo} :
    f ∈ frames runs ↔ ∃ r ∈ runs, r.isEmpty = false ∧ r.addr.pageNo = f := by
  simp [frames, pageNos, and_assoc]

theorem length_frames_le_of_isPrefix {first runs : List (Run .phys)} (h : first <+: runs) :
    (frames first).length ≤ (frames runs).length := by
  refine (nodup_frames first).length_le_of_subset fun f hf => ?_
  obtain ⟨r, hr, hrest⟩ := mem_frames.mp hf
  exact mem_frames.mpr ⟨r, h.subset hr, hrest⟩

/-- After the frames in `seen`, the first of the runs touch too many frames, and none of them
reaches into a second page. -/
def Overfill (capacity : Nat) (seen : List FrameNo) (runs : List (Run .phys)) : Prop :=
  ∃ first, first <+: runs ∧ (∀ r ∈ first, r.isEmpty = false → r.InPage) ∧
    capacity < (seen ++ pageNos first).eraseDups.length

theorem Overfill.cons {capacity : Nat} {seen : List FrameNo} {r : Run .phys}
    {rest : List (Run .phys)} (hin : r.isEmpty = false → r.InPage)
    (h : Overfill capacity (seen ++ pageNos [r]) rest) : Overfill capacity seen (r :: rest) := by
  obtain ⟨first, hfirst, hall, hmany⟩ := h
  refine ⟨r :: first, List.cons_prefix_cons.mpr ⟨rfl, hfirst⟩, fun r' hr' => ?_, ?_⟩
  · cases List.mem_cons.mp hr' with
    | inl he => exact he ▸ hin
    | inr hmem => exact hall r' hmem
  · have hpages : pageNos (r :: first) = pageNos [r] ++ pageNos first := by
      rw [← List.singleton_append, pageNos, List.filter_append, List.map_append]
      rfl
    rw [hpages, ← List.append_assoc]
    exact hmany

theorem Overfill.lt_length {capacity : Nat} {runs : List (Run .phys)}
    (h : Overfill capacity [] runs) : capacity < (frames runs).length := by
  obtain ⟨first, hfirst, -, hmany⟩ := h
  exact Nat.lt_of_lt_of_le hmany (length_frames_le_of_isPrefix hfirst)

end Run

namespace FrameSet

namespace WellFormed

variable {s : FrameSet}

/-- No frame is recorded twice: the tree finds one slot for each. -/
theorem nodup_frames (h : s.WellFormed) : s.frames.Nodup := by
  refine List.nodup_iff_getElem?_ne_getElem?.mpr ?_
  intro i j hij hj he
  have hi : i < s.frames.length := Nat.lt_trans hij hj
  have hfound (k : Nat) (hk : s.frames[k]? = s.frames[i]?) :
      s.slotOf[s.frames[i].word]? = some k := by
    rw [h.slotOf_eq_some_iff, ← List.getElem?_map]
    exact hk.trans (List.getElem?_eq_getElem hi)
  have := (hfound i rfl).symm.trans (hfound j he.symm)
  simp only [Option.some.injEq] at this
  omega

theorem find?_eq_some_iff (h : s.WellFormed) {f : FrameNo} {slot : FrameSlot} :
    s.find? f = some slot ↔ slot ∈ s.toList ∧ slot.frame = f := by
  have hslots (i : Nat) : s.slots[i]? = s.toList[i]? := by simp [toList]
  simp only [find?, Option.bind_eq_bind, Option.bind_eq_some_iff, hslots, h.slotOf_eq_some_iff]
  constructor
  · intro hi
    obtain ⟨i, hframe, hslot⟩ := hi
    rw [hslot] at hframe
    exact ⟨List.mem_of_getElem? hslot, Option.some.inj hframe⟩
  · intro hmem
    obtain ⟨hslot, hframe⟩ := hmem
    obtain ⟨i, hi⟩ := List.mem_iff_getElem?.mp hslot
    exact ⟨i, by rw [hi, Option.map_some, hframe], hi⟩

theorem contains_iff (h : s.WellFormed) {a : PhysAddr} : s.contains a ↔ a.pageNo ∈ s.frames := by
  unfold contains
  rw [Option.isSome_iff_exists]
  simp only [h.find?_eq_some_iff, frames, List.mem_map]

/-- A frame that is recorded stays as it is; a new one is recorded if there is room. -/
theorem insert_cases (h : s.WellFormed) (a : PhysAddr) :
    (a.pageNo ∈ s.frames ∧ s.insert a = .ok s) ∨
    (a.pageNo ∉ s.frames ∧ s.capacity ≤ s.size ∧ s.insert a = .error .tooManyFrames) ∨
    (a.pageNo ∉ s.frames ∧ s.size < s.capacity ∧ s.insert a = .ok (s.add a.pageNo)) := by
  unfold FrameSet.insert
  by_cases hold : s.contains a
  · exact .inl ⟨h.contains_iff.mp hold, if_pos hold⟩
  have hnew : a.pageNo ∉ s.frames := fun hmem => hold (h.contains_iff.mpr hmem)
  rw [if_neg hold]
  by_cases hfull : s.capacity ≤ s.size
  · exact .inr (.inl ⟨hnew, hfull, if_pos hfull⟩)
  · exact .inr (.inr ⟨hnew, Nat.lt_of_not_le hfull, if_neg hfull⟩)

end WellFormed

section Record

variable {s : FrameSet} {r : Run .phys} {rest : List (Run .phys)}

theorem record_cons_of_empty (he : r.isEmpty = true) : s.record (r :: rest) = s.record rest := by
  rw [record, if_pos he]

theorem record_cons_of_inPage (he : r.isEmpty = false) (hin : r.InPage) :
    s.record (r :: rest) =
      match s.insert r.addr with
      | .error reason => .ok (.error ⟨reason, some (.recordFull r.addr.pageBase s.capacity)⟩)
      | .ok grown => grown.record rest := by
  unfold Run.InPage at hin
  have hlt : r.length.toNat + r.addr.pageOffset < 2 ^ 64 := by
    unfold pageSize at hin
    omega
  have hreach : r.length.plus r.addr.pageOffset = .ok (.ofNatLT _ hlt) :=
    Word.plus_eq_ok_iff.mpr (BitVec.toNat_ofNatLT _ hlt)
  have hshort : ¬ pageSize < r.length.toNat + r.addr.pageOffset := by omega
  rw [record, he, if_neg Bool.false_ne_true, hreach, Checked.ok_bind, BitVec.toNat_ofNatLT,
    if_neg hshort]
  rfl

theorem inPage_of_record {outcome : Except Declined FrameSet} (he : r.isEmpty = false)
    (h : s.record (r :: rest) = .ok outcome) : r.InPage := by
  rw [record, he, if_neg Bool.false_ne_true] at h
  obtain ⟨reach, hreach, h⟩ := Checked.bind_eq_ok.mp h
  rw [Word.plus_eq_ok_iff] at hreach
  by_cases hlong : pageSize < reach.toNat
  · rw [if_pos hlong] at h
    cases h
  · unfold Run.InPage
    omega

end Record

/-- A new frame where the frames before it fill the record is one too many. -/
theorem lt_length_of_full {fs rest : List FrameNo} {f : FrameNo} {capacity : Nat} (hfs : fs.Nodup)
    (hfull : capacity ≤ fs.length) (hnew : f ∉ fs) :
    capacity < (fs ++ f :: rest).eraseDups.length := by
  have hkeep : (f :: rest).removeAll fs = f :: rest.removeAll fs := by simp [List.removeAll, hnew]
  rw [List.eraseDups_append, eraseDups_of_nodup hfs, hkeep, List.eraseDups_cons,
    List.length_append, List.length_cons]
  omega

/-- Recording some runs: the frames are those recorded before and then the new ones in order, and
all are recorded without a page, or those of the first runs are too many. No run up to there reaches
into a second page. -/
theorem record_cases {s : FrameSet} (hs : s.WellFormed) {runs : List (Run .phys)}
    {outcome : Except Declined FrameSet} (h : s.record runs = .ok outcome) :
    match outcome with
    | .error d => d.reason = .tooManyFrames ∧ Run.Overfill s.capacity s.frames runs
    | .ok s' => s'.WellFormed ∧ s'.capacity = s.capacity ∧
        s'.frames = (s.frames ++ Run.pageNos runs).eraseDups ∧
        (∀ r ∈ runs, r.isEmpty = false → r.InPage) ∧
        ((∀ slot ∈ s.toList, slot.page = none) → ∀ slot ∈ s'.toList, slot.page = none) := by
  induction runs generalizing s with
  | nil =>
    obtain rfl := Except.ok.inj h
    simp [hs, Run.pageNos, eraseDups_of_nodup hs.nodup_frames]
  | cons r rest ih =>
    cases he : r.isEmpty with
    | true =>
      rw [record_cons_of_empty he] at h
      have hpages : Run.pageNos (r :: rest) = Run.pageNos rest := by simp [Run.pageNos, he]
      have hnone : s.frames ++ Run.pageNos [r] = s.frames := by simp [Run.pageNos, he]
      have hrest := ih hs h
      rw [hpages]
      cases outcome with
      | error d =>
        refine ⟨hrest.1, .cons (by simp [he]) ?_⟩
        rw [hnone]
        exact hrest.2
      | ok s' => simp_all
    | false =>
      have hpages : Run.pageNos (r :: rest) = r.addr.pageNo :: Run.pageNos rest := by
        simp [Run.pageNos, he]
      have hone : Run.pageNos [r] = [r.addr.pageNo] := by simp [Run.pageNos, he]
      have hin := inPage_of_record he h
      rw [record_cons_of_inPage he hin] at h
      rw [hpages]
      rcases hs.insert_cases r.addr with
        ⟨hold, hinsert⟩ | ⟨hnew, hfull, hinsert⟩ | ⟨hnew, hroom, hinsert⟩
      · rw [hinsert] at h
        rw [eraseDups_append_cons hold]
        have hrest := ih hs h
        cases outcome with
        | error d =>
          obtain ⟨hreason, first, hfirst, hall, hmany⟩ := hrest
          refine ⟨hreason, .cons (fun _ => hin) ⟨first, hfirst, hall, ?_⟩⟩
          rw [hone, List.append_assoc, List.singleton_append, eraseDups_append_cons hold]
          exact hmany
        | ok s' => simp_all
      · rw [hinsert] at h
        obtain rfl := Except.ok.inj h
        rw [size_eq] at hfull
        have hmany : _ < (s.frames ++ [r.addr.pageNo]).eraseDups.length :=
          lt_length_of_full hs.nodup_frames hfull hnew
        refine ⟨rfl, .cons (fun _ => hin) ⟨[], List.nil_prefix, nofun, ?_⟩⟩
        rw [hone, show Run.pageNos [] = [] from rfl, List.append_nil]
        exact hmany
      · rw [hinsert] at h
        have hrest := ih (hs.add hnew hroom) h
        have hslots : (∀ slot ∈ s.toList, slot.page = none) →
            ∀ slot ∈ (s.add r.addr.pageNo).toList, slot.page = none := by
          intro hnone slot hslot
          rw [toList_add] at hslot
          cases List.mem_append.mp hslot with
          | inl hmem => exact hnone slot hmem
          | inr hmem => rw [List.mem_singleton.mp hmem]
        cases outcome with
        | error d =>
          rw [frames_add] at hrest
          refine ⟨hrest.1, .cons (fun _ => hin) ?_⟩
          rw [hone]
          exact hrest.2
        | ok s' =>
          rw [frames_add, List.append_assoc, List.singleton_append] at hrest
          obtain ⟨hwf, hcap, hframes, hruns, hpage⟩ := hrest
          refine ⟨hwf, hcap, hframes, ?_, fun hnone => hpage (hslots hnone)⟩
          intro r' hr' he'
          cases List.mem_cons.mp hr' with
          | inl heq => subst heq; exact hin
          | inr hmem => exact hruns r' hmem he'

/-- From an empty set, exactly the distinct frames of the runs are recorded. -/
theorem record_ofCapacity {capacity : Nat} {runs : List (Run .phys)}
    {outcome : Except Declined FrameSet}
    (h : (ofCapacity capacity).record runs = .ok outcome) :
    match outcome with
    | .error d => d.reason = .tooManyFrames ∧ Run.Overfill capacity [] runs
    | .ok s => s.WellFormed ∧ s.capacity = capacity ∧
        s.toList = (Run.frames runs).map (⟨·, none⟩) ∧
        ∀ r ∈ runs, r.isEmpty = false → r.InPage := by
  have hempty : (ofCapacity capacity).frames = [] := by simp [ofCapacity, frames, toList]
  have hcases := record_cases (wellFormed_ofCapacity capacity) h
  rw [hempty] at hcases
  cases outcome with
  | error d => exact hcases
  | ok s =>
    obtain ⟨hwf, hcap, hframes, hruns, hpage⟩ := hcases
    rw [List.nil_append] at hframes
    have hnone := hpage (by simp [ofCapacity, toList])
    refine ⟨hwf, hcap, ?_, hruns⟩
    have hslots : s.toList.map (fun slot => (⟨slot.frame, none⟩ : FrameSlot)) = s.toList :=
      (List.map_congr_left fun slot hslot => by rw [← hnone slot hslot]).trans (List.map_id' _)
    rw [Run.frames, ← hframes, frames, List.map_map]
    exact hslots.symm

/-- Recording runs that do not leave their pages never faults, and notes the capacity if it is not
enough. -/
theorem record_isOk {s : FrameSet} (hs : s.WellFormed) {runs : List (Run .phys)}
    (h : ∀ r ∈ runs, r.isEmpty = false → r.InPage) :
    ∃ outcome, s.record runs = .ok outcome ∧
      ∀ d, outcome = .error d → ∃ page, d.notice = some (.recordFull page s.capacity) := by
  induction runs generalizing s with
  | nil => exact ⟨.ok s, rfl, fun d hd => by cases hd⟩
  | cons r rest ih =>
    have hrest {s : FrameSet} (hs : s.WellFormed) := ih hs fun r' hr' => h r' (by simp [hr'])
    cases he : r.isEmpty with
    | true =>
      rw [record_cons_of_empty he]
      exact hrest hs
    | false =>
      rw [record_cons_of_inPage he (h r (by simp) he)]
      rcases hs.insert_cases r.addr with
        ⟨-, hinsert⟩ | ⟨-, -, hinsert⟩ | ⟨hnew, hroom, hinsert⟩
      · rw [hinsert]
        exact hrest hs
      · rw [hinsert]
        refine ⟨_, rfl, fun d hd => ?_⟩
        obtain rfl := Except.error.inj hd
        exact ⟨_, rfl⟩
      · rw [hinsert]
        exact hrest (hs.add hnew hroom)

/-- From an empty set, runs that do not leave their pages are recorded unless their frames are too
many. -/
theorem record_of_inPage (capacity : Nat) {runs : List (Run .phys)}
    (h : ∀ r ∈ runs, r.isEmpty = false → r.InPage) :
    (capacity < (Run.frames runs).length ∧ ∃ page, (ofCapacity capacity).record runs =
      .ok (.error ⟨.tooManyFrames, some (.recordFull page capacity)⟩)) ∨
    ((Run.frames runs).length ≤ capacity ∧
      ∃ s, (ofCapacity capacity).record runs = .ok (.ok s)) := by
  obtain ⟨outcome, hrecord, hnotice⟩ := record_isOk (wellFormed_ofCapacity capacity) h
  have hcases := record_ofCapacity hrecord
  cases outcome with
  | error d =>
    obtain ⟨page, hpage⟩ := hnotice d rfl
    obtain ⟨reason, notice⟩ := d
    obtain ⟨rfl, hmany⟩ := hcases
    obtain rfl : notice = some (.recordFull page capacity) := hpage
    exact .inl ⟨hmany.lt_length, page, hrecord⟩
  | ok s =>
    obtain ⟨hs, hcapacity, hslots, -⟩ := hcases
    have hsize := hs.size_le
    rw [size_eq, FrameSet.frames, hslots, List.map_map, List.length_map, hcapacity] at hsize
    exact .inr ⟨hsize, s, hrecord⟩

end FrameSet

end Aperture
