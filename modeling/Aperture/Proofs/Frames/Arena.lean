import Aperture.Bisect
import Aperture.Frames.Arena
import Aperture.Proofs.Frames.Record

namespace Aperture

namespace FrameSet

/-- Pages are all that an assignment changes. -/
theorem map_frame_assignFrom {page : PageNo .bus} {i : Nat} {slots assigned : List FrameSlot}
    (h : assignFrom page i slots = .ok assigned) :
    assigned.map (·.frame) = slots.map (·.frame) := by
  induction slots generalizing i assigned with
  | nil =>
    obtain rfl := Except.ok.inj h
    rfl
  | cons slot rest ih =>
    obtain ⟨own, -, h⟩ := Checked.bind_eq_ok.mp h
    obtain ⟨later, hlater, h⟩ := Checked.bind_eq_ok.mp h
    obtain rfl := Except.ok.inj h
    exact congrArg (slot.frame :: ·) (ih hlater)

end FrameSet

namespace Arena

variable {a a' : Arena} {s s' : FrameSet} {f g : FrameNo} {i j : Nat}

def index (a : Arena) : List Nat := a.order.toList.take a.size

/-- The arena holds the set: its live slots are those of the set, and its live places are the
positions of these slots, sorted by frame. -/
structure Holds (a : Arena) (s : FrameSet) : Prop where
  capacity : a.slots.size = s.capacity
  order_size : a.order.size = a.slots.size
  size_le : a.size ≤ a.slots.size
  live : a.live = s.toList
  base : a.base = s.base
  perm : a.index.Perm (List.range a.size)
  sorted : a.index.Pairwise fun i j =>
    ∀ f g, s.frames[i]? = some f → s.frames[j]? = some g → f.word < g.word

theorem holds_clear (h : a.order.size = a.slots.size) :
    a.clear.Holds (.ofCapacity a.slots.size) :=
  ⟨rfl, h, Nat.zero_le _, rfl, rfl, .refl _, .nil⟩

namespace Holds

variable (h : a.Holds s)

include h

theorem size_eq : s.size = a.size := by
  have hlength : a.live.length = a.size := by
    rw [Arena.live, List.length_take, Array.length_toList, Nat.min_eq_left h.size_le]
  rw [← hlength, h.live]
  exact (Array.length_toList ..).symm

theorem byteSize_eq : a.byteSize = s.byteSize := by
  rw [Arena.byteSize, FrameSet.byteSize, h.size_eq]

theorem length_index : a.index.length = a.size := by
  rw [Arena.index, List.length_take, Array.length_toList, h.order_size,
    Nat.min_eq_left h.size_le]

theorem slot_at (hi : i < a.size) :
    ∃ j slot, a.index[i]? = some j ∧ a.order[i]? = some j ∧ a.slots[j]? = some slot ∧
      s.toList[j]? = some slot := by
  have hlt : i < a.index.length := by rw [h.length_index]; exact hi
  have hindex : a.index[i]? = some a.index[i] := List.getElem?_eq_getElem hlt
  have hj : a.index[i] < a.size := List.mem_range.mp (h.perm.mem_iff.mp (List.getElem_mem hlt))
  have horder : a.order[i]? = some a.index[i] := by
    rw [← hindex, Arena.index, List.getElem?_take_of_lt hi, Array.getElem?_toList]
  have hslot : a.slots[a.index[i]]? = s.toList[a.index[i]]? := by
    rw [← h.live, Arena.live, List.getElem?_take_of_lt hj, Array.getElem?_toList]
  have hinside : a.index[i] < a.slots.size := Nat.lt_of_lt_of_le hj h.size_le
  have hfound : a.slots[a.index[i]]? = some a.slots[a.index[i]] := Array.getElem?_eq_getElem hinside
  exact ⟨_, _, hindex, horder, hfound, hslot.symm.trans hfound⟩

theorem frameAt?_eq (hi : i < a.size) :
    ∃ j f, a.index[i]? = some j ∧ s.frames[j]? = some f ∧ a.frameAt? i = some f := by
  obtain ⟨j, slot, hindex, horder, hslot, hlive⟩ := h.slot_at hi
  refine ⟨j, slot.frame, hindex, ?_, ?_⟩
  · rw [FrameSet.frames, List.getElem?_map, hlive]
    rfl
  · unfold frameAt?
    rw [horder, Option.bind_eq_bind, Option.bind_some, hslot]
    rfl

theorem frameAt?_lt (hij : i < j) (hj : j < a.size) (hf : a.frameAt? i = some f)
    (hg : a.frameAt? j = some g) : f.word < g.word := by
  obtain ⟨k, f', hk, hkf, hf'⟩ := h.frameAt?_eq (Nat.lt_trans hij hj)
  obtain ⟨l, g', hl, hlg, hg'⟩ := h.frameAt?_eq hj
  obtain rfl := Option.some.inj (hf.symm.trans hf')
  obtain rfl := Option.some.inj (hg.symm.trans hg')
  obtain ⟨hklt, hk⟩ := List.getElem?_eq_some_iff.mp hk
  obtain ⟨hllt, hl⟩ := List.getElem?_eq_some_iff.mp hl
  have hsorted := List.pairwise_iff_getElem.mp h.sorted i j hklt hllt hij
  rw [hk, hl] at hsorted
  exact hsorted f g hkf hlg

theorem exists_place (hf : f ∈ s.frames) : ∃ i < a.size, a.frameAt? i = some f := by
  obtain ⟨j, hj⟩ := List.mem_iff_getElem?.mp hf
  have hlt : j < a.size := by
    rw [← h.size_eq, FrameSet.size_eq]
    exact (List.getElem?_eq_some_iff.mp hj).1
  have hmem : j ∈ a.index := h.perm.mem_iff.mpr (List.mem_range.mpr hlt)
  obtain ⟨i, hi⟩ := List.mem_iff_getElem?.mp hmem
  have hi' : i < a.size := by
    rw [← h.length_index]
    exact (List.getElem?_eq_some_iff.mp hi).1
  obtain ⟨k, g, hk, hg, hframe⟩ := h.frameAt?_eq hi'
  obtain rfl := Option.some.inj (hi.symm.trans hk)
  obtain rfl := Option.some.inj (hj.symm.trans hg)
  exact ⟨i, hi', hframe⟩

end Holds

theorem live_add (f : FrameNo) (hroom : a.size < a.slots.size) :
    (a.add f).live = a.live ++ [⟨f, none⟩] := by
  have hlt : a.size < a.slots.toList.length := hroom
  show ((a.slots.setIfInBounds a.size ⟨f, none⟩).toList.take (a.size + 1)) = _
  rw [Array.toList_setIfInBounds, List.set_eq_take_append_cons_drop, if_pos hlt, List.append_cons]
  refine List.take_left' ?_
  rw [List.length_append, List.length_take, Nat.min_eq_left (Nat.le_of_lt hlt)]
  rfl

theorem isBelow_iff (hg : a.frameAt? i = some g) : a.isBelow f i ↔ g.word < f.word := by
  rw [isBelow, hg]
  exact decide_eq_true_iff

/-- The search halves the places by whether their frames are below. -/
theorem search_eq_bisect (a : Arena) (f : FrameNo) (lo hi : Nat) :
    a.search f lo hi = bisect (a.isBelow f) lo hi := by
  fun_induction a.search f lo hi with
  | case1 lo hi hlt middle hbelow ih =>
    rw [bisect, if_pos hlt, ih]
    exact (if_pos hbelow).symm
  | case2 lo hi hlt middle hnot ih =>
    rw [bisect, if_pos hlt, ih]
    exact (if_neg hnot).symm
  | case3 lo hi hlt => rw [bisect, if_neg hlt]

namespace Holds

variable (h : a.Holds s)

include h

theorem place_spec (f : FrameNo) :
    a.place f ≤ a.size ∧
      (∀ i g, i < a.place f → a.frameAt? i = some g → g.word < f.word) ∧
      ∀ i g, a.place f ≤ i → i < a.size → a.frameAt? i = some g → f.word ≤ g.word := by
  have hmono (i j : Nat) (hij : i < j) (hj : j < a.size) (hbelow : a.isBelow f j) :
      a.isBelow f i := by
    obtain ⟨-, g, -, -, hg⟩ := h.frameAt?_eq (Nat.lt_trans hij hj)
    obtain ⟨-, g', -, -, hg'⟩ := h.frameAt?_eq hj
    rw [isBelow_iff hg'] at hbelow
    rw [isBelow_iff hg]
    exact BitVec.lt_trans (h.frameAt?_lt hij hj hg hg') hbelow
  obtain ⟨-, hto, hlow, hhigh⟩ := bisect_spec (Nat.zero_le a.size) hmono
  unfold place
  rw [search_eq_bisect]
  refine ⟨hto, fun i g hi hg => ?_, fun i g hi hlt hg => ?_⟩
  · exact (isBelow_iff hg).mp (hlow i (Nat.zero_le i) hi)
  · have hnot := hhigh i hi hlt
    rw [isBelow_iff hg] at hnot
    exact BitVec.not_lt.mp hnot

/-- The binary search finds the frames of the set and no others. -/
theorem contains_iff : a.contains f ↔ f ∈ s.frames := by
  unfold contains
  rw [Bool.and_eq_true, decide_eq_true_iff, beq_iff_eq]
  obtain ⟨-, hlow, hhigh⟩ := h.place_spec f
  constructor
  · intro hfound
    obtain ⟨hlt, hframe⟩ := hfound
    obtain ⟨j, g, -, hg, hframe'⟩ := h.frameAt?_eq hlt
    obtain rfl := Option.some.inj (hframe.symm.trans hframe')
    exact List.mem_of_getElem? hg
  · intro hf
    obtain ⟨i, hi, hframe⟩ := h.exists_place hf
    have hfrom : a.place f ≤ i := by
      refine Nat.le_of_not_lt fun hlt => ?_
      exact absurd (hlow i f hlt hframe) (BitVec.lt_irrefl f.word)
    rcases Nat.eq_or_lt_of_le hfrom with he | hlt
    · exact ⟨he ▸ hi, he ▸ hframe⟩
    · -- a frame at an earlier place would be lower, but is not
      have hplace : a.place f < a.size := Nat.lt_trans hlt hi
      obtain ⟨-, g, -, -, hg⟩ := h.frameAt?_eq hplace
      have hle := hhigh (a.place f) g (Nat.le_refl _) hplace hg
      exact absurd (h.frameAt?_lt hlt hi hg hframe) (BitVec.not_lt.mpr hle)

theorem find?_eq (hs : s.WellFormed) (f : FrameNo) : a.find? f = s.find? f := by
  unfold Arena.find?
  by_cases hf : a.contains f
  · rw [if_pos hf]
    obtain ⟨hlt, hframe⟩ := Bool.and_eq_true_iff.mp hf
    obtain ⟨j, slot, -, horder, hslot, hlive⟩ := h.slot_at (of_decide_eq_true hlt)
    have hown : slot.frame = f := by
      unfold frameAt? at hframe
      rw [horder, Option.bind_eq_bind, Option.bind_some, hslot] at hframe
      exact Option.some.inj (beq_iff_eq.mp hframe)
    have hfound := hs.find?_eq_some_iff.mpr ⟨List.mem_of_getElem? hlive, hown⟩
    rw [hfound, horder, Option.bind_eq_bind, Option.bind_some, hslot]
  · rw [if_neg hf]
    cases hfound : s.find? f with
    | none => rfl
    | some slot =>
      obtain ⟨hmem, rfl⟩ := hs.find?_eq_some_iff.mp hfound
      exact absurd (h.contains_iff.mpr (List.mem_map.mpr ⟨slot, hmem, rfl⟩)) hf

theorem length_before (f : FrameNo) : (a.before f).length = a.place f := by
  obtain ⟨hto, -⟩ := h.place_spec f
  have hlength := h.length_index
  rw [Arena.index, List.length_take] at hlength
  rw [Arena.before, List.length_take]
  omega

theorem index_eq (f : FrameNo) : a.index = a.before f ++ a.after f := by
  obtain ⟨hto, -⟩ := h.place_spec f
  rw [Arena.index, Arena.before, Arena.after, ← List.take_add, Nat.add_sub_cancel' hto]

theorem lt_of_mem_before (hj : j ∈ a.before f) (hg : s.frames[j]? = some g) :
    g.word < f.word := by
  obtain ⟨hto, hlow, -⟩ := h.place_spec f
  obtain ⟨i, hi⟩ := List.mem_iff_getElem?.mp hj
  have hlt := (List.getElem?_eq_some_iff.mp hi).1
  have hplace : i < a.place f := by rw [← h.length_before]; exact hlt
  obtain ⟨k, g', hk, hg', hframe⟩ := h.frameAt?_eq (Nat.lt_of_lt_of_le hplace hto)
  rw [h.index_eq f, List.getElem?_append_left hlt, hi] at hk
  obtain rfl := Option.some.inj hk
  obtain rfl := Option.some.inj (hg.symm.trans hg')
  exact hlow i g hplace hframe

theorem lt_of_mem_after (hnew : f ∉ s.frames) (hj : j ∈ a.after f)
    (hg : s.frames[j]? = some g) : f.word < g.word := by
  obtain ⟨-, -, hhigh⟩ := h.place_spec f
  obtain ⟨i, hi⟩ := List.mem_iff_getElem?.mp hj
  have hat : a.index[a.place f + i]? = some j := by
    rw [h.index_eq f, ← h.length_before f, List.getElem?_append_right (Nat.le_add_right ..),
      Nat.add_sub_cancel_left, hi]
  have hlt : a.place f + i < a.size := by
    rw [← h.length_index]
    exact (List.getElem?_eq_some_iff.mp hat).1
  obtain ⟨k, g', hk, hg', hframe⟩ := h.frameAt?_eq hlt
  obtain rfl := Option.some.inj (hat.symm.trans hk)
  obtain rfl := Option.some.inj (hg.symm.trans hg')
  have hle := hhigh _ g (Nat.le_add_right _ i) hlt hframe
  refine BitVec.lt_def.mpr (Nat.lt_of_le_of_ne (BitVec.le_def.mp hle) fun he => hnew ?_)
  have hsame : f = g := congrArg PageNo.mk (BitVec.eq_of_toNat_eq he)
  exact hsame ▸ List.mem_of_getElem? hg

theorem index_add (f : FrameNo) : (a.add f).index = a.before f ++ a.size :: a.after f := by
  have hlength := h.length_index
  rw [h.index_eq f, List.length_append] at hlength
  show List.take (a.size + 1) (a.before f ++ a.size :: (a.after f ++ _)) = _
  rw [← List.cons_append, ← List.append_assoc]
  refine List.take_left' ?_
  rw [List.length_append, List.length_cons]
  omega

/-- The place of a new frame is the one that keeps the places sorted. -/
theorem sorted_add (hnew : f ∉ s.frames) : (a.add f).index.Pairwise fun i j =>
    ∀ g g', (s.add f).frames[i]? = some g → (s.add f).frames[j]? = some g' →
      g.word < g'.word := by
  have hsize : s.frames.length = a.size := by rw [← FrameSet.size_eq, h.size_eq]
  have hown : (s.add f).frames[a.size]? = some f := by
    rw [FrameSet.frames_add, ← hsize, List.getElem?_concat_length]
  -- the positions in use lead to the same frames as before
  have hold : ∀ j ∈ a.before f ++ a.after f, (s.add f).frames[j]? = s.frames[j]? := by
    intro j hj
    rw [← h.index_eq f] at hj
    have hlt := List.mem_range.mp (h.perm.mem_iff.mp hj)
    rw [FrameSet.frames_add, List.getElem?_append_left (by omega)]
  have hsorted : (a.before f ++ a.after f).Pairwise fun i j =>
      ∀ g g', (s.add f).frames[i]? = some g → (s.add f).frames[j]? = some g' →
        g.word < g'.word := by
    rw [← h.index_eq f]
    refine h.sorted.imp_of_mem fun hi hj hij => ?_
    rw [h.index_eq f] at hi hj
    rw [hold _ hi, hold _ hj]
    exact hij
  obtain ⟨hbefore, hafter, hcross⟩ := List.pairwise_append.mp hsorted
  rw [h.index_add f]
  refine List.pairwise_append.mpr ⟨hbefore, List.pairwise_cons.mpr ⟨?_, hafter⟩, ?_⟩
  · intro j hj g g' hg hg'
    obtain rfl := Option.some.inj (hown.symm.trans hg)
    rw [hold j (List.mem_append_right _ hj)] at hg'
    exact h.lt_of_mem_after hnew hj hg'
  · intro i hi j hj g g' hg hg'
    cases List.mem_cons.mp hj with
    | inl he =>
      obtain rfl := Option.some.inj (hown.symm.trans (he ▸ hg'))
      rw [hold i (List.mem_append_left _ hi)] at hg
      exact h.lt_of_mem_before hi hg
    | inr hj => exact hcross i hi j hj g g' hg hg'

theorem add (hnew : f ∉ s.frames) (hroom : a.size < a.slots.size) :
    (a.add f).Holds (s.add f) := by
  have hslots : (a.add f).slots.size = a.slots.size := Array.size_setIfInBounds
  have hlength := h.length_index
  rw [h.index_eq f, List.length_append] at hlength
  refine ⟨hslots.trans h.capacity, ?_, ?_, ?_, h.base, ?_, h.sorted_add hnew⟩
  · have horder := h.order_size
    rw [hslots]
    show (a.before f ++ a.size :: (a.after f ++ a.order.toList.drop (a.size + 1))).length = _
    simp only [List.length_append, List.length_cons, List.length_drop, Array.length_toList]
    omega
  · rw [hslots]
    exact hroom
  · rw [FrameSet.toList_add, ← h.live]
    exact live_add f hroom
  · have hperm := h.perm
    rw [h.index_eq f] at hperm
    rw [h.index_add f]
    show (a.before f ++ a.size :: a.after f).Perm (List.range (a.size + 1))
    rw [List.range_succ]
    exact List.perm_middle.trans ((hperm.cons a.size).trans
      (List.perm_append_singleton a.size _).symm)

theorem insert (hs : s.WellFormed) {x : PhysAddr} (hx : s.insert x = .ok s') :
    ∃ a', a.insert x.pageNo = .ok a' ∧ a'.Holds s' ∧ s'.WellFormed := by
  unfold Arena.insert
  rcases hs.insert_cases x with ⟨hold, heq⟩ | ⟨-, -, heq⟩ | ⟨hnew, hroom, heq⟩
  · obtain rfl := Except.ok.inj (heq.symm.trans hx)
    exact ⟨a, if_pos (h.contains_iff.mpr hold), h, hs⟩
  · rw [heq] at hx
    cases hx
  · obtain rfl := Except.ok.inj (heq.symm.trans hx)
    rw [h.size_eq, ← h.capacity] at hroom
    have hfree : ¬ a.contains x.pageNo := fun hin => hnew (h.contains_iff.mp hin)
    refine ⟨a.add x.pageNo, ?_, h.add hnew hroom, hs.add hnew ?_⟩
    · rw [if_neg hfree, if_neg (Nat.not_le.mpr hroom)]
    · rw [h.size_eq, ← h.capacity]
      exact hroom

theorem record (hs : s.WellFormed) {runs : List (Run .phys)}
    (hrecord : s.record runs = .ok (.ok s')) :
    ∃ a', a.record runs = .ok a' ∧ a'.Holds s' ∧ s'.WellFormed := by
  induction runs generalizing a s with
  | nil =>
    obtain rfl := Except.ok.inj (Except.ok.inj hrecord)
    exact ⟨a, rfl, h, hs⟩
  | cons r rest ih =>
    cases he : r.isEmpty with
    | true =>
      rw [FrameSet.record_cons_of_empty he] at hrecord
      rw [Arena.record, Run.pageNos, List.filter_cons_of_neg (by simp [he])]
      exact ih h hs hrecord
    | false =>
      rw [FrameSet.record_cons_of_inPage he (FrameSet.inPage_of_record he hrecord)] at hrecord
      cases hinsert : s.insert r.addr with
      | error reason =>
        rw [hinsert] at hrecord
        cases Except.ok.inj hrecord
      | ok grown =>
        rw [hinsert] at hrecord
        obtain ⟨next, hnext, hholds, hwell⟩ := h.insert hs hinsert
        obtain ⟨a', ha', hlast⟩ := ih hholds hwell hrecord
        refine ⟨a', ?_, hlast⟩
        rw [Arena.record, Run.pageNos, List.filter_cons_of_pos (by simp [he]), List.map_cons,
          List.foldlM_cons, hnext]
        exact ha'

theorem assign {page : PageNo .bus} (hassign : s.assign page = .ok s') :
    ∃ a', a.assign page = .ok a' ∧ a'.Holds s' := by
  obtain ⟨slots, hslots, hassign⟩ := Checked.bind_eq_ok.mp hassign
  obtain rfl := Except.ok.inj hassign
  have hframes := FrameSet.map_frame_assignFrom hslots
  have hlength : slots.length = a.size := by
    rw [← h.size_eq, ← List.length_map (f := fun slot : FrameSlot => slot.frame), hframes,
      List.length_map]
    rfl
  have hall : (slots ++ a.slots.toList.drop a.size).length = a.slots.size := by
    have htotal : a.slots.toList.length = a.slots.size := rfl
    rw [List.length_append, List.length_drop, hlength, htotal]
    exact Nat.add_sub_cancel' h.size_le
  refine ⟨_, by rw [Arena.assign, h.live, FrameSet.toList, hslots]; rfl, ?_⟩
  refine ⟨hall.trans h.capacity, h.order_size.trans hall.symm, ?_, ?_, rfl, h.perm, ?_⟩
  · exact Nat.le_trans h.size_le (Nat.le_of_eq hall.symm)
  · exact List.take_left' hlength
  · have hsame : FrameSet.frames { s with slots := slots.toArray, base := some page } = s.frames :=
      hframes
    rw [hsame]
    exact h.sorted

end Holds

/-- A cleared arena, whatever its arrays hold, comes to what a new set comes to. -/
theorem live_eq {s₀ : FrameSet} {runs : List (Run .phys)} {page : PageNo .bus}
    (harrays : a.order.size = a.slots.size)
    (hrecord : (FrameSet.ofCapacity a.slots.size).record runs = .ok (.ok s₀))
    (hassign : s₀.assign page = .ok s) (hs : s.WellFormed) :
    ∃ a₁ a₂, a.clear.record runs = .ok a₁ ∧ a₁.assign page = .ok a₂ ∧ a₂.live = s.toList ∧
      ∀ f, a₂.find? f = s.find? f := by
  obtain ⟨a₁, ha₁, hholds₁, -⟩ :=
    (holds_clear harrays).record (FrameSet.wellFormed_ofCapacity _) hrecord
  obtain ⟨a₂, ha₂, hholds₂⟩ := hholds₁.assign hassign
  exact ⟨a₁, a₂, ha₁, ha₂, hholds₂.live, hholds₂.find?_eq hs⟩

end Arena

end Aperture
