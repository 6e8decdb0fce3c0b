import Aperture.Payload.Pieces
import Aperture.Proofs.Payload.Failure
import Aperture.Proofs.Tag.Aside

namespace Aperture

/-- Pieces of these lengths, cut at page boundaries, may come to that many parts. A piece with bytes
takes up whole pages, with up to all bytes of a page but one to spare on each side. -/
def Straddles (count : Nat) (lengths : List Nat) : Prop :=
  count * pageSize ≤ lengths.sum + lengths.countP (0 < ·) * (2 * (pageSize - 1))

namespace Straddles

variable {count count' n : Nat} {lengths lengths' : List Nat}

theorem append (h : Straddles count lengths) (h' : Straddles count' lengths') :
    Straddles (count + count') (lengths ++ lengths') := by
  unfold Straddles at *
  rw [List.countP_append, List.sum_append, Nat.add_mul, Nat.add_mul]
  omega

theorem mono (h : Straddles count lengths) (hle : count' ≤ count) : Straddles count' lengths :=
  Nat.le_trans (Nat.mul_le_mul_right pageSize hle) h

/-- Each piece with bytes may be one part. -/
theorem of_le_countP (h : count ≤ lengths.countP (0 < ·)) : Straddles count lengths :=
  calc count * pageSize
    _ ≤ lengths.countP (0 < ·) * (2 * (pageSize - 1)) := Nat.mul_le_mul h (by decide)
    _ ≤ lengths.sum + lengths.countP (0 < ·) * (2 * (pageSize - 1)) := Nat.le_add_left ..

theorem singleton (hnone : n = 0 → count = 0) (h : count * pageSize ≤ n + 2 * (pageSize - 1)) :
    Straddles count [n] := by
  unfold Straddles
  by_cases hn : n = 0
  · simp [hn, hnone hn]
  · have hone : [n].countP (0 < ·) = 1 := by simp [Nat.pos_of_ne_zero hn]
    rw [hone, List.sum_singleton, Nat.one_mul]
    exact h

/-- The pages that the bytes fill, and two more for each piece, are always one too many. -/
theorem le (h : Straddles count lengths) :
    count ≤ pagesFor lengths.sum + 2 * lengths.countP (0 < ·) - 1 := by
  unfold Straddles at h
  generalize hk : lengths.countP (0 < ·) = k at *
  cases Nat.eq_zero_or_pos k with
  | inl hnone =>
    subst hnone
    have hempty : lengths.sum = 0 :=
      List.sum_eq_zero_iff_forall_eq_nat.mpr fun n hn => by
        simpa using List.countP_eq_zero.mp hk n hn
    unfold pageSize at h
    omega
  | inr hpos =>
    refine Nat.le_of_not_lt fun hmany => ?_
    have hpages := Nat.mul_le_mul_right pageSize
      (show pagesFor lengths.sum + 2 * k ≤ count by omega)
    have hfill : lengths.sum ≤ pagesFor lengths.sum * pageSize := by
      unfold pagesFor pageSize
      omega
    have hspare : k * (2 * (pageSize - 1)) + 2 * k = 2 * k * pageSize := by
      unfold pageSize
      omega
    rw [Nat.add_mul] at hpages
    omega

end Straddles

theorem Payload.sum_pieceLengths (p : Payload) : p.pieceLengths.sum = p.size := by
  cases p with
  | linear => exact List.sum_singleton
  | chain | scatter | raw => rfl

theorem Straddles.le_frameBound {p : Payload} {count : Nat} (h : Straddles count p.pieceLengths) :
    count ≤ p.frameBound := by
  have hle := h.le
  rwa [p.sum_pieceLengths] at hle

namespace Resolution

section Walk

variable {s : Space} {find : Addr s → Except Declined PhysAddr} {wraps : Declined} {a : Addr s}
  {n : Nat} {res : Resolution}

/-- The parts of a walk fill the pages from the one that it begins in to the one that it ends in. -/
theorem Walks.length_lt (h : Walks find wraps a n res) :
    res.runs.length * pageSize < a.pageOffset + n + pageSize := by
  induction h with
  | done | hole =>
    rw [List.length_nil, Nat.zero_mul]
    unfold pageSize
    omega
  | last hn =>
    rw [List.length_singleton, Nat.one_mul]
    omega
  | top _ _ hout =>
    rw [List.length_singleton, Nat.one_mul]
    omega
  | @next a b n r rest _ hlength hout hnext _ ih =>
    -- the rest begins with a page
    have hstart : b.pageOffset = 0 := by
      rw [Addr.pageOffset_eq] at hlength ⊢
      unfold pageSize at hlength ⊢
      omega
    rw [hstart] at ih
    show (rest.runs.length + 1) * pageSize < _
    rw [Nat.add_mul, Nat.one_mul]
    omega

theorem Walks.straddles (h : Walks find wraps a n res) : Straddles res.runs.length [n] := by
  have hlt := h.length_lt
  have hoff := a.pageOffset_lt
  refine .singleton ?_ ?_
  · intro hn
    subst hn
    cases h with
    | done => rfl
    | hole => rfl
    | last hn => exact absurd hn (Nat.lt_irrefl 0)
    | top _ _ hout => exact absurd hout (Nat.not_lt_zero _)
    | next _ _ hout => exact absurd hout (Nat.not_lt_zero _)
  · omega

end Walk

/-- Up to a piece that fails, there are the parts of each. -/
theorem straddles_ofPieces {α : Type} {resolve : α → Resolution} {length : α → Nat}
    (hpieces : ∀ piece, Straddles (resolve piece).runs.length [length piece]) (pieces : List α) :
    Straddles (ofPieces resolve pieces).runs.length (pieces.map length) := by
  induction pieces with
  | nil => exact .of_le_countP (Nat.le_refl 0)
  | cons piece pieces ih =>
    have hall := (hpieces piece).append ih
    rw [ofPieces]
    cases (resolve piece).failure with
    | some d => exact hall.mono (Nat.le_add_right ..)
    | none => exact hall.mono (Nat.le_of_eq List.length_append)

end Resolution

namespace Payload

theorem straddles_resolve (p : Payload) : Straddles p.resolve.runs.length p.pieceLengths := by
  cases p with
  | linear base length space => exact (Resolution.walks ..).straddles
  | chain pieces space =>
    exact Resolution.straddles_ofPieces (fun _ => (Resolution.walks ..).straddles) pieces
  | scatter pieces space =>
    rw [resolve]
    split
    · exact Resolution.straddles_ofPieces (fun _ => (Resolution.walks ..).straddles) pieces
    · exact .of_le_countP (Nat.zero_le _)
  | raw runs => exact Resolution.straddles_ofPieces (fun _ => (Resolution.walks ..).straddles) runs

end Payload

namespace Run

/-- No more frames are touched than there are runs with bytes. -/
theorem length_frames_le (runs : List (Run .phys)) :
    (frames runs).length ≤ (runs.map (·.length.toNat)).countP (0 < ·) := by
  have hpages : (pageNos runs).length = (runs.map (·.length.toNat)).countP (0 < ·) := by
    rw [pageNos, List.length_map, List.countP_map, List.countP_eq_length_filter]
    congr 2
    funext r
    rw [Bool.eq_iff_iff, Bool.not_eq_true', isEmpty_eq_false_iff]
    exact decide_eq_true_iff.symm
  rw [← hpages]
  exact (nodup_frames runs).length_le_of_subset fun f hf => List.mem_eraseDups.mp hf

end Run

namespace Payload

/-- Cut at pages or taken as they are described, the runs of a payload touch no more frames than its
bytes and the number of its pieces allow for. -/
theorem length_frames_resolve_le (p : Payload) :
    (Run.frames p.resolve.runs).length ≤ p.frameBound ∧
      (Run.frames p.described.runs).length ≤ p.frameBound := by
  have hcut : (Run.frames p.resolve.runs).length ≤ p.frameBound := by
    refine (p.straddles_resolve.mono (Nat.le_trans (Run.length_frames_le _) ?_)).le_frameBound
    exact Nat.le_trans List.countP_le_length (Nat.le_of_eq (List.length_map _))
  refine ⟨hcut, ?_⟩
  cases p with
  | linear | chain | scatter => exact hcut
  | raw runs =>
    -- runs that are not cut are the pieces themselves
    exact (Straddles.of_le_countP (Run.length_frames_le runs)).le_frameBound

end Payload

namespace HostMemory

variable {memory : HostMemory} {p : Payload}

theorem length_frames_resolve_le
    (h : memory.host.resolver = .direct ∨ memory.host.resolver = .verbatim) :
    (Run.frames (memory.resolve p).runs).length ≤ p.frameBound := by
  obtain ⟨hcut, hdescribed⟩ := p.length_frames_resolve_le
  have hstored (whole : Resolution) := Run.length_frames_le_of_isPrefix
    (whole.runs_storedIn_isPrefix memory.host.storage)
  rw [resolve]
  rcases h with h | h
  · rw [h]
    exact Nat.le_trans (hstored _) hcut
  · rw [h]
    exact Nat.le_trans (hstored _) hdescribed

/-- Runs inside pages, up to where the others begin, touch no more frames than that either. -/
theorem length_frames_le {first : List (Run .phys)}
    (hcuts : memory.host.resolver.IsPagewise ∨ p.KeepsOffsets)
    (hfirst : first <+: (memory.resolve p).runs)
    (hin : ∀ r ∈ first, r.isEmpty = false → r.InPage) :
    (Run.frames first).length ≤ p.frameBound := by
  refine Nat.le_trans ((Run.nodup_frames first).length_le_of_subset ?_)
    p.length_frames_resolve_le.1
  rcases hcuts with hcuts | hoffsets
  · have hproper := (hcuts _ p).inOrder first hfirst hin
    exact fun f hf => List.mem_eraseDups.mpr
      (List.map_subset _ hproper.subset (List.mem_eraseDups.mp hf))
  · have hbytes := (memory.follows_resolve p).inOrder first hfirst hin
    have hwhole (r : Run .phys) (hr : r ∈ p.resolve.runs) (_ : r.isEmpty = false) : r.InPage :=
      Payload.inPage_resolve hoffsets r hr
    have hframes {runs : List (Run .phys)} (h : ∀ r ∈ runs, r.isEmpty = false → r.InPage) :
        Run.frames runs = ((runs.flatMap Run.bytes).map frameAt).eraseDups :=
      (Payload.eraseDups_map_frameAt h []).symm
    rw [hframes hin, hframes hwhole]
    exact fun f hf => List.mem_eraseDups.mpr
      (List.map_subset _ hbytes.subset (List.mem_eraseDups.mp hf))

end HostMemory

namespace Payload

variable {p : Payload}

theorem length_frames_le_of_reach (hp : p.IsPaged) (hreach : ¬ p.IsForeign) :
    p.frames.length ≤ p.frameBound := by
  cases hbytes : p.bytes? with
  | none =>
    have hnone : p.frames = [] := by
      rw [frames, hbytes]
      rfl
    rw [hnone]
    exact Nat.zero_le _
  | some bytes =>
    have hplaces : none ∉ p.places := by simp [(bytes?_eq_some_iff hp).mp hbytes]
    have hresolved := (resolve_finds hreach).failure_eq_none_iff.mpr hplaces
    rw [frames_of_resolve hp hresolved]
    exact p.length_frames_resolve_le.1

/-- The bytes of a payload are in no more frames than that, if there are pages mapped as a whole. -/
theorem length_frames_le (hp : p.IsPaged) : p.frames.length ≤ p.frameBound := by
  cases p with
  | scatter pieces space =>
    -- the bytes are where those of a chain of the same pieces are, in reach or not
    exact length_frames_le_of_reach (p := chain pieces space) hp id
  | linear | chain | raw => exact length_frames_le_of_reach hp id

end Payload

end Aperture
