import Aperture.Proofs.Payload.Bytes

namespace Aperture

namespace Resolution

section Walk

variable {s : Space} {find : Addr s → Except Declined PhysAddr} {wraps : Declined} {a : Addr s}
  {n : Nat} {res : Resolution}

theorem Walks.inPage (h : Walks find wraps a n res)
    (hfind : ∀ a p, find a = .ok p → p.pageOffset = a.pageOffset) :
    ∀ r ∈ res.runs, r.InPage := by
  have hfirst {a : Addr s} {r : Run .phys} (hr : find a = .ok r.addr)
      (hin : a.pageOffset + r.length.toNat ≤ pageSize) : r.InPage := by
    rw [Run.InPage, hfind a _ hr]
    exact hin
  induction h with
  | done => simp
  | hole => simp
  | last _ hr hlength hin =>
    simp only [List.mem_singleton, forall_eq]
    exact hfirst hr (by omega)
  | top hr hlength =>
    simp only [List.mem_singleton, forall_eq]
    exact hfirst hr (Nat.le_of_eq hlength)
  | next hr hlength _ _ _ ih =>
    intro r' hr'
    cases List.mem_cons.mp hr' with
    | inl he => exact he ▸ hfirst hr (Nat.le_of_eq hlength)
    | inr hrest => exact ih r' hrest

end Walk

theorem forall_runs_ofPieces {α : Type} {resolve : α → Resolution} {P : Run .phys → Prop}
    (hpieces : ∀ piece, ∀ r ∈ (resolve piece).runs, P r) (pieces : List α) :
    ∀ r ∈ (ofPieces resolve pieces).runs, P r := by
  induction pieces with
  | nil => simp [ofPieces]
  | cons piece pieces ih =>
    rw [ofPieces]
    cases (resolve piece).failure with
    | some d => exact hpieces piece
    | none =>
      intro r hr
      cases List.mem_append.mp hr with
      | inl hfirst => exact hpieces piece r hfirst
      | inr hrest => exact ih r hrest

/-- The resolution fails exactly if there is a hole, and tells of it. -/
def Tells (r : Resolution) (hole : Prop) : Prop :=
  match r.failure with
  | none => ¬ hole
  | some d => hole ∧ d.reason = .invalid ∧ ∃ n, d.notice = some n ∧ n.TellsHole

theorem Finds.tells {res : Resolution} {places : List (Option Nat)} (h : res.Finds places) :
    res.Tells (none ∈ places) := by
  have hiff := h.failure_eq_none_iff
  unfold Tells
  cases hfailure : res.failure with
  | none => exact hiff.mp hfailure
  | some d =>
    refine ⟨not_not.mp fun hnone => ?_, h.of_failure hfailure⟩
    rw [hiff.mpr hnone] at hfailure
    cases hfailure

end Resolution

namespace Run

/-- Some byte goes past the last address if and only if the run wraps. -/
theorem wraps_iff {s : Space} {r : Run s} : r.Wraps ↔ ∃ n ∈ r.bytes, 2 ^ 64 ≤ n := by
  have hlt := r.addr.word.isLt
  constructor
  · intro h
    have hwraps : 2 ^ 64 < r.addr.word.toNat + r.length.toNat := h
    exact ⟨2 ^ 64, List.mem_range'_1.mpr (by omega), Nat.le_refl _⟩
  · rintro ⟨n, hn, hpast⟩
    have hlast := (List.mem_range'_1.mp hn).2
    exact Nat.lt_of_le_of_lt hpast hlast

theorem not_wraps_of_resolve {r : Run .virt} {v : VirtSpace} (h : (r.resolve v).failure = none) :
    ¬ r.Wraps := by
  intro hwraps
  obtain ⟨n, hn, hpast⟩ := wraps_iff.mp hwraps
  have hnowhere : none ∈ r.places v := List.mem_map.mpr ⟨n, hn, dif_neg (Nat.not_lt.mpr hpast)⟩
  exact (resolve_finds r v).failure_eq_none_iff.mp h hnowhere

theorem none_mem_physPlaces_iff (r : Run .phys) : none ∈ r.bytes.map physPlace? ↔ r.Wraps := by
  simp [wraps_iff, physPlace?]

theorem none_mem_places_iff {v : VirtSpace} (hv : v.IsPaged) (r : Run .virt) :
    none ∈ r.places v ↔ r.IsUnbacked v := by
  have hself (a : VirtAddr) : (⟨.ofNatLT a.word.toNat a.word.isLt⟩ : VirtAddr) = a :=
    congrArg Addr.mk (BitVec.ofNatLT_toNat ..)
  rw [places_eq hv, IsUnbacked, wraps_iff, List.mem_map]
  constructor
  · rintro ⟨n, hn, hnone⟩
    by_cases hlt : n < 2 ^ 64
    · rw [VirtSpace.byte?, dif_pos hlt, Option.map_eq_none_iff, hv.lookup_eq_none_iff] at hnone
      exact .inr ⟨⟨.ofNatLT n hlt⟩, (BitVec.toNat_ofNatLT n hlt).symm ▸ hn, hnone⟩
    · exact .inl ⟨n, hn, Nat.le_of_not_lt hlt⟩
  · rintro (⟨n, hn, hpast⟩ | ⟨a, ha, hnone⟩)
    · exact ⟨n, hn, dif_neg (Nat.not_lt.mpr hpast)⟩
    · refine ⟨_, ha, ?_⟩
      rw [VirtSpace.byte?, dif_pos a.word.isLt, hself, hv.lookup_eq_none_iff.mpr hnone]
      rfl

theorem inPage_resolve {r : Run .virt} {v : VirtSpace} (hv : v.KeepsOffsets) :
    ∀ r' ∈ (r.resolve v).runs, r'.InPage := by
  refine (Resolution.walks ..).inPage fun a p hfind => ?_
  exact hv a p (VirtSpace.lookup_of_found hfind)

theorem inPage_split (r : Run .phys) : ∀ r' ∈ r.split.runs, r'.InPage := by
  refine (Resolution.walks ..).inPage fun a p hfind => ?_
  obtain rfl := Except.ok.inj hfind
  rfl

theorem length_pos_resolve (r : Run .virt) (v : VirtSpace) :
    ∀ r' ∈ (r.resolve v).runs, 0 < r'.length.toNat := (Resolution.walks ..).length_pos

theorem length_pos_split (r : Run .phys) : ∀ r' ∈ r.split.runs, 0 < r'.length.toNat :=
  (Resolution.walks ..).length_pos

end Run

namespace Payload

variable {p : Payload}

theorem IsPaged.keepsOffsets (hp : p.IsPaged) : p.KeepsOffsets :=
  fun v hv => (hp v hv).keepsOffsets

/-- A byte of the payload is nowhere if and only if its page is not mapped or it goes past the last
address. -/
theorem none_mem_places_iff (hp : p.IsPaged) : none ∈ p.places ↔ p.IsUnbacked := by
  cases p with
  | linear base length space => exact Run.none_mem_places_iff (hp space rfl) _
  | chain pieces space =>
    simp [places, IsUnbacked, Run.none_mem_places_iff (hp space rfl)]
  | scatter pieces space =>
    simp [places, IsUnbacked, Run.none_mem_places_iff (hp space rfl)]
  | raw runs =>
    simp only [places, List.mem_flatMap, Run.none_mem_physPlaces_iff]
    rfl

/-- A payload in reach is resolved unless it has a hole; one out of reach is not resolved. -/
theorem resolve_tells (hp : p.IsPaged) :
    p.IsForeign ∧ p.resolve = ⟨[], some ⟨.unsupported, none⟩⟩ ∨
      ¬ p.IsForeign ∧ p.resolve.Tells p.IsUnbacked := by
  by_cases hforeign : p.IsForeign
  · exact .inl ⟨hforeign, resolve_of_isForeign hforeign⟩
  · have htells := (resolve_finds hforeign).tells
    rw [none_mem_places_iff hp] at htells
    exact .inr ⟨hforeign, htells⟩

/-- What holds of the runs of each piece, whatever its shape, holds of all runs of a payload. -/
theorem forall_runs_resolve {P : Run .phys → Prop}
    (hvirt : ∀ v, p.space? = some v → ∀ r : Run .virt, ∀ r' ∈ (r.resolve v).runs, P r')
    (hphys : ∀ r : Run .phys, ∀ r' ∈ r.split.runs, P r') : ∀ r ∈ p.resolve.runs, P r := by
  cases p with
  | linear base length space => exact hvirt space rfl _
  | chain pieces space => exact Resolution.forall_runs_ofPieces (hvirt space rfl) pieces
  | scatter pieces space =>
    rw [resolve]
    split
    · exact Resolution.forall_runs_ofPieces (hvirt space rfl) pieces
    · simp
  | raw runs => exact Resolution.forall_runs_ofPieces hphys runs

theorem inPage_resolve (hp : p.KeepsOffsets) : ∀ r ∈ p.resolve.runs, r.InPage :=
  forall_runs_resolve (fun v hv _ => Run.inPage_resolve (hp v hv)) Run.inPage_split

theorem length_pos_resolve : ∀ r ∈ p.resolve.runs, 0 < r.length.toNat :=
  forall_runs_resolve (fun v _ r => r.length_pos_resolve v) Run.length_pos_split

theorem length?_eq_some_iff {n : Word} : p.length? = some n ↔ n.toNat = p.size := by
  cases p with
  | linear base length space =>
    show some length = some n ↔ n.toNat = length.toNat
    rw [Option.some.injEq, eq_comm, BitVec.toNat_inj]
  | chain pieces space =>
    rw [length?, Word.total?_eq_some_iff, List.map_map]
    rfl
  | scatter pieces space =>
    rw [length?, Word.total?_eq_some_iff, List.map_map]
    rfl
  | raw runs =>
    rw [length?, Word.total?_eq_some_iff, List.map_map]
    rfl

theorem length?_eq_none_iff : p.length? = none ↔ 2 ^ 64 ≤ p.size := by
  constructor
  · intro h
    refine Nat.le_of_not_lt fun hlt => ?_
    have hsome := length?_eq_some_iff.mpr (BitVec.toNat_ofNatLT _ hlt)
    rw [h] at hsome
    cases hsome
  · intro h
    cases hlength : p.length? with
    | none => rfl
    | some n =>
      have hsize := length?_eq_some_iff.mp hlength
      have hlt := n.isLt
      omega

theorem frames_of_resolve {p : Payload} (hp : p.IsPaged) (h : p.resolve.failure = none) :
    p.frames = Run.frames p.resolve.runs :=
  frames_eq (bytes?_of_resolve hp h) fun r hr _ => inPage_resolve hp.keepsOffsets r hr

theorem length_frames_pos {bytes : List Nat} {n : Word} (hbytes : p.bytes? = some bytes)
    (hlength : p.length? = some n) (hn : 0 < n.toNat) : 0 < p.frames.length := by
  have hcount := length_bytes hbytes hlength
  obtain ⟨a, ha⟩ := List.exists_mem_of_length_pos (show 0 < bytes.length by omega)
  refine List.length_pos_of_mem (a := frameAt a) ?_
  rw [frames, hbytes, Option.getD_some, List.mem_eraseDups]
  exact List.mem_map.mpr ⟨a, ha, rfl⟩

end Payload

end Aperture
