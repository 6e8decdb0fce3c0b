import Aperture.Admission
import Aperture.Payload.Found
import Aperture.Proofs.Payload.Walk
import Aperture.Word.Rounding

namespace Aperture

theorem map_range'_congr {β : Type} {f g : Nat → β} {s t n : Nat}
    (h : ∀ i < n, f (s + i) = g (t + i)) :
    (List.range' s n).map f = (List.range' t n).map g := by
  rw [List.range'_eq_map_range, List.range'_eq_map_range, List.map_map, List.map_map]
  apply List.map_congr_left
  intro i hi
  exact h i (List.mem_range.mp hi)

namespace Addr

variable {s : Space} {a b : Addr s}

theorem toNat_arrival (a b : Addr s) :
    (a.arrival b).word.toNat = max a.word.toNat b.pageBase.word.toNat := Word.toNat_larger ..

/-- A walk that goes on up to an address comes into its page. -/
theorem pageBase_arrival (h : a.word.toNat ≤ b.word.toNat) :
    (a.arrival b).pageBase = b.pageBase := by
  have hword : (a.arrival b).pageBase.word = b.pageBase.word := by
    apply BitVec.eq_of_toNat_eq
    rw [toNat_pageBase, toNat_arrival, toNat_pageBase]
    unfold pageSize
    omega
  exact congrArg mk hword

end Addr

/-- The notice tells of a byte that is nowhere. -/
inductive Notice.TellsHole : Notice → Prop
  | noPage (owner : Nat) (address : VirtAddr) : TellsHole (.noPage owner address)
  | wrapsVirtual (owner : Nat) (base : VirtAddr) : TellsHole (.wrapsVirtual owner base)
  | wrapsPhysical (base : PhysAddr) : TellsHole (.wrapsPhysical base)

def Declined.TellsHole (d : Declined) : Prop :=
  d.reason = .invalid ∧ ∃ n, d.notice = some n ∧ n.TellsHole

namespace Resolution

/-- The runs hold the bytes that have these places, up to the first that is nowhere. -/
def Finds (res : Resolution) (places : List (Option Nat)) : Prop :=
  match res.failure with
  | none => places = (res.runs.flatMap Run.bytes).map some
  | some d => d.TellsHole ∧ ∃ rest, places = (res.runs.flatMap Run.bytes).map some ++ none :: rest

theorem finds_done {runs : List (Run .phys)} {places : List (Option Nat)} :
    Finds ⟨runs, none⟩ places ↔ places = (runs.flatMap Run.bytes).map some := Iff.rfl

theorem finds_failed {runs : List (Run .phys)} {d : Declined} {places : List (Option Nat)} :
    Finds ⟨runs, some d⟩ places ↔ d.TellsHole ∧
      ∃ rest, places = (runs.flatMap Run.bytes).map some ++ none :: rest := Iff.rfl

theorem Finds.append {runs : List (Run .phys)} {rest : Resolution} {places : List (Option Nat)}
    (h : rest.Finds places) :
    Finds { rest with runs := runs ++ rest.runs }
      ((runs.flatMap Run.bytes).map some ++ places) := by
  unfold Finds at h ⊢
  dsimp only
  cases hfailure : rest.failure with
  | none =>
    simp only [hfailure] at h
    simp [h]
  | some d =>
    simp only [hfailure] at h
    obtain ⟨htells, later, rfl⟩ := h
    exact ⟨htells, later, by simp⟩

theorem Finds.failure_eq_none_iff {res : Resolution} {places : List (Option Nat)}
    (h : res.Finds places) : res.failure = none ↔ none ∉ places := by
  unfold Finds at h
  cases hfailure : res.failure with
  | none =>
    simp only [hfailure] at h
    simp [h]
  | some d =>
    simp only [hfailure] at h
    obtain ⟨-, rest, rfl⟩ := h
    simp

theorem Finds.of_failure {res : Resolution} {places : List (Option Nat)} {d : Declined}
    (h : res.Finds places) (hfailure : res.failure = some d) : d.TellsHole := by
  simp only [Finds, hfailure] at h
  exact h.1

section Walk

variable {s : Space} {find : Addr s → Except Declined PhysAddr} {wraps : Declined}

/-- A walk from `start` on may ask where `b` is. -/
def Enters (start b : Addr s) : Prop :=
  start.word.toNat ≤ b.word.toNat ∧ (b = start ∨ b.pageOffset = 0)

/-- Bytes that are reached by a walk from `start` on have their places. -/
structure Locates (find : Addr s → Except Declined PhysAddr) (start : Addr s)
    (place? : Nat → Option Nat) : Prop where
  found : ∀ b p, Enters start b → find b = .ok p → ∀ i, b.pageOffset + i < pageSize →
    place? (b.word.toNat + i) = some (p.word.toNat + i)
  hole : ∀ b d, Enters start b → find b = .error d →
    d.TellsHole ∧ place? b.word.toNat = none
  top : place? (2 ^ 64) = none

theorem Walks.finds {start a : Addr s} {n : Nat} {res : Resolution} {place? : Nat → Option Nat}
    (h : Walks find wraps a n res) (hplace : Locates find start place?)
    (hwraps : wraps.TellsHole) (ha : Enters start a) :
    res.Finds ((List.range' a.word.toNat n).map place?) := by
  have hfirst {a : Addr s} {r : Run .phys} (ha : Enters start a) (hr : find a = .ok r.addr)
      (hin : a.pageOffset + r.length.toNat ≤ pageSize) :
      (List.range' a.word.toNat r.length.toNat).map place? = r.bytes.map some :=
    map_range'_congr fun i hi => hplace.found a r.addr ha hr i (by omega)
  induction h with
  | done => simp [finds_done]
  | @hole a n d hn hfind =>
    obtain ⟨htells, hnone⟩ := hplace.hole a d ha hfind
    obtain ⟨k, rfl⟩ := Nat.exists_eq_succ_of_ne_zero (Nat.ne_of_gt hn)
    rw [finds_failed, List.range'_succ, List.map_cons, hnone]
    exact ⟨htells, _, rfl⟩
  | last _ hr hlength hin =>
    subst hlength
    rw [finds_done, hfirst ha hr hin]
    simp
  | @top a n r hr hlength hout htop =>
    -- the page is the last, so the next byte is the first past the top
    have hend : a.word.toNat + r.length.toNat = 2 ^ 64 := by
      have hlt := a.word.isLt
      rw [Addr.pageOffset_eq] at hlength
      unfold pageSize at hlength
      omega
    obtain ⟨k, hk⟩ := Nat.exists_eq_add_of_lt hout
    have hsplit : List.range' a.word.toNat n =
        List.range' a.word.toNat r.length.toNat ++ 2 ^ 64 :: List.range' (2 ^ 64 + 1) k := by
      rw [← hend, ← List.range'_succ, List.range'_append_1]
      congr 1
    rw [finds_failed, hsplit, List.map_append, hfirst ha hr (Nat.le_of_eq hlength), List.map_cons,
      hplace.top]
    refine ⟨hwraps, (List.range' (2 ^ 64 + 1) k).map place?, ?_⟩
    simp
  | @next a b n r rest hr hlength hout hnext _ ih =>
    have hb : Enters start b := by
      refine ⟨by have := ha.1; omega, .inr ?_⟩
      rw [Addr.pageOffset_eq] at hlength ⊢
      unfold pageSize at hlength ⊢
      omega
    have hsplit : List.range' a.word.toNat n = List.range' a.word.toNat r.length.toNat ++
        List.range' b.word.toNat (n - r.length.toNat) := by
      rw [hnext, List.range'_append_1, Nat.add_sub_cancel' (Nat.le_of_lt hout)]
    rw [hsplit, List.map_append, hfirst ha hr (Nat.le_of_eq hlength)]
    have hall := @Finds.append [r] rest _ (ih hb)
    rw [List.flatMap_singleton] at hall
    exact hall

theorem enters_self (a : Addr s) : Enters a a := ⟨Nat.le_refl _, .inl rfl⟩

/-- In the page of an address that a walk asks for, the walk has come in there. -/
theorem arrival_eq {start b : Addr s} (hb : Enters start b) {i : Nat}
    (hi : b.pageOffset + i < pageSize) :
    ∃ hlt : b.word.toNat + i < 2 ^ 64, start.arrival ⟨.ofNatLT _ hlt⟩ = b := by
  have hlt : b.word.toNat + i < 2 ^ 64 := by
    have := b.word.isLt
    rw [Addr.pageOffset_eq] at hi
    unfold pageSize at hi
    omega
  refine ⟨hlt, ?_⟩
  have hword : (start.arrival ⟨.ofNatLT _ hlt⟩ : Addr s).word = b.word := by
    apply BitVec.eq_of_toNat_eq
    rw [Addr.toNat_arrival, Addr.toNat_pageBase, BitVec.toNat_ofNatLT]
    rw [Addr.pageOffset_eq] at hi
    obtain ⟨hle, rfl | hoff⟩ := hb
    · unfold pageSize at hi ⊢
      omega
    · rw [Addr.pageOffset_eq] at hoff
      unfold pageSize at hi hoff ⊢
      omega
  exact congrArg Addr.mk hword

end Walk

theorem ofPieces_finds {α : Type} {resolve : α → Resolution} {places : α → List (Option Nat)}
    (hpieces : ∀ piece, (resolve piece).Finds (places piece)) (pieces : List α) :
    (ofPieces resolve pieces).Finds (pieces.flatMap places) := by
  induction pieces with
  | nil => simp [ofPieces, finds_done]
  | cons piece pieces ih =>
    have hfirst := hpieces piece
    rw [ofPieces, List.flatMap_cons]
    cases hfailure : (resolve piece).failure with
    | some d =>
      simp only [Finds, hfailure] at hfirst ⊢
      obtain ⟨htells, rest, hrest⟩ := hfirst
      exact ⟨htells, rest ++ pieces.flatMap places, by simp [hrest]⟩
    | none =>
      simp only [Finds, hfailure] at hfirst
      rw [hfirst]
      exact ih.append

end Resolution

namespace VirtSpace

/-- The bytes of a page follow the one that the space is asked for. -/
theorem placeFrom?_eq (v : VirtSpace) {start b : VirtAddr} (hb : Resolution.Enters start b) {i : Nat}
    (hi : b.pageOffset + i < pageSize) :
    v.placeFrom? start (b.word.toNat + i) = (v.lookup b).map (·.word.toNat + i) := by
  obtain ⟨hlt, harrival⟩ := Resolution.arrival_eq hb hi
  rw [placeFrom?, dif_pos hlt, harrival]
  simp

theorem locates (v : VirtSpace) (start : VirtAddr) :
    Resolution.Locates (fun a => match v.lookup a with
      | some p => .ok p
      | none => .error ⟨.invalid, some (.noPage v.id a)⟩) start (v.placeFrom? start) where
  found b p hb hfind i hi := by
    rw [v.placeFrom?_eq hb hi, lookup_of_found hfind]
    rfl
  hole b d hb hfind := by
    have hplace := v.placeFrom?_eq hb (i := 0) b.pageOffset_lt
    split at hfind
    · cases hfind
    · next hnone =>
      obtain rfl := Except.error.inj hfind
      rw [hnone] at hplace
      exact ⟨⟨rfl, _, rfl, .noPage ..⟩, hplace⟩
  top := dif_neg (Nat.lt_irrefl _)

end VirtSpace

namespace Run

theorem resolve_finds (r : Run .virt) (v : VirtSpace) : (r.resolve v).Finds (r.places v) :=
  (Resolution.walks ..).finds (v.locates r.addr) ⟨rfl, _, rfl, .wrapsVirtual ..⟩
    (Resolution.enters_self _)

theorem split_finds (r : Run .phys) : r.split.Finds (r.bytes.map physPlace?) := by
  have hplace : Resolution.Locates .ok r.addr physPlace? := ⟨?_, ?_, ?_⟩
  · exact (Resolution.walks ..).finds hplace ⟨rfl, _, rfl, .wrapsPhysical _⟩
      (Resolution.enters_self _)
  · intro b p _ hfind i hi
    obtain rfl := Except.ok.inj hfind
    refine if_pos ?_
    have hlt := b.word.isLt
    rw [Addr.pageOffset_eq] at hi
    unfold pageSize at hi
    omega
  · intro b d _ hfind
    cases hfind
  · exact if_neg (Nat.lt_irrefl _)

end Run

namespace Payload

variable {p : Payload}

theorem resolve_of_isForeign (h : p.IsForeign) : p.resolve = ⟨[], some ⟨.unsupported, none⟩⟩ := by
  cases p with
  | scatter pieces space => exact if_neg (Bool.eq_false_iff.mp h)
  | linear | chain | raw => exact h.elim

/-- The runs of a payload in reach hold its bytes, up to the first that is nowhere. -/
theorem resolve_finds (hreach : ¬ p.IsForeign) : p.resolve.Finds p.places := by
  cases p with
  | linear base length space => exact Run.resolve_finds _ space
  | chain pieces space => exact Resolution.ofPieces_finds (Run.resolve_finds · space) pieces
  | scatter pieces space =>
    have hkernel : space.isKernel := Bool.not_eq_false _ ▸ hreach
    rw [resolve, if_pos hkernel]
    exact Resolution.ofPieces_finds (Run.resolve_finds · space) pieces
  | raw runs => exact Resolution.ofPieces_finds Run.split_finds runs

theorem not_isForeign_of_resolve (h : p.resolve.failure = none) : ¬ p.IsForeign := by
  intro hforeign
  rw [resolve_of_isForeign hforeign] at h
  cases h

end Payload

end Aperture
