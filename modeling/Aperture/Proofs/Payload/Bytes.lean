import Aperture.Bytes
import Aperture.Proofs.Frames.Record
import Aperture.Proofs.Payload.Found
import Aperture.Proofs.Word.Total

namespace Aperture

section Ranges

variable {α β : Type} {f : α → Option β} {l l₁ l₂ : List α} {r r₁ r₂ : List β}

theorem mapM_eq_some_iff : l.mapM f = some r ↔ l.map f = r.map some := by
  induction l generalizing r with
  | nil => simp
  | cons a l ih =>
    rw [List.mapM_cons, List.map_cons]
    cases r with
    | nil =>
      cases f a <;> cases l.mapM f <;> simp
    | cons b r =>
      rw [List.map_cons, List.cons.injEq, ← ih]
      cases f a <;> cases l.mapM f <;> simp

theorem mapM_range'_shift {f : Nat → Option Nat} {s t n : Nat}
    (h : ∀ i < n, f (s + i) = some (t + i)) :
    (List.range' s n).mapM f = some (List.range' t n) :=
  mapM_eq_some_iff.mpr (map_range'_congr h)

theorem mapM_append_eq_some (h₁ : l₁.mapM f = some r₁) (h₂ : l₂.mapM f = some r₂) :
    (l₁ ++ l₂).mapM f = some (r₁ ++ r₂) := by
  rw [List.mapM_append, h₁, h₂]
  rfl

theorem length_of_mapM_eq_some (h : l.mapM f = some r) : r.length = l.length := by
  have hmap := congrArg List.length (mapM_eq_some_iff.mp h)
  rw [List.length_map, List.length_map] at hmap
  exact hmap.symm

end Ranges

namespace VirtSpace.IsPaged

variable {v : VirtSpace} {a : VirtAddr} {p q : PhysAddr}

theorem of_lookup (hv : v.IsPaged) (h : v.lookup a = some p) :
    ∃ q, v.lookup a.pageBase = some q ∧ q.pageOffset = 0 ∧
      p.word.toNat = q.word.toNat + a.pageOffset := by
  have hpage := hv a
  cases hq : v.lookup a.pageBase with
  | none =>
    simp only [hq] at hpage
    rw [hpage] at h
    cases h
  | some q =>
    simp only [hq] at hpage
    obtain ⟨hstart, hlookup⟩ := hpage
    exact ⟨q, rfl, hstart, Addr.plus?_eq_some_iff.mp (hlookup.symm.trans h)⟩

theorem lookup_of_pageBase (hv : v.IsPaged) (h : v.lookup a.pageBase = some q) :
    ∃ p, v.lookup a = some p ∧ p.word.toNat = q.word.toNat + a.pageOffset := by
  have hpage := hv a
  simp only [h] at hpage
  obtain ⟨hstart, hlookup⟩ := hpage
  have hfits : q.word.toNat + a.pageOffset < 2 ^ 64 := by
    have hlt := q.word.isLt
    have hoff := a.pageOffset_lt
    rw [Addr.pageOffset_eq] at hstart
    unfold pageSize at hstart hoff
    omega
  have hto : (BitVec.ofNatLT _ hfits).toNat = q.word.toNat + a.pageOffset :=
    BitVec.toNat_ofNatLT ..
  exact ⟨⟨_⟩, hlookup.trans (Addr.plus?_eq_some_iff.mpr hto), hto⟩

theorem lookup_eq_none_iff (hv : v.IsPaged) : v.lookup a = none ↔ v.lookup a.pageBase = none := by
  constructor
  · intro h
    cases hbase : v.lookup a.pageBase with
    | none => rfl
    | some q =>
      obtain ⟨p, hp, -⟩ := hv.lookup_of_pageBase hbase
      rw [h] at hp
      cases hp
  · intro h
    cases hlookup : v.lookup a with
    | none => rfl
    | some p =>
      obtain ⟨q, hq, -⟩ := hv.of_lookup hlookup
      rw [h] at hq
      cases hq

theorem pageOffset_eq (hv : v.IsPaged) {p : PhysAddr} (h : v.lookup a = some p) :
    p.pageOffset = a.pageOffset := by
  obtain ⟨q, -, hq, hto⟩ := hv.of_lookup h
  have hoff := a.pageOffset_lt
  rw [Addr.pageOffset_eq] at hq ⊢
  rw [hto]
  unfold pageSize at hq hoff ⊢
  omega

theorem keepsOffsets (hv : v.IsPaged) : v.KeepsOffsets := fun _ _ => hv.pageOffset_eq

/-- In a space that maps pages as a whole, it does not matter where a walk comes into a page. -/
theorem placeFrom?_eq (hv : v.IsPaged) {start : VirtAddr} {n : Nat} (h : start.word.toNat ≤ n) :
    v.placeFrom? start n = v.byte? n := by
  by_cases hlt : n < 2 ^ 64
  · have hn : (BitVec.ofNatLT n hlt).toNat = n := BitVec.toNat_ofNatLT ..
    have hbase := Addr.pageBase_arrival (a := start) (b := ⟨.ofNatLT n hlt⟩) (hn.symm ▸ h)
    have hstart := Addr.toNat_arrival start ⟨.ofNatLT n hlt⟩
    rw [VirtSpace.placeFrom?, VirtSpace.byte?, dif_pos hlt, dif_pos hlt]
    generalize hb : start.arrival ⟨.ofNatLT n hlt⟩ = b at hbase hstart
    -- both addresses are placed by where the space puts the start of their common page
    cases hq : v.lookup (Addr.pageBase ⟨.ofNatLT n hlt⟩) with
    | none => simp [hv.lookup_eq_none_iff.mpr hq, hv.lookup_eq_none_iff.mpr (hbase.symm ▸ hq)]
    | some q =>
      obtain ⟨p, hp, hto⟩ := hv.lookup_of_pageBase hq
      obtain ⟨p', hp', hto'⟩ := hv.lookup_of_pageBase (hbase.symm ▸ hq)
      have hsame := congrArg (·.word.toNat) hbase
      simp only [Addr.toNat_pageBase, hn] at hsame hstart
      rw [Addr.pageOffset_eq, hn] at hto
      rw [Addr.pageOffset_eq] at hto'
      simp only [hp, hp', Option.map_some, Option.some.injEq]
      unfold pageSize at hsame hstart hto hto'
      omega
  · rw [VirtSpace.placeFrom?, VirtSpace.byte?, dif_neg hlt, dif_neg hlt]

end VirtSpace.IsPaged

namespace Run

variable {v : VirtSpace}

theorem places_eq (hv : v.IsPaged) (r : Run .virt) : r.places v = r.bytes.map v.byte? := by
  apply List.map_congr_left
  intro n hn
  exact hv.placeFrom?_eq (List.mem_range'_1.mp hn).1

theorem flatMap_places_eq (hv : v.IsPaged) (pieces : List (Run .virt)) :
    pieces.flatMap (·.places v) = (pieces.flatMap bytes).map v.byte? := by
  simp [List.map_flatMap, places_eq hv]

end Run

namespace Payload

theorem bytes?_eq_some_iff {p : Payload} (hp : p.IsPaged) {bytes : List Nat} :
    p.bytes? = some bytes ↔ p.places = bytes.map some := by
  cases p with
  | linear base length space =>
    rw [bytes?, mapM_eq_some_iff, places, Run.places_eq (hp space rfl)]
  | chain pieces space =>
    rw [bytes?, mapM_eq_some_iff, places, Run.flatMap_places_eq (hp space rfl)]
  | scatter pieces space =>
    rw [bytes?, mapM_eq_some_iff, places, Run.flatMap_places_eq (hp space rfl)]
  | raw runs =>
    rw [bytes?, mapM_eq_some_iff, places, List.map_flatMap]
    rfl

theorem bytes?_of_resolve {p : Payload} (hp : p.IsPaged) (h : p.resolve.failure = none) :
    p.bytes? = some (p.resolve.runs.flatMap Run.bytes) := by
  have hfinds := resolve_finds (not_isForeign_of_resolve h)
  simp only [Resolution.Finds, h] at hfinds
  exact (bytes?_eq_some_iff hp).mpr hfinds

theorem length_bytes {p : Payload} {bs : List Nat} {n : Word} (hbytes : p.bytes? = some bs)
    (hlen : p.length? = some n) : bs.length = n.toNat := by
  have pieces {s : Space} {rs : List (Run s)} (h : Word.total? (rs.map (·.length)) = some n) :
      (rs.flatMap Run.bytes).length = n.toNat := by
    rw [Word.total?_eq_some_iff, List.map_map] at h
    rw [List.length_flatMap, h]
    congr 1
    exact List.map_congr_left fun r _ => List.length_range'
  cases p with
  | linear base length space =>
    obtain rfl := Option.some.inj hlen
    have hmap : (Run.bytes ⟨base, length⟩).mapM space.byte? = some bs := hbytes
    exact (length_of_mapM_eq_some hmap).trans List.length_range'
  | chain rs space =>
    have hmap : (rs.flatMap Run.bytes).mapM space.byte? = some bs := hbytes
    exact (length_of_mapM_eq_some hmap).trans (pieces hlen)
  | scatter rs space =>
    have hmap : (rs.flatMap Run.bytes).mapM space.byte? = some bs := hbytes
    exact (length_of_mapM_eq_some hmap).trans (pieces hlen)
  | raw rs =>
    have hmap : (rs.flatMap Run.bytes).mapM (fun n => if n < 2 ^ 64 then some n else none) =
        some bs := hbytes
    exact (length_of_mapM_eq_some hmap).trans (pieces hlen)

section FirstTouch

variable {α : Type} [BEq α] [LawfulBEq α]

theorem eraseDups_append_replicate {a : α} {l : List α} (h : a ∈ l) (n : Nat) (rest : List α) :
    (l ++ (List.replicate n a ++ rest)).eraseDups = (l ++ rest).eraseDups := by
  induction n with
  | zero => rfl
  | succ n ih =>
    rw [List.replicate_succ, List.cons_append, eraseDups_append_cons h]
    exact ih

end FirstTouch

theorem map_frameAt_bytes {r : Run .phys} (h : r.InPage) :
    r.bytes.map frameAt = List.replicate r.length.toNat r.addr.pageNo := by
  refine List.eq_replicate_iff.mpr ⟨by rw [List.length_map, Run.bytes, List.length_range'], ?_⟩
  intro f hf
  obtain ⟨n, hn, rfl⟩ := List.mem_map.mp hf
  obtain ⟨hge, hlt⟩ := List.mem_range'_1.mp hn
  have hdiv : n / pageSize = r.addr.word.toNat / pageSize := by
    unfold Run.InPage at h
    rw [Addr.pageOffset_eq] at h
    unfold pageSize at h ⊢
    omega
  have hword : (frameAt n).word = r.addr.pageNo.word := BitVec.eq_of_toNat_eq (by
    rw [frameAt, BitVec.toNat_ofNat, hdiv, ← Addr.toNat_pageNo, Nat.mod_eq_of_lt (BitVec.isLt _)])
  exact congrArg PageNo.mk hword

/-- Going over the bytes meets the same frames first as going over the runs. -/
theorem eraseDups_map_frameAt {runs : List (Run .phys)}
    (h : ∀ r ∈ runs, r.isEmpty = false → r.InPage) (seen : List FrameNo) :
    (seen ++ (runs.flatMap Run.bytes).map frameAt).eraseDups =
      (seen ++ Run.pageNos runs).eraseDups := by
  induction runs generalizing seen with
  | nil => rfl
  | cons r rest ih =>
    have hrest := ih fun r' hr' => h r' (by simp [hr'])
    rw [List.flatMap_cons, List.map_append]
    cases he : r.isEmpty with
    | true =>
      have hpages : Run.pageNos (r :: rest) = Run.pageNos rest := by simp [Run.pageNos, he]
      rw [Run.bytes_eq_nil he, hpages]
      exact hrest seen
    | false =>
      have hpages : Run.pageNos (r :: rest) = r.addr.pageNo :: Run.pageNos rest := by
        simp [Run.pageNos, he]
      have hpos := Run.isEmpty_eq_false_iff.mp he
      obtain ⟨n, hn⟩ := Nat.exists_eq_succ_of_ne_zero (Nat.ne_of_gt hpos)
      have hcons (l : List FrameNo) :
          seen ++ r.addr.pageNo :: l = (seen ++ [r.addr.pageNo]) ++ l := by
        rw [List.append_assoc, List.singleton_append]
      rw [map_frameAt_bytes (h r (by simp) he), hn, List.replicate_succ, List.cons_append, hpages,
        hcons, hcons (Run.pageNos rest), eraseDups_append_replicate (by simp) n, hrest]

theorem frames_eq {p : Payload} {runs : List (Run .phys)}
    (hbytes : p.bytes? = some (runs.flatMap Run.bytes))
    (h : ∀ r ∈ runs, r.isEmpty = false → r.InPage) : p.frames = Run.frames runs := by
  rw [frames, hbytes, Option.getD_some]
  exact eraseDups_map_frameAt h []

end Payload

end Aperture
