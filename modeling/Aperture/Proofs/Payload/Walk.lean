import Aperture.Resolver
import Aperture.Word.Rounding

namespace Aperture

theorem Addr.plus?_eq_none_iff {s : Space} {a : Addr s} {n : Nat} :
    a.plus? n = none ↔ 2 ^ 64 ≤ a.word.toNat + n := by
  rw [plus?, Option.map_eq_none_iff]
  exact Word.plus?_eq_none_iff

theorem VirtSpace.lookup_of_found {v : VirtSpace} {a : VirtAddr} {p : PhysAddr} {d : Declined}
    (h : (match v.lookup a with
      | some p => Except.ok p
      | none => .error d) = .ok p) : v.lookup a = some p := by
  split at h
  · next hq => exact hq.trans (congrArg some (Except.ok.inj h))
  · cases h

namespace Resolution

variable {s : Space}

/-- What walking over `n` bytes from `a` on comes to. -/
inductive Walks (find : Addr s → Except Declined PhysAddr) (wraps : Declined) :
    Addr s → Nat → Resolution → Prop
  | done (a : Addr s) : Walks find wraps a 0 ⟨[], none⟩
  | hole {a : Addr s} {n : Nat} {d : Declined}
      (hn : 0 < n)
      (hfind : find a = .error d) :
      Walks find wraps a n ⟨[], some d⟩
  /-- The bytes end in the page that they begin in. -/
  | last {a : Addr s} {n : Nat} {r : Run .phys}
      (hn : 0 < n)
      (hfind : find a = .ok r.addr)
      (hlength : r.length.toNat = n)
      (hin : a.pageOffset + n ≤ pageSize) :
      Walks find wraps a n ⟨[r], none⟩
  /-- The page that they begin in is the last of the space, and there are more bytes. -/
  | top {a : Addr s} {n : Nat} {r : Run .phys}
      (hfind : find a = .ok r.addr)
      (hlength : a.pageOffset + r.length.toNat = pageSize)
      (hout : r.length.toNat < n)
      (htop : 2 ^ 64 ≤ a.word.toNat + r.length.toNat) :
      Walks find wraps a n ⟨[r], some wraps⟩
  | next {a b : Addr s} {n : Nat} {r : Run .phys} {rest : Resolution}
      (hfind : find a = .ok r.addr)
      (hlength : a.pageOffset + r.length.toNat = pageSize)
      (hout : r.length.toNat < n)
      (hnext : b.word.toNat = a.word.toNat + r.length.toNat)
      (hrest : Walks find wraps b (n - r.length.toNat) rest) :
      Walks find wraps a n (rest.cons r)

theorem walks (find : Addr s → Except Declined PhysAddr) (wraps : Declined) (a : Addr s) (n : Nat) :
    Walks find wraps a n (walk find wraps a n) := by
  -- an offset is below the page size, so each part takes at least one byte
  induction n using Nat.strongRecOn generalizing a with
  | ind n ih =>
    rw [walk]
    by_cases hz : n = 0
    · rw [if_pos hz, hz]
      exact .done a
    rw [if_neg hz]
    have hoff := a.pageOffset_lt
    cases hfind : find a with
    | error d => exact .hole (Nat.pos_of_ne_zero hz) hfind
    | ok p =>
      dsimp only
      generalize hr : Run.mk p _ = r
      have haddr : find a = .ok r.addr := by rw [← hr, hfind]
      have hlength : r.length.toNat = min n (pageSize - a.pageOffset) := by
        rw [← hr]
        exact BitVec.toNat_ofNatLT ..
      rw [← hlength]
      by_cases hlast : n ≤ r.length.toNat
      · rw [if_pos hlast]
        exact .last (Nat.pos_of_ne_zero hz) haddr (by omega) (by omega)
      · rw [if_neg hlast]
        cases hnext : a.plus? r.length.toNat with
        | none =>
          have htop := Addr.plus?_eq_none_iff.mp hnext
          exact .top haddr (by omega) (by omega) htop
        | some b =>
          have hto := Addr.plus?_eq_some_iff.mp hnext
          exact .next haddr (by omega) (by omega) hto (ih (n - r.length.toNat) (by omega) b)

theorem Walks.length_pos {find : Addr s → Except Declined PhysAddr} {wraps : Declined} {a : Addr s}
    {n : Nat} {res : Resolution} (h : Walks find wraps a n res) :
    ∀ r ∈ res.runs, 0 < r.length.toNat := by
  induction h with
  | done => simp
  | hole => simp
  | last hn _ hlength =>
    simp only [List.mem_singleton, forall_eq]
    exact hlength ▸ hn
  | @top a _ r _ hlength =>
    have hoff := a.pageOffset_lt
    simp only [List.mem_singleton, forall_eq]
    omega
  | @next a _ _ r _ _ hlength _ _ _ ih =>
    have hoff := a.pageOffset_lt
    intro r' hr'
    cases List.mem_cons.mp hr' with
    | inl he =>
      rw [he]
      omega
    | inr hrest => exact ih r' hrest

/-- Pieces that come to nothing may be left out. -/
theorem ofPieces_filter {α : Type} {resolve : α → Resolution} {keep : α → Bool}
    (hskip : ∀ piece, keep piece = false → resolve piece = ⟨[], none⟩) (pieces : List α) :
    ofPieces resolve (pieces.filter keep) = ofPieces resolve pieces := by
  induction pieces with
  | nil => simp
  | cons piece pieces ih =>
    cases hkeep : keep piece with
    | true => simp [hkeep, ofPieces, ih]
    | false => simp [hkeep, ofPieces, ih, hskip piece hkeep]

end Resolution

end Aperture
