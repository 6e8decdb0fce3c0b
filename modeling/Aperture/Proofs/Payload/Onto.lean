import Aperture.Payload.Onto
import Aperture.Proofs.Payload.Failure

namespace Aperture

namespace Resolution

variable {s : Space} {find : Addr s → Except Declined PhysAddr} {wraps : Declined}

theorem firstPart_isOk (a : Addr s) (remaining : Word) :
    ∃ part rest, firstPart a remaining = .ok (part, rest) := by
  have hoff := a.pageOffset_lt
  obtain ⟨room, hroom⟩ : ∃ room, Word.minus (.ofNat 64 pageSize) a.pageOffset = .ok room :=
    ⟨_, if_pos (Nat.le_of_lt hoff)⟩
  have hle : (remaining.smaller room).toNat ≤ remaining.toNat := by
    rw [Word.toNat_smaller]
    exact Nat.min_le_left ..
  obtain ⟨rest, hrest⟩ : ∃ rest, remaining.minus (remaining.smaller room).toNat = .ok rest :=
    ⟨_, if_pos hle⟩
  simp [firstPart, hroom, hrest]

theorem storedIn_of_le {r : Resolution} {storage : Storage} (h : r.runs.length ≤ storage.limit) :
    r.storedIn storage = r := if_pos h

theorem storedIn_of_lt {r : Resolution} {storage : Storage} (h : storage.limit < r.runs.length) :
    r.storedIn storage = ⟨r.runs.take storage.limit, some ⟨.outOfMemory, none⟩⟩ :=
  if_neg (Nat.not_le_of_lt h)

theorem storedIn_cons_of_le {storage : Storage} {out : List (Run .phys)}
    (h : storage.limit ≤ out.length) (r : Run .phys) (rest : Resolution) :
    ((rest.cons r).storedIn (storage.beside out.length)).after out =
      ⟨out, some ⟨.outOfMemory, none⟩⟩ := by
  have hlimit : (storage.beside out.length).limit = 0 := Nat.sub_eq_zero_of_le h
  rw [storedIn_of_lt (by rw [hlimit]; exact Nat.succ_pos _), hlimit]
  simp [after]

theorem storedIn_cons_of_lt {storage : Storage} {out : List (Run .phys)}
    (h : out.length < storage.limit) (r : Run .phys) (rest : Resolution) :
    ((rest.cons r).storedIn (storage.beside out.length)).after out =
      (rest.storedIn (storage.beside (out ++ [r]).length)).after (out ++ [r]) := by
  have hlimit : (storage.beside out.length).limit =
      (storage.beside (out ++ [r]).length).limit + 1 := by
    simp only [Storage.beside, List.length_append, List.length_singleton]
    omega
  rcases Nat.lt_or_ge (storage.beside (out ++ [r]).length).limit rest.runs.length with hlt | hle
  · rw [storedIn_of_lt hlt, storedIn_of_lt (by rw [hlimit]; exact Nat.succ_lt_succ hlt), hlimit]
    simp [after, cons]
  · rw [storedIn_of_le hle, storedIn_of_le (by rw [hlimit]; exact Nat.succ_le_succ hle)]
    simp [after, cons]

/-- The loop that appends takes the same parts as the one that only resolves. -/
theorem walkOnto_eq (storage : Storage) (out : List (Run .phys)) (a : Addr s) (remaining : Word) :
    walkOnto storage find wraps out a remaining =
      .ok (((walk find wraps a remaining.toNat).storedIn (storage.beside out.length)).after
        out) := by
  induction hn : remaining.toNat using Nat.strongRecOn generalizing out a remaining with
  | ind n ih =>
    rw [walkOnto, walk]
    by_cases hz : remaining = 0
    · have hz' : n = 0 := by rw [← hn, hz]; rfl
      simp [hz, hz', after, storedIn]
    have hz' : n ≠ 0 := fun h => hz (BitVec.eq_of_toNat_eq (hn.trans h))
    obtain ⟨part, rest, hfirst⟩ := firstPart_isOk a remaining
    obtain ⟨hpart, hrest⟩ := firstPart_eq_ok hfirst
    have hlt := rest_lt hfirst hz
    rw [hn] at hpart hrest hlt
    rw [dif_neg hz, if_neg hz']
    have hdone : rest = 0 ↔ n ≤ part.toNat := by
      rw [← BitVec.toNat_inj]
      change rest.toNat = 0 ↔ _
      omega
    have hleft : n - part.toNat = rest.toNat := by omega
    split
    · next hfault =>
      rw [hfirst] at hfault
      cases hfault
    · next part' rest' hfirst' =>
      rw [hfirst] at hfirst'
      obtain ⟨rfl, rfl⟩ := Prod.mk.inj (Except.ok.inj hfirst')
      cases find a with
      | error d => simp [after, storedIn]
      | ok p =>
        simp only [← hpart, hleft, BitVec.ofNatLT_toNat]
        have hlone (failure : Option Declined) :
            (⟨[⟨p, part⟩], failure⟩ : Resolution) = cons ⟨p, part⟩ ⟨[], failure⟩ := rfl
        rcases Nat.lt_or_ge out.length storage.limit with hroom | hfull
        · simp only [Storage.push_of_lt hroom]
          by_cases hlast : n ≤ part.toNat
          · rw [if_pos (hdone.mpr hlast), if_pos hlast, hlone, storedIn_cons_of_lt hroom]
            simp [after, storedIn]
          rw [if_neg fun h => hlast (hdone.mp h), if_neg hlast]
          cases a.plus? part.toNat with
          | none =>
            dsimp only
            rw [hlone, storedIn_cons_of_lt hroom]
            simp [after, storedIn]
          | some b =>
            dsimp only
            rw [storedIn_cons_of_lt hroom]
            exact ih _ hlt _ _ rest rfl
        · simp only [Storage.push_of_le hfull]
          by_cases hlast : n ≤ part.toNat
          · rw [if_pos hlast, hlone, storedIn_cons_of_le hfull]
          rw [if_neg hlast]
          cases a.plus? part.toNat with
          | none =>
            dsimp only
            rw [hlone, storedIn_cons_of_le hfull]
          | some b =>
            dsimp only
            rw [storedIn_cons_of_le hfull]

/-- Runs that are stored leave less storage for those that come after them. -/
theorem storedIn_append {first rest : Resolution} {storage : Storage} {n : Nat}
    (h : first.runs.length ≤ (storage.beside n).limit) :
    ({ rest with runs := first.runs ++ rest.runs } : Resolution).storedIn (storage.beside n) =
      (rest.storedIn (storage.beside (n + first.runs.length))).after first.runs := by
  have hlimit : (storage.beside n).limit =
      first.runs.length + (storage.beside (n + first.runs.length)).limit := by
    simp only [Storage.beside] at *
    omega
  rcases Nat.lt_or_ge (storage.beside (n + first.runs.length)).limit rest.runs.length with hlt | hle
  · rw [storedIn_of_lt hlt, storedIn_of_lt (by simp only [List.length_append]; omega), hlimit]
    simp [after, List.take_append, List.take_of_length_le]
  · rw [storedIn_of_le hle, storedIn_of_le (by simp only [List.length_append]; omega)]
    rfl

theorem ofPiecesOnto_eq {α : Type} {storage : Storage} {resolve : α → Resolution}
    {onto : List (Run .phys) → α → Checked Resolution}
    (honto : ∀ out piece,
      onto out piece = .ok (((resolve piece).storedIn (storage.beside out.length)).after out))
    (out : List (Run .phys)) (pieces : List α) :
    ofPiecesOnto onto out pieces =
      .ok (((ofPieces resolve pieces).storedIn (storage.beside out.length)).after out) := by
  induction pieces generalizing out with
  | nil => simp [ofPiecesOnto, ofPieces, after, storedIn]
  | cons piece pieces ih =>
    rw [ofPiecesOnto, ofPieces, honto, Checked.ok_bind]
    rcases Nat.lt_or_ge (storage.beside out.length).limit (resolve piece).runs.length with hlt | hle
    · -- the storage ends in this piece, whatever comes after it
      rw [storedIn_of_lt hlt]
      cases hfirst : (resolve piece).failure with
      | some d =>
        simp only [after]
        rw [storedIn_of_lt hlt, Checked.pure_eq]
      | none =>
        simp only [after]
        rw [storedIn_of_lt (by simp only [List.length_append]; omega), Checked.pure_eq,
          List.take_append_of_le_length (Nat.le_of_lt hlt)]
    · rw [storedIn_of_le hle]
      cases hfirst : (resolve piece).failure with
      | some d =>
        simp only [after, hfirst]
        rw [storedIn_of_le hle, hfirst, Checked.pure_eq]
      | none =>
        simp only [after, hfirst, ih]
        rw [storedIn_append hle]
        simp [after]

end Resolution

namespace Run

theorem resolveOnto_eq (storage : Storage) (space : VirtSpace) (out : List (Run .phys))
    (r : Run .virt) : resolveOnto storage space out r =
      .ok (((r.resolve space).storedIn (storage.beside out.length)).after out) :=
  Resolution.walkOnto_eq ..

theorem splitOnto_eq (storage : Storage) (out : List (Run .phys)) (r : Run .phys) :
    splitOnto storage out r = .ok ((r.split.storedIn (storage.beside out.length)).after out) :=
  Resolution.walkOnto_eq ..

end Run

namespace Payload

variable {p : Payload}

/-- Resolving a payload onto a list never faults, and only appends to the list. -/
theorem resolveOnto_eq (storage : Storage) (out : List (Run .phys)) (p : Payload) :
    p.resolveOnto storage out =
      .ok ((p.resolve.storedIn (storage.beside out.length)).after out) := by
  cases p with
  | linear base length space => exact Run.resolveOnto_eq ..
  | chain pieces space => exact Resolution.ofPiecesOnto_eq (Run.resolveOnto_eq storage space) ..
  | scatter pieces space =>
    rw [resolveOnto, resolve]
    split
    · exact Resolution.ofPiecesOnto_eq (Run.resolveOnto_eq storage space) ..
    · simp [Resolution.after, Resolution.storedIn]
  | raw runs => exact Resolution.ofPiecesOnto_eq (Run.splitOnto_eq storage) ..

theorem resolve_trimmed (p : Payload) : p.trimmed.resolve = p.resolve := by
  have pieces (rs : List (Run .virt)) (v : VirtSpace) :
      Resolution.ofPieces (·.resolve v) (rs.filter (!·.isEmpty)) =
        Resolution.ofPieces (·.resolve v) rs := by
    apply Resolution.ofPieces_filter
    intro r hkeep
    exact r.resolve_of_empty (by simpa using hkeep) v
  cases p with
  | linear base length space => rfl
  | chain rs space => exact pieces rs space
  | scatter rs space => simp only [trimmed, resolve, pieces]
  | raw rs =>
    apply Resolution.ofPieces_filter
    intro r hkeep
    exact Run.split_of_empty (by simpa using hkeep)

/-- The runs that are found for a payload, and why there are no more of them. -/
structure FoundAs (p : Payload) (runs : List (Run .phys)) (failure : Option Declined) : Prop where
  whole : ∀ r ∈ runs, r.isEmpty = false ∧ r.InPage
  done : failure = none → p.places = (runs.flatMap Run.bytes).map some
  /-- What was found before a failure are the bytes up to the first that is nowhere. -/
  cut : failure ≠ none → ¬ p.IsForeign →
    ∃ rest, p.places = (runs.flatMap Run.bytes).map some ++ none :: rest
  unsupported : failure.map (·.reason) = some .unsupported ↔ p.IsForeign
  invalid : failure.map (·.reason) = some .invalid ↔ ¬ p.IsForeign ∧ none ∈ p.places
  isDone : failure = none ↔ ¬ p.IsForeign ∧ none ∉ p.places

theorem foundAs_resolve (hoffsets : p.KeepsOffsets) :
    p.FoundAs p.resolve.runs p.resolve.failure := by
  have hwhole : ∀ r ∈ p.resolve.runs, r.isEmpty = false ∧ r.InPage := fun r hr =>
    ⟨Run.isEmpty_eq_false_iff.mpr (length_pos_resolve r hr), inPage_resolve hoffsets r hr⟩
  by_cases hforeign : p.IsForeign
  · refine ⟨hwhole, ?_, ?_, ?_, ?_, ?_⟩ <;> simp [resolve_of_isForeign hforeign, hforeign]
  have hfinds := resolve_finds hforeign
  have hiff := hfinds.failure_eq_none_iff
  cases hfailure : p.resolve.failure with
  | none =>
    simp only [Resolution.Finds, hfailure] at hfinds
    have hfull := hiff.mp hfailure
    refine ⟨hwhole, fun _ => hfinds, ?_, ?_, ?_, ?_⟩ <;> simp [hforeign, hfull]
  | some d =>
    obtain ⟨hreason, -⟩ := hfinds.of_failure hfailure
    simp only [Resolution.Finds, hfailure] at hfinds
    have hhole : none ∈ p.places := by
      obtain ⟨-, rest, hplaces⟩ := hfinds
      simp [hplaces]
    refine ⟨hwhole, ?_, fun _ _ => hfinds.2, ?_, ?_, ?_⟩ <;> simp [hforeign, hreason, hhole]

/-- The host can store the runs of the payload behind those that a list holds. -/
def StoredBehind (p : Payload) (out : List (Run .phys)) (storage : Storage) : Prop :=
  p.resolve.runs.length ≤ (storage.beside out.length).limit

/-- Resolving a payload appends to the list and never faults. Where its runs can be stored, these
are its bytes in whole runs, up to the first byte that is nowhere; only a scatter list out of reach
is unsupported, and empty pieces do not matter. Where pages are mapped as a whole, every byte is
where it is found on its own. Without the storage, the first runs are appended, and no more. -/
theorem resolveOnto_exact (storage : Storage) (out : List (Run .phys)) (hoffsets : p.KeepsOffsets) :
    ∃ runs failure, p.resolveOnto storage out = .ok ⟨out ++ runs, failure⟩ ∧
      p.trimmed.resolveOnto storage out = .ok ⟨out ++ runs, failure⟩ ∧
      (p.StoredBehind out storage → p.FoundAs runs failure ∧
        (p.IsPaged → (∀ bytes, p.bytes? = some bytes ↔ p.places = bytes.map some) ∧
          (none ∈ p.places ↔ p.IsUnbacked))) ∧
      (¬ p.StoredBehind out storage → failure = some ⟨.outOfMemory, none⟩ ∧
        runs = p.resolve.runs.take (storage.limit - out.length)) := by
  refine ⟨_, _, resolveOnto_eq storage out p, ?_, fun hstored => ?_, fun hstored => ?_⟩
  · rw [resolveOnto_eq, resolve_trimmed]
    rfl
  · rw [Resolution.storedIn_of_le hstored]
    exact ⟨foundAs_resolve hoffsets, fun hp =>
      ⟨fun _ => bytes?_eq_some_iff hp, none_mem_places_iff hp⟩⟩
  · rw [Resolution.storedIn_of_lt (Nat.lt_of_not_le hstored)]
    exact ⟨rfl, rfl⟩

/-- An empty piece whose page is not mapped, a piece that crosses into the next page and one that
ends with the last byte of the space. -/
theorem resolveOnto_up_to_top :
    let space : VirtSpace := .ofPages 1 [(⟨0x10⟩, #[⟨9⟩, ⟨4⟩]), (⟨0xfffffffffffff⟩, #[⟨0x40⟩])]
    let p : Payload :=
      .chain [⟨⟨0x900000⟩, 0⟩, ⟨⟨0x10ff8⟩, 16⟩, ⟨⟨0xfffffffffffffff0⟩, 16⟩] space
    let found : List (Run .phys) := [⟨⟨0x9ff8⟩, 8⟩, ⟨⟨0x4000⟩, 8⟩, ⟨⟨0x40ff0⟩, 16⟩]
    p.KeepsOffsets ∧ p.StoredBehind [⟨⟨0x1000⟩, 4⟩] .ample ∧
      p.resolveOnto .ample [⟨⟨0x1000⟩, 4⟩] = .ok ⟨⟨⟨0x1000⟩, 4⟩ :: found, none⟩ ∧
      p.FoundAs found none := by
  intro space p found
  have hpaged : p.IsPaged := by
    intro v hv
    obtain rfl := Option.some.inj hv
    exact VirtSpace.isPaged_ofPages 1 _
  have hstored : p.StoredBehind [⟨⟨0x1000⟩, 4⟩] .ample := by
    show p.resolve.runs.length ≤ _
    decide +kernel
  obtain ⟨runs, failure, honto, -, hwhole, -⟩ :=
    resolveOnto_exact .ample [⟨⟨0x1000⟩, 4⟩] hpaged.keepsOffsets
  have hrun : (do
      let res ← p.resolveOnto .ample [⟨⟨0x1000⟩, 4⟩]
      return (res.runs, res.failure.isNone) : Checked _).toOption =
        some (⟨⟨0x1000⟩, 4⟩ :: found, true) := by decide +kernel
  rw [honto] at hrun
  obtain ⟨hruns, hnone⟩ := Prod.mk.inj (Option.some.inj hrun)
  obtain rfl : runs = found := List.cons.inj hruns |>.2
  obtain rfl := Option.isNone_iff_eq_none.mp hnone
  exact ⟨hpaged.keepsOffsets, hstored, honto, (hwhole hstored).1⟩

end Payload

end Aperture
