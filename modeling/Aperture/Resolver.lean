import Aperture.Payload.Resolve

namespace Aperture

namespace Run

def proper (runs : List (Run .phys)) : List (Run .phys) := runs.filter fun r => !r.isEmpty

theorem proper_append (runs runs' : List (Run .phys)) :
    proper (runs ++ runs') = proper runs ++ proper runs' := List.filter_append ..

theorem proper_isPrefix {first runs : List (Run .phys)} (h : first <+: runs) :
    proper first <+: proper runs := by
  obtain ⟨rest, rfl⟩ := h
  rw [proper_append]
  exact List.prefix_append ..

theorem proper_proper (runs : List (Run .phys)) : proper (proper runs) = proper runs := by
  simp only [proper, List.filter_filter, Bool.and_self]

theorem flatMap_bytes_proper (runs : List (Run .phys)) :
    (proper runs).flatMap bytes = runs.flatMap bytes := by
  induction runs with
  | nil => rfl
  | cons r rest ih =>
    cases he : r.isEmpty with
    | true =>
      rw [proper, List.filter_cons_of_neg (by simp [he]), List.flatMap_cons, bytes_eq_nil he]
      exact ih
    | false =>
      rw [proper, List.filter_cons_of_pos (by simp [he]), List.flatMap_cons, List.flatMap_cons]
      exact congrArg (r.bytes ++ ·) ih

end Run

namespace Resolution

variable {r whole : Resolution} {s : Storage}

/-- What may come of a payload that `whole` is the resolution of. -/
structure Follows (r whole : Resolution) : Prop where
  /-- As long as no run crosses a page, the runs have the bytes of the payload in its order. -/
  inOrder : ∀ first, first <+: r.runs → (∀ x ∈ first, x.isEmpty = false → x.InPage) →
    first.flatMap Run.bytes <+: whole.runs.flatMap Run.bytes
  /-- Without a failure they have all of them. -/
  complete : r.failure = none → (∀ x ∈ r.runs, x.isEmpty = false → x.InPage) →
    whole.failure = none ∧ r.runs.flatMap Run.bytes = whole.runs.flatMap Run.bytes
  reasons : ∀ d, r.failure = some d →
    d.reason = .invalid ∨ d.reason = .unsupported ∨ d.reason = .outOfMemory

/-- As long as no run crosses a page, the bytes are cut where `whole` cuts them. -/
structure CutAs (r whole : Resolution) : Prop where
  inOrder : ∀ first, first <+: r.runs → (∀ x ∈ first, x.isEmpty = false → x.InPage) →
    Run.proper first <+: Run.proper whole.runs
  complete : r.failure = none → (∀ x ∈ r.runs, x.isEmpty = false → x.InPage) →
    whole.failure = none ∧ Run.proper r.runs = Run.proper whole.runs

theorem CutAs.refl (r : Resolution) : r.CutAs r :=
  ⟨fun _ hfirst _ => Run.proper_isPrefix hfirst, fun hdone _ => ⟨hdone, rfl⟩⟩

theorem CutAs.follows (h : r.CutAs whole) (hreasons : ∀ d, r.failure = some d →
    d.reason = .invalid ∨ d.reason = .unsupported ∨ d.reason = .outOfMemory) :
    r.Follows whole := by
  refine ⟨fun first hfirst hin => ?_, fun hdone hin => ?_, hreasons⟩
  · obtain ⟨more, hmore⟩ := h.inOrder first hfirst hin
    rw [← Run.flatMap_bytes_proper, ← Run.flatMap_bytes_proper whole.runs, ← hmore,
      List.flatMap_append]
    exact List.prefix_append ..
  · obtain ⟨hwhole, hruns⟩ := h.complete hdone hin
    rw [← Run.flatMap_bytes_proper, ← Run.flatMap_bytes_proper whole.runs, hruns]
    exact ⟨hwhole, rfl⟩

theorem storedIn_eq_of_failure_eq_none (h : (r.storedIn s).failure = none) : r.storedIn s = r := by
  unfold storedIn at *
  split at h
  · next hle => exact if_pos hle
  · cases h

theorem runs_storedIn_isPrefix (r : Resolution) (s : Storage) : (r.storedIn s).runs <+: r.runs := by
  unfold storedIn
  split
  · exact List.prefix_rfl
  · exact List.take_prefix ..

/-- Where storage ends, the runs are cut short and nothing else changes. -/
theorem CutAs.storedIn (h : r.CutAs whole) (s : Storage) : (r.storedIn s).CutAs whole := by
  refine ⟨fun first hfirst hin => ?_, fun hdone hin => ?_⟩
  · exact h.inOrder first (hfirst.trans (r.runs_storedIn_isPrefix s)) hin
  · have heq := storedIn_eq_of_failure_eq_none hdone
    rw [heq] at hdone hin ⊢
    exact h.complete hdone hin

theorem failure_storedIn {d : Declined} (h : (r.storedIn s).failure = some d) :
    d.reason = .outOfMemory ∨ r.failure = some d := by
  unfold storedIn at h
  split at h
  · exact .inr h
  · obtain rfl := Option.some.inj h
    exact .inl rfl

/-- A walk fails as the search for a part does, or where the space ends. -/
theorem reason_of_walk {space : Space} {find : Addr space → Except Declined PhysAddr}
    {wraps d : Declined} {reason : Refusal}
    (hfind : ∀ a d, find a = .error d → d.reason = reason) (hwraps : wraps.reason = reason)
    {a : Addr space} {n : Nat} (h : (walk find wraps a n).failure = some d) :
    d.reason = reason := by
  induction n using Nat.strongRecOn generalizing a with
  | ind n ih =>
    have hoff := a.pageOffset_lt
    rw [walk] at h
    split at h
    · cases h
    dsimp only at h
    split at h
    · next d' hd' =>
      obtain rfl := Option.some.inj h
      exact hfind a _ hd'
    split at h
    · cases h
    split at h
    · obtain rfl := Option.some.inj h
      exact hwraps
    · exact ih _ (by omega) h

theorem reason_of_ofPieces {α : Type} {resolve : α → Resolution} {d : Declined} {reason : Refusal}
    (hpiece : ∀ piece d, (resolve piece).failure = some d → d.reason = reason) {pieces : List α}
    (h : (ofPieces resolve pieces).failure = some d) : d.reason = reason := by
  induction pieces with
  | nil => cases h
  | cons piece pieces ih =>
    rw [ofPieces] at h
    dsimp only at h
    split at h
    · exact hpiece piece d h
    · exact ih h

end Resolution

namespace Run

variable {r : Run .phys}

theorem resolve_of_empty {r : Run .virt} (he : r.isEmpty = true) (v : VirtSpace) :
    r.resolve v = ⟨[], none⟩ := by
  rw [resolve, Resolution.walk, if_pos (isEmpty_iff.mp he)]

theorem split_of_empty (he : r.isEmpty = true) : r.split = ⟨[], none⟩ := by
  rw [split, Resolution.walk, if_pos (isEmpty_iff.mp he)]

theorem split_of_inPage (he : r.isEmpty = false) (hin : r.InPage) : r.split = ⟨[r], none⟩ := by
  have hne : r.length.toNat ≠ 0 := Nat.ne_of_gt (isEmpty_eq_false_iff.mp he)
  have hpart : min r.length.toNat (pageSize - r.addr.pageOffset) = r.length.toNat :=
    Nat.min_eq_left (Nat.le_sub_of_add_le (by rw [Nat.add_comm]; exact hin))
  rw [split, Resolution.walk, if_neg hne]
  dsimp only
  rw [if_pos (Nat.le_of_eq hpart.symm)]
  simp only [hpart, BitVec.ofNatLT_toNat]

theorem ofPieces_split_append {first : List (Run .phys)}
    (hin : ∀ x ∈ first, x.isEmpty = false → x.InPage) (rest : List (Run .phys)) :
    Resolution.ofPieces split (first ++ rest) =
      (Resolution.ofPieces split rest).after (proper first) := by
  induction first with
  | nil => rfl
  | cons r first ih =>
    have ih := ih fun x hx => hin x (List.mem_cons_of_mem _ hx)
    rw [List.cons_append, Resolution.ofPieces]
    cases he : r.isEmpty with
    | true =>
      rw [proper, List.filter_cons_of_neg (by simp [he]), split_of_empty he]
      exact ih
    | false =>
      rw [proper, List.filter_cons_of_pos (by simp [he]),
        split_of_inPage he (hin r List.mem_cons_self he)]
      simp only [ih]
      rfl

end Run

namespace Payload

theorem reason_of_resolve {p : Payload} {d : Declined} (h : p.resolve.failure = some d) :
    d.reason = .invalid ∨ d.reason = .unsupported := by
  have hvirt (r : Run .virt) (v : VirtSpace) (d : Declined)
      (h : (r.resolve v).failure = some d) : d.reason = .invalid := by
    refine Resolution.reason_of_walk (fun a d hfind => ?_) rfl h
    split at hfind
    · cases hfind
    · exact (Except.error.inj hfind) ▸ rfl
  have hpieces {pieces : List (Run .virt)} {v : VirtSpace}
      (h : (Resolution.ofPieces (·.resolve v) pieces).failure = some d) : d.reason = .invalid :=
    Resolution.reason_of_ofPieces (fun r => hvirt r v) h
  cases p with
  | linear base length space => exact .inl (hvirt _ _ _ h)
  | chain pieces space => exact .inl (hpieces h)
  | scatter pieces space =>
    rw [resolve] at h
    split at h
    · exact .inl (hpieces h)
    · exact .inr ((Option.some.inj h) ▸ rfl)
  | raw runs =>
    refine .inl (Resolution.reason_of_ofPieces (fun r d h => ?_) h)
    exact Resolution.reason_of_walk (fun _ _ hfind => by cases hfind) rfl h

/-- The runs of a physical payload as they are described, and those of any other payload. -/
def described : Payload → Resolution
  | raw runs => ⟨runs, none⟩
  | p => p.resolve

theorem cutAs_described (p : Payload) : p.described.CutAs p.resolve := by
  unfold described
  split
  · next runs =>
    refine ⟨fun first hfirst hin => ?_, fun _ hin => ?_⟩
    · obtain ⟨rest, rfl⟩ : first <+: runs := hfirst
      rw [resolve, Run.ofPieces_split_append hin rest]
      show Run.proper first <+: Run.proper (Run.proper first ++ _)
      rw [Run.proper_append, Run.proper_proper]
      exact List.prefix_append ..
    · have hall := Run.ofPieces_split_append hin []
      rw [List.append_nil] at hall
      rw [resolve, hall]
      refine ⟨rfl, ?_⟩
      show _ = Run.proper (Run.proper runs ++ [])
      rw [List.append_nil, Run.proper_proper]
  · exact .refl _

theorem reason_of_described {p : Payload} {d : Declined} (h : p.described.failure = some d) :
    d.reason = .invalid ∨ d.reason = .unsupported := by
  unfold described at h
  split at h
  · cases h
  · exact reason_of_resolve h

end Payload

/-- How payloads are resolved. -/
structure Resolver where
  resolve : Storage → Payload → Resolution
  follows : ∀ s p, (resolve s p).Follows p.resolve

namespace Resolver

/-- Runs are cut at pages, and nowhere else. -/
def IsPagewise (r : Resolver) : Prop := ∀ s p, (r.resolve s p).CutAs p.resolve

/-- Every payload is cut at pages. -/
def direct : Resolver where
  resolve s p := p.resolve.storedIn s
  follows s _ := ((Resolution.CutAs.refl _).storedIn s).follows fun _ hd =>
    (Resolution.failure_storedIn hd).elim (.inr ∘ .inr) fun hd =>
      (Payload.reason_of_resolve hd).imp id .inl

/-- Physical payloads are taken as they are described, and not cut at pages. -/
def verbatim : Resolver where
  resolve s p := p.described.storedIn s
  follows s p := (p.cutAs_described.storedIn s).follows fun _ hd =>
    (Resolution.failure_storedIn hd).elim (.inr ∘ .inr) fun hd =>
      (Payload.reason_of_described hd).imp id .inl

theorem isPagewise_direct : direct.IsPagewise := fun s _ => (Resolution.CutAs.refl _).storedIn s

/-- As long as no run crosses a page, there is nothing to cut. -/
theorem isPagewise_verbatim : verbatim.IsPagewise := fun s p => p.cutAs_described.storedIn s

/-- Appends the runs of a payload to those that a list holds already. -/
def resolveOnto (r : Resolver) (s : Storage) (out : List (Run .phys)) (p : Payload) : Resolution :=
  (r.resolve (s.beside out.length) p).after out

end Resolver

end Aperture
