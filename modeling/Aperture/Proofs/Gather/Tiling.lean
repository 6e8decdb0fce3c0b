import Aperture.Proofs.Gather.Chopping

namespace Aperture

namespace Stretch

variable {ss : List Stretch} {a b n : Nat}

theorem tiles_of_bytes (hpos : ∀ s ∈ ss, 0 < s.length) (h : ss.flatMap bytes = List.range' a n) :
    Tiles a (a + n) ss := by
  induction ss generalizing a n with
  | nil =>
    have hn : n = 0 := by simpa using h.symm
    rw [hn]
    rfl
  | cons s ss ih =>
    have hs := hpos s (List.mem_cons_self ..)
    have hle : s.length ≤ n := by
      have hlength := congrArg List.length h
      rw [List.flatMap_cons, List.length_append, bytes, List.length_range', List.length_range']
        at hlength
      omega
    have hsplit : List.range' a n =
        List.range' a s.length ++ List.range' (a + s.length) (n - s.length) := by
      rw [List.range'_append_1, Nat.add_sub_cancel' hle]
    obtain ⟨hfirst, hrest⟩ := List.append_inj (h.trans hsplit) (by simp [bytes])
    have hstart : s.start = a := (List.range'_inj.mp hfirst).2.resolve_left (Nat.ne_of_gt hs)
    have htiles := ih (fun s' hs' => hpos s' (List.mem_cons_of_mem _ hs')) hrest
    rw [Nat.add_assoc, Nat.add_sub_cancel' hle, ← hstart] at htiles
    rw [← hstart]
    exact ⟨rfl, hs, htiles⟩

theorem Tiles.le (h : Tiles a b ss) : a ≤ b := by
  induction ss generalizing a with
  | nil => exact Nat.le_of_eq h
  | cons s ss ih =>
    obtain ⟨hstart, -, hrest⟩ := h
    have hle : s.start + s.length ≤ b := ih hrest
    omega

theorem Tiles.inside (h : Tiles a b ss) : ∀ s ∈ ss, a ≤ s.start ∧ s.stop ≤ b := by
  induction ss generalizing a with
  | nil => simp
  | cons s ss ih =>
    obtain ⟨hstart, -, hrest⟩ := h
    intro s' hs'
    cases List.mem_cons.mp hs' with
    | inl he => exact he ▸ ⟨Nat.le_of_eq hstart.symm, hrest.le⟩
    | inr hmem =>
      obtain ⟨hlo, hhi⟩ := ih hrest s' hmem
      exact ⟨hstart ▸ Nat.le_trans (Nat.le_add_right ..) hlo, hhi⟩

end Stretch

namespace SegmentRules

variable {rules : SegmentRules} {ranges : List Stretch} {w : Stretch}

theorem segmentsOf_singleton (h : rules.Allows w) : rules.segmentsOf [w] = [w] := by
  show (rules.addRange [] w).reverse = [w]
  rw [addRange, Stretch.cut_of_not_crosses h.pos h.uncrossed]
  show ((w.chop rules.maxLength.toNat rules.maxLength_pos).reverse).reverse = [w]
  rw [List.reverse_reverse, Stretch.chop_of_le h.pos h.le]

/-- Bytes that may be one segment are one, whatever ranges they are in. -/
theorem segmentsOf_of_bytes (hw : rules.Allows w) (hpos : ∀ r ∈ ranges, 0 < r.length)
    (hbytes : ranges.flatMap Stretch.bytes = w.bytes) : rules.segmentsOf ranges = [w] := by
  have hfree : rules.LengthFree w := by
    intro s hstart hstop _
    have hle := hw.le
    unfold Stretch.stop at hstop
    omega
  have hwhole : ∀ r ∈ [w], w.start ≤ r.start ∧ r.stop ≤ w.stop := by simp
  have hinside : ∀ r ∈ ranges, w.start ≤ r.start ∧ r.stop ≤ w.stop :=
    (Stretch.tiles_of_bytes hpos hbytes).inside
  have hsame := hfree.segmentsOf_singles hwhole
  rw [List.flatMap_singleton, segmentsOf_singleton hw, ← hbytes] at hsame
  rw [← hfree.segmentsOf_singles hinside, hsame]

end SegmentRules

end Aperture
