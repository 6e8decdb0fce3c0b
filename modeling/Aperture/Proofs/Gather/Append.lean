import Aperture.Bytes
import Aperture.Gather.Pieces

namespace Aperture

namespace SegmentRules

theorem sameBlock_iff {rules : SegmentRules} {a b : BusAddr} :
    rules.sameBlock a b ↔ (rules.boundary.toNat = 0 ∨
      a.word.toNat / rules.boundary.toNat = b.word.toNat / rules.boundary.toNat) := by
  simp only [sameBlock, Bool.or_eq_true, beq_iff_eq, Word.eq_zero_iff]

end SegmentRules

namespace Run

variable {s : Space}

theorem stretch_ofNat {a : Addr s} {n : Nat} (h : n < 2 ^ 64) :
    (⟨a, .ofNat 64 n⟩ : Run s).stretch = ⟨a.word.toNat, n⟩ := by
  rw [stretch, BitVec.toNat_ofNat, Nat.mod_eq_of_lt h]

theorem stop_eq_ok_iff {r : Run s} {a : Addr s} : r.stop = .ok a ↔ a.word.toNat = r.stretch.stop :=
  Addr.plus_eq_ok_iff

end Run

namespace GatherList

/-- The last segment can take `piece` bytes from `a` on. -/
def CanGrow (g : GatherList) (a : BusAddr) (piece : Nat) : Prop :=
  ∃ last older, g.newestFirst = last :: older ∧
    g.rules.Joins last.stretch ⟨a.word.toNat, piece⟩

/-- The list is `g` with its last segment grown by `piece` bytes. -/
structure GrownFrom (grown g : GatherList) (piece : Nat) (last : Run .bus)
    (older : List (Run .bus)) : Prop where
  rules : grown.rules = g.rules
  before : g.newestFirst = last :: older
  after : grown.newestFirst = ⟨last.addr, .ofNat 64 (last.length.toNat + piece)⟩ :: older

theorem extend?_cases {g : GatherList} {a : BusAddr} {piece : Nat} {result : Option GatherList}
    (h : g.extend? a piece = .ok result) :
    match result with
    | none => ¬ g.CanGrow a piece
    | some grown => ∃ last older, grown.GrownFrom g piece last older ∧
        g.rules.Joins last.stretch ⟨a.word.toNat, piece⟩ := by
  unfold extend? at h
  split at h
  · next hnil =>
    obtain rfl := Except.ok.inj h
    intro hgrow
    obtain ⟨last, older, heq, -⟩ := hgrow
    rw [hnil] at heq
    cases heq
  · next last older hlast =>
    obtain ⟨stop, hstop, h⟩ := Checked.bind_eq_ok.mp h
    rw [Run.stop_eq_ok_iff] at hstop
    have hjoins : g.rules.Joins last.stretch ⟨a.word.toNat, piece⟩ ↔
        stop = a ∧ g.rules.sameBlock last.addr a ∧
          last.length.toNat + piece ≤ g.rules.maxLength.toNat := by
      have heq : stop = a ↔ last.stretch.stop = a.word.toNat := by
        rw [← hstop]
        exact ⟨fun e => by rw [e], fun e => congrArg Addr.mk (BitVec.eq_of_toNat_eq e)⟩
      rw [heq, SegmentRules.sameBlock_iff]
      exact Iff.rfl
    by_cases hfits : stop = a ∧ g.rules.sameBlock last.addr a ∧
        last.length.toNat + piece ≤ g.rules.maxLength.toNat
    · simp only [if_pos hfits] at h
      obtain rfl := Except.ok.inj h
      exact ⟨last, older, ⟨rfl, hlast, rfl⟩, hjoins.mpr hfits⟩
    · simp only [if_neg hfits] at h
      obtain rfl := Except.ok.inj h
      intro hgrow
      obtain ⟨last', older', heq, hj⟩ := hgrow
      obtain ⟨rfl, rfl⟩ := List.cons.inj (hlast.symm.trans heq)
      exact hfits (hjoins.mp hj)

/-- What appending `remaining` bytes from `a` on comes to, round by round. -/
inductive Appends : GatherList → BusAddr → Nat → GatherList × Option Refusal → Prop
  | done (g : GatherList) (a : BusAddr) : Appends g a 0 (g, none)
  /-- The last segment takes the whole piece up to the next boundary. -/
  | grow {g grown : GatherList} {a next : BusAddr} {remaining : Nat} {last : Run .bus}
      {older : List (Run .bus)} {out : GatherList × Option Refusal}
      (hpos : 0 < remaining)
      (hgrown : grown.GrownFrom g (min remaining (g.rules.room a)) last older)
      (hjoins : g.rules.Joins last.stretch ⟨a.word.toNat, min remaining (g.rules.room a)⟩)
      (hnext : next.word.toNat = a.word.toNat + min remaining (g.rules.room a))
      (rest : Appends grown next (remaining - min remaining (g.rules.room a)) out) :
      Appends g a remaining out
  | full {g : GatherList} {a : BusAddr} {remaining : Nat}
      (hpos : 0 < remaining)
      (hgrow : ¬ g.CanGrow a (min remaining (g.rules.room a)))
      (hfull : g.rules.maxCount.toNat ≤ g.count) :
      Appends g a remaining (g, some .tooManySegments)
  | push {g : GatherList} {a next : BusAddr} {remaining : Nat}
      {out : GatherList × Option Refusal}
      (hpos : 0 < remaining)
      (hgrow : ¬ g.CanGrow a (min remaining (g.rules.room a)))
      (hroom : g.count < g.rules.maxCount.toNat)
      (hnext : next.word.toNat = a.word.toNat +
        min (min remaining (g.rules.room a)) g.rules.maxLength.toNat)
      (rest : Appends (g.push ⟨a, .ofNat 64
          (min (min remaining (g.rules.room a)) g.rules.maxLength.toNat)⟩) next
        (remaining - min (min remaining (g.rules.room a)) g.rules.maxLength.toNat) out) :
      Appends g a remaining out

theorem appends_of_appendFrom {g : GatherList} {a : BusAddr} {remaining : Nat}
    {out : GatherList × Option Refusal} (h : g.appendFrom a remaining = .ok out) :
    Appends g a remaining out := by
  -- neither the room before a boundary nor the length limit is zero, so each round takes some bytes
  induction remaining using Nat.strongRecOn generalizing g a with
  | ind remaining ih =>
    rw [appendFrom] at h
    by_cases hz : remaining = 0
    · rw [if_pos hz] at h
      obtain rfl := Except.ok.inj h
      rw [hz]
      exact .done g a
    rw [if_neg hz] at h
    have hpos : 0 < remaining := Nat.pos_of_ne_zero hz
    have hroom := g.rules.room_pos a
    obtain ⟨extended, hextended, h⟩ := Checked.bind_eq_ok.mp h
    have hcases := extend?_cases hextended
    cases extended with
    | some grown =>
      obtain ⟨last, older, hgrown, hjoins⟩ := hcases
      obtain ⟨next, hnext, h⟩ := Checked.bind_eq_ok.mp h
      rw [Addr.plus_eq_ok_iff] at hnext
      exact .grow hpos hgrown hjoins hnext (ih _ (by omega) h)
    | none =>
      by_cases hfull : g.rules.maxCount.toNat ≤ g.count
      · simp only [if_pos hfull] at h
        obtain rfl := Except.ok.inj h
        exact .full hpos hcases hfull
      · simp only [if_neg hfull] at h
        have hmax := g.rules.maxLength_pos
        obtain ⟨next, hnext, h⟩ := Checked.bind_eq_ok.mp h
        rw [Addr.plus_eq_ok_iff] at hnext
        exact .push hpos hcases (Nat.lt_of_not_le hfull) hnext (ih _ (by omega) h)

theorem Appends.rules_eq {g : GatherList} {a : BusAddr} {remaining : Nat}
    {out : GatherList × Option Refusal} (h : Appends g a remaining out) :
    out.1.rules = g.rules := by
  induction h with
  | done => rfl
  | grow _ hgrown _ _ _ ih => exact ih.trans hgrown.rules
  | full => rfl
  | push _ _ _ _ _ ih => exact ih

theorem bytes_eq (g : GatherList) : g.bytes = g.newestFirst.reverse.flatMap Run.bytes := rfl

theorem bytes_push (g : GatherList) (r : Run .bus) : (g.push r).bytes = g.bytes ++ r.bytes := by
  simp [bytes_eq, push]

theorem GrownFrom.bytes_eq {grown g : GatherList} {piece : Nat} {last : Run .bus}
    {older : List (Run .bus)} (h : grown.GrownFrom g piece last older)
    (hlt : last.length.toNat + piece < 2 ^ 64) :
    grown.bytes = g.bytes ++ List.range' last.stretch.stop piece := by
  rw [GatherList.bytes_eq, GatherList.bytes_eq, h.before, h.after, List.reverse_cons,
    List.reverse_cons, List.flatMap_append, List.flatMap_append, List.append_assoc]
  congr 1
  simp only [List.flatMap_cons, List.flatMap_nil, List.append_nil, Run.bytes, BitVec.toNat_ofNat,
    Nat.mod_eq_of_lt hlt]
  exact (List.range'_append_1 ..).symm

/-- The bytes after a round in which the last segment takes a piece. -/
theorem GrownFrom.bytes_grown {grown g : GatherList} {a : BusAddr} {piece : Nat} {last : Run .bus}
    {older : List (Run .bus)} (h : grown.GrownFrom g piece last older)
    (hjoins : g.rules.Joins last.stretch ⟨a.word.toNat, piece⟩) :
    grown.bytes = g.bytes ++ List.range' a.word.toNat piece := by
  obtain ⟨hstop, -, hfits⟩ := hjoins
  have hlt : last.length.toNat + piece < 2 ^ 64 :=
    Nat.lt_of_le_of_lt hfits g.rules.maxLength.isLt
  rw [h.bytes_eq hlt, hstop]

theorem bytes_push_part {a : BusAddr} {part : Nat} (g : GatherList) (hlt : part < 2 ^ 64) :
    (g.push ⟨a, .ofNat 64 part⟩).bytes = g.bytes ++ List.range' a.word.toNat part := by
  rw [bytes_push, Run.bytes, BitVec.toNat_ofNat, Nat.mod_eq_of_lt hlt]

/-- Of `n` bytes from `a` on only `k` are appended: there may be no more segments, and the last one
cannot take what comes next. -/
structure StopsAfter (g : GatherList) (a : BusAddr) (n k : Nat) : Prop where
  short : k < n
  full : g.rules.maxCount.toNat ≤ g.count
  stuck : ∃ next : BusAddr, next.word.toNat = a.word.toNat + k ∧
    ¬ g.CanGrow next (min (n - k) (g.rules.room next))

/-- The bytes of a list are those before and then those of the range, all of them or the first ones
up to where the segments run out. -/
def Takes (g : GatherList) (a : BusAddr) (n : Nat) (out : GatherList × Option Refusal) : Prop :=
  ∃ k, out.1.bytes = g.bytes ++ List.range' a.word.toNat k ∧
    match out.2 with
    | none => k = n
    | some reason => reason = .tooManySegments ∧ out.1.StopsAfter a n k

section Rest

variable {g g' : GatherList} {a next : BusAddr} {n j k : Nat} {out : GatherList × Option Refusal}

/-- What follows the first `j` bytes stops where the range does. -/
theorem StopsAfter.of_rest (h : g.StopsAfter next (n - j) k)
    (hnext : next.word.toNat = a.word.toNat + j) : g.StopsAfter a n (j + k) := by
  have hshort := h.short
  obtain ⟨b, hb, hstuck⟩ := h.stuck
  refine ⟨by omega, h.full, b, by omega, ?_⟩
  rw [show n - (j + k) = n - j - k by omega]
  exact hstuck

theorem Takes.of_rest (h : g'.Takes next (n - j) out) (hj : j ≤ n)
    (hnext : next.word.toNat = a.word.toNat + j)
    (hbytes : g'.bytes = g.bytes ++ List.range' a.word.toNat j) : g.Takes a n out := by
  obtain ⟨k, hk, hend⟩ := h
  refine ⟨j + k, by rw [hk, hbytes, hnext, List.append_assoc, List.range'_append_1], ?_⟩
  cases hreason : out.2 with
  | none =>
    simp only [hreason] at hend
    show j + k = n
    omega
  | some reason =>
    simp only [hreason] at hend
    exact ⟨hend.1, hend.2.of_rest hnext⟩

end Rest

theorem Appends.takes {g : GatherList} {a : BusAddr} {n : Nat} {out : GatherList × Option Refusal}
    (h : Appends g a n out) : g.Takes a n out := by
  induction h with
  | done => exact ⟨0, by simp, rfl⟩
  | full hpos hgrow hfull => exact ⟨0, by simp, rfl, hpos, hfull, _, rfl, hgrow⟩
  | grow _ hgrown hjoins hnext _ ih =>
    exact ih.of_rest (Nat.min_le_left ..) hnext (hgrown.bytes_grown hjoins)
  | @push g a next n out _ _ _ hnext _ ih =>
    have hlt := g.rules.maxLength.isLt
    exact ih.of_rest (by omega) hnext (g.bytes_push_part (by omega))

/-- When all of a range is appended, the bytes of the list are those before and then the range. -/
theorem Appends.bytes_eq {g : GatherList} {a : BusAddr} {remaining : Nat}
    {out : GatherList × Option Refusal} (h : Appends g a remaining out) (hok : out.2 = none) :
    out.1.bytes = g.bytes ++ List.range' a.word.toNat remaining := by
  obtain ⟨k, hbytes, hend⟩ := h.takes
  rw [hok] at hend
  obtain rfl : k = remaining := hend
  exact hbytes

/-- Only the number of segments can end the rounds early. -/
theorem Appends.refusal_eq {g : GatherList} {a : BusAddr} {remaining : Nat}
    {out : GatherList × Option Refusal} (h : Appends g a remaining out) :
    out.2 = none ∨ out.2 = some .tooManySegments := by
  obtain ⟨k, -, hend⟩ := h.takes
  cases hreason : out.2 with
  | none => exact .inl rfl
  | some reason =>
    rw [hreason] at hend
    exact .inr (congrArg some hend.1)

def NoneEmpty (g : GatherList) : Prop := ∀ r ∈ g.newestFirst, 0 < r.length.toNat

theorem NoneEmpty.grow {grown g : GatherList} {a : BusAddr} {piece : Nat} {last : Run .bus}
    {older : List (Run .bus)} (h : g.NoneEmpty) (hgrown : grown.GrownFrom g piece last older)
    (hjoins : g.rules.Joins last.stretch ⟨a.word.toNat, piece⟩) : grown.NoneEmpty := by
  have hlt : last.length.toNat + piece < 2 ^ 64 :=
    Nat.lt_of_le_of_lt hjoins.2.2 g.rules.maxLength.isLt
  intro r hr
  rw [hgrown.after] at hr
  cases List.mem_cons.mp hr with
  | inl he =>
    have hlast := h last (by rw [hgrown.before]; simp)
    rw [he, BitVec.toNat_ofNat, Nat.mod_eq_of_lt hlt]
    omega
  | inr hold => exact h r (by rw [hgrown.before]; simp [hold])

theorem NoneEmpty.push {g : GatherList} {part : Nat} (h : g.NoneEmpty) (a : BusAddr)
    (hpos : 0 < part) (hlt : part < 2 ^ 64) : (g.push ⟨a, .ofNat 64 part⟩).NoneEmpty := by
  intro r hr
  cases List.mem_cons.mp hr with
  | inl he =>
    rw [he, BitVec.toNat_ofNat, Nat.mod_eq_of_lt hlt]
    exact hpos
  | inr hold => exact h r hold

/-- A round that opens a segment takes some bytes, and no more than a word can tell. -/
theorem part_lt (rules : SegmentRules) {n : Nat} (a : BusAddr) (hpos : 0 < n) :
    0 < min (min n (rules.room a)) rules.maxLength.toNat ∧
      min (min n (rules.room a)) rules.maxLength.toNat < 2 ^ 64 := by
  have hroom := rules.room_pos a
  have hmax := rules.maxLength_pos
  have hlt := rules.maxLength.isLt
  omega

theorem Appends.noneEmpty {g : GatherList} {a : BusAddr} {remaining : Nat}
    {out : GatherList × Option Refusal} (h : Appends g a remaining out) (hg : g.NoneEmpty) :
    out.1.NoneEmpty := by
  induction h with
  | done => exact hg
  | full => exact hg
  | grow _ hgrown hjoins _ _ ih => exact ih (hg.grow hgrown hjoins)
  | push hpos _ _ _ _ ih =>
    obtain ⟨hpart, hlt⟩ := part_lt _ _ hpos
    exact ih (hg.push _ hpart hlt)

end GatherList

end Aperture
