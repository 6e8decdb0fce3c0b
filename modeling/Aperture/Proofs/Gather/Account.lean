import Aperture.Gather.Joints
import Aperture.Proofs.Gather.Limits

namespace Aperture

namespace SegmentRules

/-- The bytes that are taken at once are those of the first piece, also of a range that runs past
the last address. -/
theorem firstPiece_eq (rules : SegmentRules) (a : BusAddr) {n : Nat} (hlt : n < 2 ^ 64) :
    Stretch.firstPiece rules.boundary.toNat ⟨a.word.toNat, n⟩ =
      ⟨a.word.toNat, min n (rules.room a)⟩ := by
  unfold Stretch.firstPiece
  dsimp only
  rcases rules.room_cases a with ⟨hnone, hroom⟩ | ⟨hne, hin, hroom⟩
  · rw [if_pos hnone, hroom, Nat.min_eq_left (by omega)]
  · rw [if_neg (by omega)]
    congr 2
    omega

end SegmentRules

namespace GatherList

variable {g : GatherList} {a : BusAddr} {n : Nat} {out : GatherList × Option Refusal}

/-- The rounds keep what is below the last segment, and the last segment where it is. -/
theorem Appends.keeps_older (h : Appends g a n out) {last : Run .bus} {older : List (Run .bus)}
    (hlast : g.newestFirst = last :: older) :
    ∃ more grown, out.1.newestFirst = more ++ grown :: older ∧ grown.addr = last.addr := by
  induction h generalizing last older with
  | done => exact ⟨[], last, hlast, rfl⟩
  | full => exact ⟨[], last, hlast, rfl⟩
  | grow _ hgrown _ _ _ ih =>
    obtain ⟨rfl, rfl⟩ := List.cons.inj (hgrown.before.symm.trans hlast)
    have hrest := ih hgrown.after
    exact hrest
  | push _ _ _ _ _ ih =>
    -- the segment that is opened may still grow, but the old last one is below it now
    obtain ⟨more, opened, hout, -⟩ := ih rfl
    refine ⟨more ++ [opened], last, ?_, rfl⟩
    rw [hout, hlast]
    simp

theorem getElem?_segments_of_newestFirst {more older : List (Run .bus)} {r : Run .bus}
    (h : g.newestFirst = more ++ r :: older) :
    g.segments[older.length]? = some r ∧
      ∀ i < older.length, g.segments[i]? = older.reverse[i]? := by
  have hsegments : g.segments = older.reverse ++ (r :: more.reverse) := by
    rw [segments, h]
    simp
  constructor
  · rw [hsegments, List.getElem?_append_right (by simp)]
    simp
  · intro i hi
    rw [hsegments, List.getElem?_append_left (by simpa using hi)]

/-- Each segment is still in its place: unchanged below the last, and the last at its address. -/
theorem Appends.getElem?_segments (h : Appends g a n out) {i : Nat} {s : Run .bus}
    (hs : g.segments[i]? = some s) :
    ∃ s', out.1.segments[i]? = some s' ∧ s'.addr = s.addr ∧
      (i + 1 < g.segments.length → s' = s) := by
  have hi := (List.getElem?_eq_some_iff.mp hs).1
  rw [segments, List.length_reverse] at hi
  obtain ⟨last, older, hlast⟩ := List.exists_cons_of_length_pos (Nat.zero_lt_of_lt hi)
  obtain ⟨more, grown, hout, haddr⟩ := h.keeps_older hlast
  have hbefore : g.newestFirst = [] ++ last :: older := hlast
  obtain ⟨hold, hbelow⟩ := getElem?_segments_of_newestFirst hbefore
  obtain ⟨hnew, hkept⟩ := getElem?_segments_of_newestFirst hout
  rw [hlast, List.length_cons] at hi
  have hlength : g.segments.length = older.length + 1 := by rw [segments, hlast]; simp
  rcases Nat.lt_or_ge i older.length with hlt | hge
  · rw [hbelow i hlt] at hs
    exact ⟨s, (hkept i hlt).trans hs, rfl, fun _ => rfl⟩
  · obtain rfl : i = older.length := by omega
    obtain rfl := Option.some.inj (hold.symm.trans hs)
    exact ⟨grown, hnew, haddr, fun hlt => absurd hlt (by omega)⟩

theorem segments_getLast? (g : GatherList) : g.segments.getLast? = g.newestFirst.head? :=
  List.getLast?_reverse

theorem length_segments (g : GatherList) : g.segments.length = g.count := by
  rw [segments, List.length_reverse, g.count_eq]

/-- Where an append stops, there are as many segments as there may be, and the first piece of the
bytes that are missing does not continue the last of them. -/
theorem StopsAfter.of_keepsLimits {k : Nat} (h : g.StopsAfter a n k) (hg : g.KeepsLimits)
    (hn : n < 2 ^ 64) :
    g.segments.length = g.rules.maxCount.toNat ∧ ∃ last, g.segments.getLast? = some last ∧
      ¬ g.rules.Joins last.stretch
        (Stretch.firstPiece g.rules.boundary.toNat ⟨a.word.toNat + k, n - k⟩) := by
  have hcount : g.count = g.rules.maxCount.toNat := Nat.le_antisymm hg.count_le h.full
  have hpos := g.rules.maxCount_pos
  rw [← hcount, g.count_eq] at hpos
  obtain ⟨last, older, hlast⟩ := List.exists_cons_of_length_pos hpos
  obtain ⟨next, hnext, hstuck⟩ := h.stuck
  refine ⟨g.length_segments.trans hcount, last, ?_, fun hjoins => hstuck ⟨last, older, hlast, ?_⟩⟩
  · rw [segments_getLast?, hlast]
    rfl
  · rw [← hnext, SegmentRules.firstPiece_eq _ _ (by omega)] at hjoins
    exact hjoins

/-- An append to a list that calls on a new one have left: all segments but the last stay as they
are, and the last stays where it is. If it is done, the bytes of the range come after those before.
If it is refused, only the first bytes of the range do; then there are as many segments as there may
be, and the piece that comes next does not continue the last of them. -/
theorem bytes_after_append {storage : Storage} {maxCount maxLength boundary : Word}
    {g' grown : GatherList}
    (hnew : GatherList.new storage maxCount maxLength boundary = .ok g) {cs : List Call}
    {refusals : List (Option Refusal)} (hrun : g.runAll cs = .ok (refusals, g')) {r : Run .bus}
    {refusal : Option Refusal} (happend : g'.append r = .ok (grown, refusal)) :
    g'.rules.maxLength = maxLength ∧ g'.rules.boundary = boundaryAfter boundary cs ∧
    (∀ i s, g'.segments[i]? = some s → ∃ s', grown.segments[i]? = some s' ∧ s'.addr = s.addr ∧
      (i + 1 < g'.segments.length → s' = s)) ∧
    match refusal with
    | none => grown.bytes = g'.bytes ++ r.bytes
    | some reason => reason = .tooManySegments ∧ grown.segments.length = maxCount.toNat ∧
        ∃ k < r.length.toNat, grown.bytes = g'.bytes ++ r.bytes.take k ∧
          ∃ last, grown.segments.getLast? = some last ∧
            ¬ g'.rules.Joins last.stretch (Stretch.firstPiece g'.rules.boundary.toNat
              ⟨r.addr.word.toNat + k, r.length.toNat - k⟩) := by
  obtain ⟨hkeeps, hcount, hlength, hboundary⟩ := of_new hnew
  obtain ⟨hlimits, hset⟩ := runAll_keepsLimits hrun hkeeps
  have happends : Appends g' r.addr r.length.toNat (grown, refusal) :=
    appends_of_appendFrom happend
  have hrules : grown.rules = g'.rules := happends.rules_eq
  obtain ⟨k, hbytes, hend⟩ := happends.takes
  refine ⟨hset.maxLength.trans hlength, hboundary ▸ hset.boundary,
    fun i s hs => happends.getElem?_segments hs, ?_⟩
  cases refusal with
  | none =>
    obtain rfl : k = r.length.toNat := hend
    exact hbytes
  | some reason =>
    obtain ⟨hreason, hstops⟩ := hend
    obtain ⟨hfull, hstuck⟩ := hstops.of_keepsLimits (happends.keepsLimits hlimits) r.length.isLt
    rw [hrules, hset.maxCount, hcount] at hfull
    rw [hrules] at hstuck
    refine ⟨hreason, hfull, k, hstops.short, ?_, hstuck⟩
    rw [Run.bytes, List.take_range'_of_length_ge (Nat.le_of_lt hstops.short)]
    exact hbytes

/-- The last segment takes the first piece, another segment as much of the second as it may hold;
the rest of that piece would make it too long, and there is no third. -/
theorem bytes_after_append_in_part :
    let calls : List Call := [.append ⟨⟨0x1000⟩, 0x5000⟩, .reset 0x4000,
      .append ⟨⟨0x3800⟩, 0x400⟩]
    let range : Run .bus := ⟨⟨0x3c00⟩, 0x5000⟩
    ∃ g g' refusals grown, GatherList.new .ample 2 0x3000 0 = .ok g ∧
      g.runAll calls = .ok (refusals, g') ∧
      g'.append range = .ok (grown, some .tooManySegments) ∧
      g'.segments = [⟨⟨0x3800⟩, 0x400⟩] ∧
      grown.segments = [⟨⟨0x3800⟩, 0x800⟩, ⟨⟨0x4000⟩, 0x3000⟩] ∧
      ∃ k < 0x5000, grown.bytes = g'.bytes ++ range.bytes.take k ∧
        ∃ last, grown.segments.getLast? = some last ∧
          ¬ g'.rules.Joins last.stretch (Stretch.firstPiece 0x4000 ⟨0x3c00 + k, 0x5000 - k⟩) := by
  intro calls range
  have hrun : ((GatherList.new .ample 2 0x3000 0).toOption.bind fun g =>
      (g.runAll calls).toOption.bind fun (_, g') =>
        (g'.append range).toOption.map fun out =>
          (out.2, g'.segments, out.1.segments)) =
      some (some .tooManySegments, [⟨⟨0x3800⟩, 0x400⟩],
        [⟨⟨0x3800⟩, 0x800⟩, ⟨⟨0x4000⟩, 0x3000⟩]) := by
    decide +kernel
  obtain ⟨g, hg, hrun⟩ := Option.bind_eq_some_iff.mp hrun
  obtain ⟨⟨refusals, g'⟩, hg', hrun⟩ := Option.bind_eq_some_iff.mp hrun
  obtain ⟨⟨grown, refusal⟩, hgrown, hlast⟩ := Option.map_eq_some_iff.mp hrun
  obtain ⟨rfl, hsegments⟩ := Prod.mk.inj hlast
  obtain ⟨hbefore, hafter⟩ := Prod.mk.inj hsegments
  have hnew := Checked.eq_ok_of_toOption hg
  have hcalls := Checked.eq_ok_of_toOption hg'
  have happend := Checked.eq_ok_of_toOption hgrown
  obtain ⟨-, hboundary, -, -, -, k, hk, hbytes, hstuck⟩ := bytes_after_append hnew hcalls happend
  have hboundary : g'.rules.boundary = 0x4000 := hboundary
  rw [hboundary] at hstuck
  exact ⟨g, g', refusals, grown, hnew, hcalls, happend, hbefore, hafter, k, hk, hbytes, hstuck⟩

end GatherList

end Aperture
