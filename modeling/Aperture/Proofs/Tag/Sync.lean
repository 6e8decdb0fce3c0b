import Aperture.Proofs.Payload.Bytes
import Aperture.Synced

namespace Aperture

namespace Run

variable {s : Space} {r r' : Run s} {runs : List (Run s)} {start stop offset : Nat}

theorem totalLength_cons (r : Run s) (runs : List (Run s)) :
    totalLength (r :: runs) = r.length.toNat + totalLength runs := by
  simp [totalLength]

theorem not_reaches_nil : ¬ Reaches start stop offset [] r := by
  rintro ⟨before, after, hruns, -⟩
  simp at hruns

theorem reaches_cons : Reaches start stop offset (r' :: runs) r ↔
    (r' = r ∧ start < offset + r.length.toNat ∧ offset < stop) ∨
      Reaches start stop (offset + r'.length.toNat) runs r := by
  constructor
  · rintro ⟨before, after, hruns, hstart, hstop⟩
    cases before with
    | nil =>
      simp only [List.nil_append, List.cons.injEq] at hruns
      simp only [totalLength, List.map_nil, List.sum_nil] at hstart hstop
      exact .inl ⟨hruns.1, hstart, hstop⟩
    | cons first before =>
      simp only [List.cons_append, List.cons.injEq] at hruns
      obtain ⟨rfl, hruns⟩ := hruns
      rw [totalLength_cons] at hstart hstop
      exact .inr ⟨before, after, hruns, by omega, by omega⟩
  · rintro (⟨rfl, hstart, hstop⟩ | ⟨before, after, hruns, hstart, hstop⟩)
    · refine ⟨[], runs, by simp, ?_, ?_⟩
      · simpa [totalLength] using hstart
      · simpa [totalLength] using hstop
    · refine ⟨r' :: before, after, by simp [hruns], ?_, ?_⟩
      · rw [totalLength_cons]
        omega
      · rw [totalLength_cons]
        omega

theorem not_reaches_of_le (h : stop ≤ offset) : ¬ Reaches start stop offset runs r := by
  rintro ⟨before, after, -, -, hstop⟩
  omega

/-- The run that holds a byte, and the place of the byte in it. -/
theorem exists_of_getElem?_bytes {i n : Nat} (h : (runs.flatMap bytes)[i]? = some n) :
    ∃ before r after, runs = before ++ r :: after ∧ totalLength before ≤ i ∧
      i < totalLength before + r.length.toNat ∧
      n = r.addr.word.toNat + (i - totalLength before) := by
  induction runs generalizing i with
  | nil => simp at h
  | cons r runs ih =>
    have hlength : r.bytes.length = r.length.toNat := List.length_range'
    rw [List.flatMap_cons] at h
    by_cases hin : i < r.length.toNat
    · rw [List.getElem?_append_left (hlength.symm ▸ hin), bytes,
        List.getElem?_range' hin, Nat.one_mul] at h
      refine ⟨[], r, runs, by simp, Nat.zero_le _, ?_, ?_⟩
      · simpa [totalLength] using hin
      · simpa [totalLength] using (Option.some.inj h).symm
    · have hle : r.length.toNat ≤ i := Nat.le_of_not_lt hin
      rw [List.getElem?_append_right (hlength.symm ▸ hle), hlength] at h
      obtain ⟨before, r', after, hruns, hbefore, hafter, hn⟩ := ih h
      refine ⟨r :: before, r', after, by simp [hruns], ?_, ?_, ?_⟩
      · rw [totalLength_cons]
        omega
      · rw [totalLength_cons]
        omega
      · rw [totalLength_cons, hn]
        omega

/-- A byte has a page in common with a run that is not empty if it is between the first page of the
run and the last. -/
theorem sharesPage_iff {n : Nat} (h : 0 < r.length.toNat) :
    r.SharesPage n ↔ r.addr.word.toNat / pageSize ≤ n / pageSize ∧
      n / pageSize ≤ (r.addr.word.toNat + r.length.toNat - 1) / pageSize := by
  unfold SharesPage pageSize
  constructor
  · rintro ⟨b, hb, hpage⟩
    have hrange := List.mem_range'_1.mp hb
    omega
  · intro hpages
    refine ⟨max r.addr.word.toNat (n / 4096 * 4096), List.mem_range'_1.mpr ?_, ?_⟩
    · omega
    · omega

end Run

namespace SyncPlan

variable {offset length : Word}

theorem toNat_clearLow (offset : Word) :
    (offset.clearLow (.ofNat 64 pageSize)).toNat = start offset :=
  Word.toNat_clearLow Addr.isPowerOfTwo_page

theorem pageCeiling_eq_ok {w c : Word} (h : pageCeiling w = .ok c) :
    c.toNat = pagesFor w.toNat * pageSize := by
  unfold pageCeiling at h
  unfold pagesFor
  split at h
  · next haligned =>
    obtain rfl := Except.ok.inj h
    unfold pageSize at haligned ⊢
    omega
  · next hrest =>
    have hto := Word.plus_eq_ok_iff.mp h
    unfold pageSize at hrest hto ⊢
    omega

/-- A part of at least one byte is inside the pages that are flushed for it. -/
theorem start_le (offset : Word) : start offset ≤ offset.toNat := Nat.div_mul_le_self ..

theorem le_stop (offset length : Word) : offset.toNat + length.toNat ≤ stop offset length := by
  unfold stop pagesFor pageSize
  omega

theorem dvd_window (offset length : Word) : pageSize ∣ stop offset length - start offset :=
  Nat.dvd_sub (Nat.dvd_mul_left ..) (Nat.dvd_mul_left ..)

/-- The flushes of a linear payload follow one another without gaps. -/
theorem linearFlushes_bytes {stop offset : Nat} {a : VirtAddr} {calls : List CacheCall}
    (h : linearFlushes stop a offset = .ok calls) (hpages : pageSize ∣ stop - offset) :
    (∀ c ∈ calls, ∃ r, c = .virtual r) ∧
      calls.flatMap CacheCall.bytes = List.range' a.word.toNat (stop - offset) := by
  induction hn : stop - offset using Nat.strongRecOn generalizing a offset calls with
  | ind n ih =>
    rw [linearFlushes] at h
    subst hn
    split at h
    · next hlt =>
      obtain ⟨next, hnext, h⟩ := Checked.bind_eq_ok.mp h
      obtain ⟨rest, hrest, h⟩ := Checked.bind_eq_ok.mp h
      obtain rfl := Except.ok.inj h
      have hto : next.word.toNat = a.word.toNat + pageSize := Addr.plus_eq_ok_iff.mp hnext
      have hpage : pageSize ≤ stop - offset := Nat.le_of_dvd (by omega) hpages
      have hleft : stop - (offset + pageSize) = stop - offset - pageSize := Nat.sub_add_eq ..
      have hdvd : pageSize ∣ stop - (offset + pageSize) := by
        rw [hleft]
        exact Nat.dvd_sub hpages (Nat.dvd_refl _)
      have hless : stop - (offset + pageSize) < stop - offset := by
        unfold pageSize
        omega
      obtain ⟨hvirtual, hbytes⟩ := ih _ hless hrest hdvd rfl
      refine ⟨?_, ?_⟩
      · intro c hc
        cases List.mem_cons.mp hc with
        | inl he => exact ⟨_, he⟩
        | inr hc => exact hvirtual c hc
      · have hfirst : CacheCall.bytes (.virtual ⟨a, .ofNat 64 pageSize⟩) =
            List.range' a.word.toNat pageSize := rfl
        rw [List.flatMap_cons, hfirst, hbytes, hto, hleft, List.range'_append_1,
          Nat.add_sub_cancel' hpage]
    · next hge =>
      obtain rfl := Except.ok.inj h
      have hzero : stop - offset = 0 := Nat.sub_eq_zero_of_le (Nat.le_of_not_lt hge)
      simp [hzero]

section Runs

variable {start stop : Nat} {last : Option PhysAddr} {runs : List (Run .phys)}
  {calls : List CacheCall}

/-- What flushing some runs comes to, the first of them at `offset`, run by run. -/
inductive FlushesRuns (start stop : Nat) :
    Nat → Option PhysAddr → List (Run .phys) → List CacheCall → Prop
  | ended {offset : Nat} {last : Option PhysAddr} {runs : List (Run .phys)}
      (h : runs = [] ∨ stop ≤ offset) :
      FlushesRuns start stop offset last runs []
  | outside {offset : Nat} {last : Option PhysAddr} {r : Run .phys} {runs : List (Run .phys)}
      {calls : List CacheCall}
      (hout : ¬ (start < offset + r.length.toNat ∧ offset < stop))
      (hrest : FlushesRuns start stop (offset + r.length.toNat) last runs calls) :
      FlushesRuns start stop offset last (r :: runs) calls
  /-- The page of the run was flushed last. -/
  | again {offset : Nat} {r : Run .phys} {runs : List (Run .phys)} {calls : List CacheCall}
      (hin : start < offset + r.length.toNat ∧ offset < stop)
      (hrest : FlushesRuns start stop (offset + r.length.toNat) (some r.addr.pageBase) runs calls) :
      FlushesRuns start stop offset (some r.addr.pageBase) (r :: runs) calls
  | page {offset : Nat} {last : Option PhysAddr} {r : Run .phys} {runs : List (Run .phys)}
      {calls : List CacheCall}
      (hin : start < offset + r.length.toNat ∧ offset < stop)
      (hrest : FlushesRuns start stop (offset + r.length.toNat) (some r.addr.pageBase) runs calls) :
      FlushesRuns start stop offset last (r :: runs) (.page r.addr.pageBase :: calls)

theorem flushesRuns {offset : Word} (h : runFlushes start stop offset last runs = .ok calls) :
    FlushesRuns start stop offset.toNat last runs calls := by
  induction runs generalizing offset last calls with
  | nil =>
    obtain rfl := Except.ok.inj h
    exact .ended (.inl rfl)
  | cons r runs ih =>
    obtain ⟨next, hnext, h⟩ := Checked.bind_eq_ok.mp h
    have hto : next.toNat = offset.toNat + r.length.toNat := Word.plus_eq_ok_iff.mp hnext
    -- the calls after this run, whatever page was flushed last
    have hlater {last' : Option PhysAddr} {head : List CacheCall}
        (h : (if stop ≤ next.toNat then (pure head : Checked (List CacheCall)) else do
          return head ++ (← runFlushes start stop next last' runs)) = .ok calls) :
        ∃ rest, calls = head ++ rest ∧
          FlushesRuns start stop (offset.toNat + r.length.toNat) last' runs rest := by
      split at h
      · next hstop =>
        obtain rfl := Except.ok.inj h
        exact ⟨[], by simp, .ended (.inr (hto ▸ hstop))⟩
      · obtain ⟨rest, hrest, h⟩ := Checked.bind_eq_ok.mp h
        obtain rfl := Except.ok.inj h
        exact ⟨rest, rfl, hto ▸ ih hrest⟩
    obtain ⟨rest, rfl, hrest⟩ := hlater h
    rw [hto] at hrest ⊢
    by_cases hin : start < offset.toNat + r.length.toNat ∧ offset.toNat < stop
    · simp only [if_pos hin] at hrest
      by_cases hsame : last = some r.addr.pageBase
      · subst hsame
        simpa using .again hin hrest
      · simpa [hin, hsame] using FlushesRuns.page hin hrest
    · simp only [if_neg hin] at hrest
      have hhead : ¬ (start < offset.toNat + r.length.toNat ∧ offset.toNat < stop ∧
          last ≠ some r.addr.pageBase) := fun h => hin ⟨h.1, h.2.1⟩
      rw [if_neg hhead]
      exact .outside hin hrest

theorem exists_reaches_cons {offset : Nat} {r : Run .phys} {a : PhysAddr} :
    (∃ x, Run.Reaches start stop offset (r :: runs) x ∧ x.addr.pageBase = a) ↔
      (start < offset + r.length.toNat ∧ offset < stop) ∧ r.addr.pageBase = a ∨
        ∃ x, Run.Reaches start stop (offset + r.length.toNat) runs x ∧ x.addr.pageBase = a := by
  simp only [Run.reaches_cons, or_and_right, exists_or]
  refine or_congr_left ⟨?_, ?_⟩
  · rintro ⟨x, ⟨rfl, hin⟩, hpage⟩
    exact ⟨hin, hpage⟩
  · rintro ⟨hin, hpage⟩
    exact ⟨r, ⟨rfl, hin⟩, hpage⟩

theorem FlushesRuns.pages {offset : Nat} (h : FlushesRuns start stop offset last runs calls) :
    ∀ c ∈ calls, ∃ a, c = .page a := by
  induction h with
  | ended => simp
  | outside _ _ ih => exact ih
  | again _ _ ih => exact ih
  | page _ _ ih =>
    intro c hc
    cases List.mem_cons.mp hc with
    | inl he => exact ⟨_, he⟩
    | inr hrest => exact ih c hrest

/-- The pages that are flushed, and the one that was flushed last before, are those of the runs that
reach into the part asked for. -/
theorem FlushesRuns.mem_iff {offset : Nat} (h : FlushesRuns start stop offset last runs calls)
    (a : PhysAddr) : last = some a ∨ .page a ∈ calls ↔
      last = some a ∨ ∃ r, Run.Reaches start stop offset runs r ∧ r.addr.pageBase = a := by
  induction h with
  | ended h =>
    cases h with
    | inl hnil => simp [hnil, Run.not_reaches_nil]
    | inr hstop => simp [Run.not_reaches_of_le hstop]
  | outside hout _ ih =>
    simp only [exists_reaches_cons, hout, false_and, false_or]
    exact ih
  | again hin _ ih =>
    simp only [Option.some.injEq] at ih ⊢
    simp only [exists_reaches_cons, hin, and_self, true_and, or_self_left]
    exact ih
  | page hin _ ih =>
    simp only [Option.some.injEq] at ih
    simp only [exists_reaches_cons, hin, and_self, true_and, List.mem_cons, CacheCall.page.injEq,
      eq_comm (a := a)]
    exact or_congr_right ih

end Runs

inductive Flushes (l : Loaded) (offset length : Word) : List CacheCall → Prop
  | linear {base : VirtAddr} {calls : List CacheCall}
      (hshape : l.shape = .linear)
      (hbase : l.base = some base)
      (hvirtual : ∀ c ∈ calls, ∃ r, c = .virtual r)
      (hbytes : calls.flatMap CacheCall.bytes = List.range' (base.word.toNat + start offset)
        (stop offset length - start offset)) :
      Flushes l offset length calls
  | raw {calls : List CacheCall}
      (hshape : l.shape = .raw)
      (hruns : FlushesRuns (start offset) (stop offset length) 0 none l.runs calls) :
      Flushes l offset length calls

theorem flushes_of_done {l : Loaded} {plan : SyncPlan} (h : flushes l offset length = .ok plan)
    (hdone : plan.result = .ok ()) :
    ∃ calls, plan.calls = .fence :: calls ++ [.fence] ∧ Flushes l offset length calls := by
  obtain ⟨wanted, hwanted, h⟩ := Checked.bind_eq_ok.mp h
  obtain ⟨ceiling, hceiling, h⟩ := Checked.bind_eq_ok.mp h
  have hstop : ceiling.toNat = stop offset length := by
    rw [pageCeiling_eq_ok hceiling, Word.plus_eq_ok_iff.mp hwanted, stop]
  dsimp only at h
  rw [toNat_clearLow, hstop] at h
  split at h
  · next base hshape hbase =>
    obtain ⟨first, hfirst, h⟩ := Checked.bind_eq_ok.mp h
    obtain ⟨calls, hcalls, h⟩ := Checked.bind_eq_ok.mp h
    obtain rfl := Except.ok.inj h
    obtain ⟨hvirtual, hbytes⟩ := linearFlushes_bytes hcalls (dvd_window offset length)
    rw [Addr.plus_eq_ok_iff.mp hfirst] at hbytes
    exact ⟨calls, rfl, .linear hshape hbase hvirtual hbytes⟩
  · next hshape =>
    obtain ⟨calls, hcalls, h⟩ := Checked.bind_eq_ok.mp h
    obtain rfl := Except.ok.inj h
    exact ⟨calls, rfl, .raw hshape (flushesRuns hcalls)⟩
  · obtain rfl := Except.ok.inj h
    cases hdone

end SyncPlan

namespace Mapping

variable {m : Mapping} {lineSize offset length : Word} {phases : Phases} {plan : SyncPlan}

/-- The mapping is loaded, and the part asked for is not empty and inside the payload. -/
structure HasPart (m : Mapping) (l : Loaded) (offset length : Word) : Prop where
  loaded : m.loaded = some l
  pos : 0 < length.toNat
  inside : offset.toNat + length.toNat ≤ l.length.toNat

theorem HasPart.unique {l l' : Loaded} (h : m.HasPart l offset length)
    (h' : m.HasPart l' offset length) : l = l' :=
  Option.some.inj (h.loaded.symm.trans h'.loaded)

theorem hasPart_iff {l : Loaded} (hl : m.loaded = some l) (offset length : Word) :
    m.HasPart l offset length ↔ ¬ l.length ≤ offset ∧
      ¬ (length = 0 ∨ l.length.toNat - offset.toNat < length.toNat) := by
  rw [BitVec.le_def, Word.eq_zero_iff]
  constructor
  · rintro ⟨-, hpos, hinside⟩
    omega
  · intro h
    exact ⟨hl, by omega, by omega⟩

/-- A synchronisation is refused unless it goes one way and is about a part of the payload. Then it
flushes the pages of the part, or it has nothing to flush, or no way to flush less than everything.
-/
theorem syncPlan_routes (m : Mapping) (lineSize offset length : Word) (phases : Phases) :
    (¬ (¬ (phases.isPre && phases.isPost) ∧ ∃ l, m.HasPart l offset length) ∧
      ∃ notice, m.syncPlan lineSize offset length phases = .ok (.refuse notice)) ∨
    (¬ (phases.isPre && phases.isPost) ∧ ∃ l, m.HasPart l offset length ∧
      (¬ m.FlushesPages lineSize phases ∧ (∃ calls, (calls = [] ∨ calls = [.all]) ∧
        m.syncPlan lineSize offset length phases = .ok ⟨calls, .ok ()⟩) ∨
      m.FlushesPages lineSize phases ∧
        m.syncPlan lineSize offset length phases = SyncPlan.flushes l offset length)) := by
  unfold syncPlan
  split
  · next hboth => exact .inl ⟨fun h => h.1 hboth, _, rfl⟩
  next hsided =>
  cases hl : m.loaded with
  | none =>
    refine .inl ⟨?_, _, rfl⟩
    rintro ⟨-, l, hpart⟩
    cases hl.symm.trans hpart.loaded
  | some l =>
    have hchecks := hasPart_iff hl offset length
    have hnone (hno : ¬ m.HasPart l offset length) :
        ¬ (¬ (phases.isPre && phases.isPost) ∧ ∃ l, m.HasPart l offset length) := by
      rintro ⟨-, l', hpart⟩
      obtain rfl := Option.some.inj (hl.symm.trans hpart.loaded)
      exact hno hpart
    dsimp only
    split
    · next hbegin => exact .inl ⟨hnone fun hpart => (hchecks.mp hpart).1 hbegin, _, rfl⟩
    next hbegin =>
    split
    · next hspan => exact .inl ⟨hnone fun hpart => (hchecks.mp hpart).2 hspan, _, rfl⟩
    next hspan =>
    refine .inr ⟨hsided, l, hchecks.mpr ⟨hbegin, hspan⟩, ?_⟩
    split
    · next hwatched =>
      exact .inl ⟨fun hpages => (by cases hpages.watched.symm.trans hwatched), [], .inl rfl, rfl⟩
    next hwatched =>
    split
    · next hneedless => exact .inl ⟨fun hpages => hneedless hpages.needed, [], .inl rfl, rfl⟩
    next hneeded =>
    split
    · next hlines => exact .inl ⟨fun hpages => hpages.lines hlines, [.all], .inr rfl, rfl⟩
    next hlines =>
    exact .inr ⟨⟨Bool.eq_false_iff.mpr hwatched, not_not.mp hneeded, hlines⟩, rfl⟩

/-- A synchronisation that is accepted is about a part of the payload, and all that it flushes is
the pages of that or everything. -/
theorem syncPlan_cases (h : m.syncPlan lineSize offset length phases = .ok plan)
    (hdone : plan.result = .ok ()) : ∃ l, m.HasPart l offset length ∧
      (¬ m.FlushesPages lineSize phases ∧ (plan.calls = [] ∨ plan.calls = [.all]) ∨
        m.FlushesPages lineSize phases ∧ ∃ calls, plan.calls = .fence :: calls ++ [.fence] ∧
          SyncPlan.Flushes l offset length calls) := by
  rcases m.syncPlan_routes lineSize offset length phases with
    ⟨-, notice, hplan⟩ | ⟨-, l, hpart, hroute⟩
  · obtain rfl := Except.ok.inj (hplan.symm.trans h)
    cases hdone
  refine ⟨l, hpart, ?_⟩
  rcases hroute with ⟨hpages, calls, hcalls, hplan⟩ | ⟨hpages, hflushes⟩
  · obtain rfl := Except.ok.inj (hplan.symm.trans h)
    exact .inl ⟨hpages, hcalls⟩
  · exact .inr ⟨hpages, SyncPlan.flushes_of_done (hflushes.symm.trans h) hdone⟩

end Mapping

end Aperture
