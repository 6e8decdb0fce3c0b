import Aperture.Cache.Sweep
import Aperture.Proofs.Word.Multiples

namespace Aperture

namespace LineCache

variable {first line stop after : VirtAddr} {lines lines' : List VirtAddr}
  {fault fault' : Option Fault} {r : Run .virt}

namespace Lines

variable {l : Lines}

def Fits (l : Lines) : Prop := l.first.word.toNat + l.count * lineSize < 2 ^ 64

theorem Fits.toNat_line (h : l.Fits) {i : Nat} (hi : i < l.count) :
    (BitVec.ofNat 64 (l.first.word.toNat + i * lineSize)).toNat =
      l.first.word.toNat + i * lineSize := by
  have hle : i * lineSize ≤ l.count * lineSize := Nat.mul_le_mul_right _ (Nat.le_of_lt hi)
  rw [BitVec.toNat_ofNat]
  exact Nat.mod_eq_of_lt (Nat.lt_of_le_of_lt (Nat.add_le_add_left hle _) h)

theorem Fits.mem_toList_iff (h : l.Fits) :
    line ∈ l.toList ↔ ∃ i < l.count, line.word.toNat = l.first.word.toNat + i * lineSize := by
  rw [toList, List.mem_map]
  constructor
  · rintro ⟨i, hi, rfl⟩
    exact ⟨i, List.mem_range.mp hi, h.toNat_line (List.mem_range.mp hi)⟩
  · rintro ⟨i, hi, hline⟩
    refine ⟨i, List.mem_range.mpr hi, congrArg Addr.mk (BitVec.eq_of_toNat_eq ?_)⟩
    exact (h.toNat_line hi).trans hline.symm

theorem Fits.ascending (h : l.Fits) : l.toList.Pairwise fun a b => a.word < b.word := by
  rw [toList, List.pairwise_map]
  refine List.pairwise_lt_range.imp_of_mem fun {i j} hi hj hlt => ?_
  rw [BitVec.lt_def, h.toNat_line (List.mem_range.mp hi), h.toNat_line (List.mem_range.mp hj)]
  exact Nat.add_lt_add_left (Nat.mul_lt_mul_of_pos_right hlt (by decide)) _

theorem line_zero (first : VirtAddr) :
    Addr.mk (.ofNat 64 (first.word.toNat + 0 * lineSize)) = first := by
  have hfirst : first.word.toNat + 0 * lineSize = first.word.toNat := by omega
  rw [hfirst, BitVec.ofNat_toNat, BitVec.setWidth_eq]

theorem toList_one (first : VirtAddr) : (Lines.mk first 1).toList = [first] :=
  congrArg (fun line => [line]) (line_zero first)

theorem toList_succ (h : first.plus lineSize = .ok after) (count : Nat) :
    (Lines.mk first (count + 1)).toList = first :: (Lines.mk after count).toList := by
  have hto := Addr.plus_eq_ok_iff.mp h
  rw [toList, List.range_succ_eq_map, List.map_cons, List.map_map]
  refine congrArg₂ List.cons (line_zero first) (List.map_congr_left fun i _ => ?_)
  have hnext : first.word.toNat + (i + 1) * lineSize = after.word.toNat + i * lineSize := by
    rw [hto, Nat.succ_mul]
    omega
  exact congrArg (fun n => Addr.mk (.ofNat 64 n)) hnext

end Lines

def linesBefore (first stop : VirtAddr) : Nat :=
  (stop.word.toNat - first.word.toNat + (lineSize - 1)) / lineSize

/-- A sweep flushes the lines that start before its end. What the round at a line leaves is the
sweep from the next, which has one line less to flush. -/
theorem sweeps (first stop : VirtAddr) :
    ((Lines.mk first (linesBefore first stop)).Fits ∧
      Sweeps stop first (Lines.mk first (linesBefore first stop)).toList none) ∨
    (¬ (Lines.mk first (linesBefore first stop)).Fits ∧
      Sweeps stop first (Lines.mk first (linesBefore first stop)).toList (some .addOverflow)) := by
  generalize hcount : linesBefore first stop = count
  unfold linesBefore lineSize at hcount
  induction count generalizing first with
  | zero =>
    have hout : stop.word ≤ first.word := BitVec.le_def.mpr (by omega)
    refine .inl ⟨?_, .done hout⟩
    have := first.word.isLt
    unfold Lines.Fits
    dsimp only
    omega
  | succ count ih =>
    have hin : first.word < stop.word := BitVec.lt_def.mpr (by omega)
    by_cases hlt : first.word.toNat + lineSize < 2 ^ 64
    · obtain ⟨after, hafter, hto⟩ := Addr.plus_of_lt hlt
      have hfits : (Lines.mk first (count + 1)).Fits ↔ (Lines.mk after count).Fits := by
        unfold Lines.Fits lineSize at *
        dsimp only
        omega
      rw [hfits, Lines.toList_succ hafter]
      unfold lineSize at hto
      rcases ih after (by omega) with ⟨hrest, hsweep⟩ | ⟨hrest, hsweep⟩
      · exact .inl ⟨hrest, .next hin hafter hsweep⟩
      · exact .inr ⟨hrest, .next hin hafter hsweep⟩
    · have hge := Nat.le_of_not_lt hlt
      have hlast : count = 0 := by
        have := stop.word.isLt
        unfold lineSize at hge
        omega
      subst hlast
      refine .inr ⟨fun hfits => hlt ?_, ?_⟩
      · unfold Lines.Fits at hfits
        dsimp only at hfits
        omega
      · rw [Lines.toList_one]
        exact .stuck hin (Addr.plus_of_ge hge)

theorem Sweeps.unique (h : Sweeps stop first lines fault) (h' : Sweeps stop first lines' fault') :
    lines' = lines ∧ fault' = fault := by
  induction h generalizing lines' with
  | done hout =>
    cases h' with
    | done => exact ⟨rfl, rfl⟩
    | stuck hin => exact absurd hin (BitVec.not_lt.mpr hout)
    | next hin => exact absurd hin (BitVec.not_lt.mpr hout)
  | stuck hin hstep =>
    cases h' with
    | done hout => exact absurd hin (BitVec.not_lt.mpr hout)
    | stuck _ hstep' => exact ⟨rfl, congrArg some (Except.error.inj (hstep'.symm.trans hstep))⟩
    | next _ hstep' => cases hstep.symm.trans hstep'
  | next hin hstep _ ih =>
    cases h' with
    | done hout => exact absurd hin (BitVec.not_lt.mpr hout)
    | stuck _ hstep' => cases hstep.symm.trans hstep'
    | next _ hstep' hrest' =>
      obtain rfl := Except.ok.inj (hstep.symm.trans hstep')
      obtain ⟨rfl, rfl⟩ := ih hrest'
      exact ⟨rfl, rfl⟩

theorem SweepsRun.unique (h : SweepsRun r lines fault) (h' : SweepsRun r lines' fault') :
    lines' = lines ∧ fault' = fault := by
  cases h with
  | empty hempty =>
    cases h' with
    | empty => exact ⟨rfl, rfl⟩
    | wraps hsome => exact absurd hempty hsome
    | swept hsome => exact absurd hempty hsome
  | wraps hsome _ hstop =>
    cases h' with
    | empty hempty => exact absurd hempty hsome
    | wraps _ _ hstop' => exact ⟨rfl, congrArg some (Except.error.inj (hstop'.symm.trans hstop))⟩
    | swept _ _ hstop' => cases hstop.symm.trans hstop'
  | swept hsome hfirst hstop hsweep =>
    cases h' with
    | empty hempty => exact absurd hempty hsome
    | wraps _ _ hstop' => cases hstop.symm.trans hstop'
    | swept _ hfirst' hstop' hsweep' =>
      obtain rfl := Except.ok.inj (hfirst.symm.trans hfirst')
      obtain rfl := Except.ok.inj (hstop.symm.trans hstop')
      exact hsweep.unique hsweep'

theorem areLinesOf_empty (h : r.length = 0) : AreLinesOf r.bytes [] := by
  have hbytes : r.bytes = [] := by
    rw [Run.bytes, h]
    rfl
  refine ⟨.nil, fun line => iff_of_false List.not_mem_nil fun hline => ?_⟩
  obtain ⟨n, hn, -⟩ := hline.shared
  rw [hbytes] at hn
  cases hn

/-- A line holds a byte of a range that is not empty if it begins before the range ends, and ends
after the range begins. -/
theorem isLineOf_bytes_iff (hpos : 0 < r.length.toNat) :
    IsLineOf r.bytes line ↔ lineSize ∣ line.word.toNat ∧
      line.word.toNat < r.addr.word.toNat + r.length.toNat ∧
      r.addr.word.toNat < line.word.toNat + lineSize := by
  constructor
  · rintro ⟨haligned, n, hn, hfrom, hto⟩
    obtain ⟨hn₁, hn₂⟩ := List.mem_range'_1.mp hn
    exact ⟨haligned, by omega, by omega⟩
  · rintro ⟨haligned, hbefore, hafter⟩
    have hsize : 0 < lineSize := by decide
    refine ⟨haligned, max r.addr.word.toNat line.word.toNat, ?_, by omega, by omega⟩
    exact List.mem_range'_1.mpr ⟨by omega, by omega⟩

/-- Up to the end of a range, the lines from that of its first byte on are the lines of its bytes.
-/
theorem areLinesOf_linesBefore (hpos : 0 < r.length.toNat)
    (hfirst : first.word.toNat = r.addr.word.toNat / lineSize * lineSize)
    (hstop : stop.word.toNat = r.addr.word.toNat + r.length.toNat)
    (hfits : (Lines.mk first (linesBefore first stop)).Fits) :
    AreLinesOf r.bytes (Lines.mk first (linesBefore first stop)).toList := by
  refine ⟨hfits.ascending, fun line => ?_⟩
  rw [hfits.mem_toList_iff, isLineOf_bytes_iff hpos]
  unfold linesBefore lineSize at *
  dsimp only
  constructor
  · rintro ⟨i, hi, hline⟩
    exact ⟨by omega, by omega, by omega⟩
  · rintro ⟨⟨k, hk⟩, hbefore, hafter⟩
    exact ⟨k - r.addr.word.toNat / 64, by omega, by omega⟩

/-- The lines of a range fit exactly if its end does, rounded up to a line. -/
theorem fits_linesBefore_iff
    (hfirst : first.word.toNat = r.addr.word.toNat / lineSize * lineSize)
    (hstop : stop.word.toNat = r.addr.word.toNat + r.length.toNat) :
    (Lines.mk first (linesBefore first stop)).Fits ↔
      lineCeiling (r.addr.word.toNat + r.length.toNat) < 2 ^ 64 := by
  unfold Lines.Fits linesBefore lineCeiling lineSize at *
  dsimp only
  omega

/-- What flushing a range comes to, by a sweep and at once. -/
theorem sweepsRun_cases (r : Run .virt) :
    (¬ (r.length ≠ 0 ∧ 2 ^ 64 ≤ lineCeiling (r.addr.word.toNat + r.length.toNat)) ∧
      ∃ l, flushVirtual r = .ok l ∧ SweepsRun r l.toList none ∧ AreLinesOf r.bytes l.toList) ∨
    ((r.length ≠ 0 ∧ 2 ^ 64 ≤ lineCeiling (r.addr.word.toNat + r.length.toNat)) ∧
      flushVirtual r = .error .addOverflow ∧
      ∃ lines, SweepsRun r lines (some .addOverflow)) := by
  unfold flushVirtual
  by_cases hempty : r.length = 0
  · rw [if_pos hempty]
    exact .inl ⟨fun h => h.1 hempty, _, rfl, .empty hempty, areLinesOf_empty hempty⟩
  rw [if_neg hempty]
  have hpos : 0 < r.length.toNat := Nat.pos_of_ne_zero (mt Word.eq_zero_iff.mpr hempty)
  have hpower : Word.IsPowerOfTwo (.ofNat 64 lineSize) := ⟨6, rfl⟩
  have hdown : r.addr.alignDown (.ofNat 64 lineSize) =
      .ok ⟨r.addr.word.clearLow (.ofNat 64 lineSize)⟩ := if_pos hpower
  have hfirst : (r.addr.word.clearLow (.ofNat 64 lineSize)).toNat =
      r.addr.word.toNat / lineSize * lineSize := Word.toNat_clearLow hpower
  generalize r.addr.word.clearLow (.ofNat 64 lineSize) = first at hdown hfirst
  rw [hdown, Checked.ok_bind]
  by_cases hlt : r.addr.word.toNat + r.length.toNat < 2 ^ 64
  · obtain ⟨stop, hstop, hto⟩ := Addr.plus_of_lt hlt
    have hend : r.stop = .ok stop := hstop
    have hiff : (Lines.mk ⟨first⟩ (linesBefore ⟨first⟩ stop)).Fits ↔ _ :=
      fits_linesBefore_iff hfirst hto
    rw [hend, Checked.ok_bind]
    rcases sweeps ⟨first⟩ stop with ⟨hfits, hsweep⟩ | ⟨hfits, hsweep⟩
    · obtain ⟨past, hpast, -⟩ := Addr.plus_of_lt hfits
      refine .inl ⟨fun h => Nat.not_le_of_lt (hiff.mp hfits) h.2, _, ?_,
        .swept hempty hdown hend hsweep, areLinesOf_linesBefore hpos hfirst hto hfits⟩
      exact Checked.bind_eq_ok.mpr ⟨past, hpast, rfl⟩
    · have hover := Nat.le_of_not_lt (mt hiff.mpr hfits)
      refine .inr ⟨⟨hempty, hover⟩, ?_, _, .swept hempty hdown hend hsweep⟩
      exact Checked.bind_eq_error.mpr (.inl (Addr.plus_of_ge (Nat.le_of_not_lt hfits)))
  · have hge := Nat.le_of_not_lt hlt
    have hstop : r.stop = .error .addOverflow := Addr.plus_of_ge hge
    rw [hstop]
    refine .inr ⟨⟨hempty, ?_⟩, rfl, [], .wraps hempty hdown hstop⟩
    unfold lineCeiling lineSize
    omega

/-- Flushing a page flushes the lines of its bytes, wherever the map of memory puts them. -/
theorem flushPage_cases (c : LineCache) (a : PhysAddr) :
    (¬ 2 ^ 64 ≤ lineCeiling (c.directMap.word.toNat + a.pageBase.word.toNat + pageSize) ∧
      ∃ l, c.flushPage a = .ok l ∧
        AreLinesOf (List.range' (c.directMap.word.toNat + a.pageBase.word.toNat) pageSize)
          l.toList) ∨
    (2 ^ 64 ≤ lineCeiling (c.directMap.word.toNat + a.pageBase.word.toNat + pageSize) ∧
      c.flushPage a = .error .addOverflow) := by
  unfold flushPage
  by_cases hlt : c.directMap.word.toNat + a.pageBase.word.toNat < 2 ^ 64
  · obtain ⟨start, hstart, hto⟩ := Addr.plus_of_lt hlt
    have hcases := sweepsRun_cases ⟨start, .ofNat 64 pageSize⟩
    have hpage : BitVec.ofNat 64 pageSize ≠ 0 := by decide
    have hlength : (BitVec.ofNat 64 pageSize).toNat = pageSize := rfl
    rw [and_iff_right hpage, Run.bytes] at hcases
    dsimp only at hcases
    rw [hto, hlength] at hcases
    rw [hstart, Checked.ok_bind]
    rcases hcases with ⟨hnot, l, hl, -, hlines⟩ | ⟨hover, hfault, -⟩
    · exact .inl ⟨hnot, l, hl, hlines⟩
    · exact .inr ⟨hover, hfault⟩
  · have hge := Nat.le_of_not_lt hlt
    refine .inr ⟨?_, ?_⟩
    · unfold lineCeiling lineSize
      omega
    · rw [Addr.plus_of_ge hge]
      rfl

/-- Flushing a range line after line comes to an end, in one way, and flushing it at once comes to
the same. It faults exactly if the range is not empty and its end, rounded up to a line, is not
below the end of the space; otherwise the lines that hold its bytes are flushed, in ascending order,
each once, and no others. So are those of the bytes of a page, at any place that memory is mapped
at. -/
theorem flushes_lines (c : LineCache) :
    (∀ r : Run .virt, ∃ lines fault, SweepsRun r lines fault ∧
      (∀ lines' fault', SweepsRun r lines' fault' → lines' = lines ∧ fault' = fault) ∧
      (∀ l, flushVirtual r = .ok l → l.toList = lines ∧ fault = none) ∧
      (∀ f, flushVirtual r = .error f → fault = some f) ∧
      (∀ f, fault = some f ↔ f = .addOverflow ∧
        r.length ≠ 0 ∧ 2 ^ 64 ≤ lineCeiling (r.addr.word.toNat + r.length.toNat)) ∧
      (fault = none → AreLinesOf r.bytes lines)) ∧
    ∀ a : PhysAddr, let start := c.directMap.word.toNat + a.pageBase.word.toNat
      (∀ f, c.flushPage a = .error f ↔
        f = .addOverflow ∧ 2 ^ 64 ≤ lineCeiling (start + pageSize)) ∧
      ∀ l, c.flushPage a = .ok l → AreLinesOf (List.range' start pageSize) l.toList := by
  refine ⟨fun r => ?_, fun a => ?_⟩
  · rcases sweepsRun_cases r with ⟨hnot, l, hl, hsweep, hlines⟩ | ⟨hover, hfault, lines, hsweep⟩
    · refine ⟨l.toList, none, hsweep, fun _ _ => hsweep.unique, fun l' hl' => ?_, fun f hf => ?_,
        fun f => iff_of_false (fun h => ?_) fun h => hnot h.2, fun _ => hlines⟩
      · obtain rfl := Except.ok.inj (hl.symm.trans hl')
        exact ⟨rfl, rfl⟩
      · cases hl.symm.trans hf
      · cases h
    · refine ⟨lines, some .addOverflow, hsweep, fun _ _ => hsweep.unique, fun l hl => ?_,
        fun f hf => ?_, fun f => ⟨fun h => ?_, fun h => ?_⟩, fun h => ?_⟩
      · cases hfault.symm.trans hl
      · exact congrArg some (Except.error.inj (hfault.symm.trans hf))
      · exact ⟨(Option.some.inj h).symm, hover⟩
      · exact congrArg some h.1.symm
      · cases h
  · rcases c.flushPage_cases a with ⟨hnot, l, hl, hlines⟩ | ⟨hover, hfault⟩
    · refine ⟨fun f => Checked.eq_error_iff (.inl ⟨hnot, l, hl⟩), ?_⟩
      intro l' hl'
      obtain rfl := Except.ok.inj (hl.symm.trans hl')
      exact hlines
    · refine ⟨fun f => Checked.eq_error_iff (.inr ⟨hover, hfault⟩), ?_⟩
      intro l hl
      cases hfault.symm.trans hl

/-- A range that begins with the last byte of one line and ends with the first of another is flushed
in three lines. The same range in the last lines of the space faults; and a page that is mapped
off the lines is flushed from the line that it begins in to the line that it ends in. -/
theorem flushes_lines_off_line :
    let c : LineCache := ⟨⟨0x10⟩⟩
    SweepsRun ⟨⟨0x103f⟩, 0x42⟩ [⟨0x1000⟩, ⟨0x1040⟩, ⟨0x1080⟩] none ∧
    AreLinesOf (List.range' 0x103f 0x42) [⟨0x1000⟩, ⟨0x1040⟩, ⟨0x1080⟩] ∧
    (∃ lines, SweepsRun ⟨⟨0xffffffffffffff7f⟩, 0x42⟩ lines (some .addOverflow)) ∧
    ∃ l, c.flushPage ⟨0x2345⟩ = .ok l ∧ ⟨0x2000⟩ ∈ l.toList ∧ ⟨0x3000⟩ ∈ l.toList := by
  intro c
  obtain ⟨hranges, hpages⟩ := c.flushes_lines
  obtain ⟨lines, fault, hsweep, -, hdone, -, -, hlines⟩ := hranges ⟨⟨0x103f⟩, 0x42⟩
  obtain ⟨hsame, rfl⟩ := hdone ⟨⟨0x1000⟩, 3⟩ (by rfl)
  have hthree : (Lines.mk ⟨0x1000⟩ 3).toList = [⟨0x1000⟩, ⟨0x1040⟩, ⟨0x1080⟩] := by decide
  obtain rfl := hthree.symm.trans hsame
  obtain ⟨lines, fault, hover, -, -, -, hfault, -⟩ := hranges ⟨⟨0xffffffffffffff7f⟩, 0x42⟩
  obtain rfl := (hfault .addOverflow).mpr ⟨rfl, by decide, by decide⟩
  refine ⟨hsweep, hlines rfl, ⟨lines, hover⟩, ?_⟩
  obtain ⟨herror, hpage⟩ := hpages ⟨0x2345⟩
  have hstart : c.directMap.word.toNat + (⟨0x2345⟩ : PhysAddr).pageBase.word.toNat = 0x2010 := by
    decide
  rw [hstart] at herror hpage
  cases hflushed : c.flushPage ⟨0x2345⟩ with
  | error f => exact absurd ((herror f).mp hflushed).2 (by decide)
  | ok l =>
    have hmem := (hpage l hflushed).mem_iff
    refine ⟨l, rfl, (hmem _).mpr ⟨by decide, 0x2010, ?_⟩, (hmem _).mpr ⟨by decide, 0x300f, ?_⟩⟩
    all_goals exact ⟨List.mem_range'_1.mpr ⟨by decide, by decide⟩, by decide, by decide⟩

end LineCache

end Aperture
