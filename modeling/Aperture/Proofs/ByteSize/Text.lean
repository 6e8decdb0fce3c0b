import Aperture.ByteSize.Spelling

namespace Aperture

namespace ByteSize

variable {text : String} {b c : ByteSize} {whole ds : List Char} {h n : Nat}

theorem toList_toString_of_lt_ten (hn : n < 10) : (toString n).toList = [n.digitChar] := by
  rw [Nat.toString_eq_ofList_toDigits, String.toList_ofList, Nat.toDigits_of_lt_base hn]

/-- The decimals of some hundredths, as digits: none, the tenths, or both digits. -/
def decimalDigits (h : Nat) : List Char :=
  if h = 0 then [] else if h % 10 = 0 then [(h / 10).digitChar]
  else [(h / 10).digitChar, (h % 10).digitChar]

theorem toList_decimals (hlt : h < 100) : (decimals h).toList = fraction (decimalDigits h) := by
  have htens : h / 10 < 10 := by omega
  unfold decimals decimalDigits
  by_cases hzero : h = 0
  · rw [if_pos hzero, if_pos hzero]
    rfl
  rw [if_neg hzero, if_neg hzero]
  by_cases hten : h % 10 = 0
  · rw [if_pos hten, if_pos hten, String.toList_append, toList_toString_of_lt_ten htens]
    rfl
  rw [if_neg hten, if_neg hten]
  by_cases hone : h < 10
  · rw [if_pos hone, String.toList_append, toList_toString_of_lt_ten hone, Nat.div_eq_of_lt hone,
      Nat.mod_eq_of_lt hone]
    rfl
  · have htwo : (toString h).toList = [(h / 10).digitChar, (h % 10).digitChar] := by
      rw [Nat.toString_eq_ofList_toDigits, String.toList_ofList,
        Nat.toDigits_of_base_le (by decide) (Nat.le_of_not_lt hone),
        Nat.toDigits_of_lt_base htens]
      rfl
    rw [if_neg hone, String.toList_append, htwo]
    rfl

/-- These digits stand for the hundredths, and the last of them is no zero. -/
theorem decimalDigits_cases (hlt : h < 100) : (∀ c ∈ decimalDigits h, c.isDigit) ∧
    (decimalDigits h).length ≤ 2 ∧ (decimalDigits h).getLast? ≠ some '0' ∧
    h * 10 ^ (decimalDigits h).length = 100 * Nat.ofDigitChars 10 (decimalDigits h) 0 := by
  have htens : h / 10 < 10 := by omega
  have hones : h % 10 < 10 := Nat.mod_lt _ (by decide)
  unfold decimalDigits
  split
  · next hzero =>
    rw [hzero]
    exact ⟨by simp, by simp, by simp, rfl⟩
  · next hzero =>
    split
    · next hten =>
      refine ⟨?_, by simp, ?_, ?_⟩
      · simpa using htens
      · simp only [List.getLast?_singleton, ne_eq, Option.some.injEq, Nat.digitChar_eq_zero]
        omega
      · rw [Nat.ofDigitChars_cons_digitChar_of_lt_ten htens, Nat.ofDigitChars_nil,
          List.length_singleton]
        omega
    · next hten =>
      refine ⟨?_, by simp, ?_, ?_⟩
      · simpa using ⟨htens, hones⟩
      · simp only [List.getLast?_cons_cons, List.getLast?_singleton, ne_eq, Option.some.injEq,
          Nat.digitChar_eq_zero]
        omega
      · rw [Nat.ofDigitChars_cons_digitChar_of_lt_ten htens,
          Nat.ofDigitChars_cons_digitChar_of_lt_ten hones, Nat.ofDigitChars_nil, List.length_cons,
          List.length_singleton]
        omega

theorem spells_toString (hh : b.hundredths < 100) (hu : b.unit < unitNames.length) :
    Spells (toString b) b := by
  obtain ⟨hdigits, hshort, htrimmed, hvalue⟩ := decimalDigits_cases hh
  refine ⟨Nat.toDigits 10 b.whole, decimalDigits b.hundredths, ?_, Nat.toDigits_ne_nil, ?_, hshort,
    htrimmed, hu, Nat.ofDigitChars_ten_toDigits.symm, hvalue⟩
  · have htext : toString b =
        toString b.whole ++ decimals b.hundredths ++ unitNames.getD b.unit "" := rfl
    rw [htext, String.toList_append, String.toList_append, toList_decimals hh,
      Nat.toString_eq_ofList_toDigits, String.toList_ofList]
  · intro c hc
    rcases List.mem_append.mp hc with hwhole | hdecimal
    · exact Nat.isDigit_of_mem_toDigits (by decide) (by decide) hwhole
    · exact hdigits c hdecimal

/-- Names of units are found where they are, and begin with no character of a number. -/
theorem names_apart : ∀ u < unitNames.length,
    unitNames.idxOf? (unitNames.getD u "") = some u ∧
      (unitNames.getD u "").toList.takeWhile (fun c => c.isDigit || c == '.') = [] := by
  decide

theorem readDecimals_fraction (hshort : ds.length ≤ 2)
    (hvalue : h * 10 ^ ds.length = 100 * Nat.ofDigitChars 10 ds 0) :
    readDecimals (fraction ds) = some h := by
  match ds, hshort with
  | [], _ =>
    rw [List.length_nil, Nat.ofDigitChars_nil] at hvalue
    exact congrArg some (by omega)
  | [x], _ =>
    rw [List.length_singleton, Nat.ofDigitChars_cons, Nat.ofDigitChars_nil] at hvalue
    exact congrArg some (by omega)
  | [x, y], _ =>
    rw [List.length_cons, List.length_singleton, Nat.ofDigitChars_cons, Nat.ofDigitChars_cons,
      Nat.ofDigitChars_nil] at hvalue
    exact congrArg some (by omega)

theorem eq_point_or_mem_of_mem_fraction {c : Char} (hc : c ∈ fraction ds) : c = '.' ∨ c ∈ ds := by
  cases ds with
  | nil => cases hc
  | cons => exact List.mem_cons.mp hc

theorem fraction_span (ds : List Char) : (fraction ds).takeWhile Char.isDigit = [] ∧
    (fraction ds).dropWhile Char.isDigit = fraction ds := by
  cases ds <;> exact ⟨rfl, rfl⟩

/-- A text that spells a size is read back as that size. -/
theorem ofText?_of_spells (hb : Spells text b) : ofText? text = some b := by
  obtain ⟨whole, ds, hs⟩ := hb
  obtain ⟨hfound, hname⟩ := names_apart b.unit hs.named
  obtain ⟨htake, hdrop⟩ := fraction_span ds
  have hdigits (c : Char) (hc : c ∈ whole) : c.isDigit = true :=
    hs.digits c (List.mem_append_left _ hc)
  -- the number goes up to the name, and its whole part up to the point
  have hnumber : text.toList.takeWhile (fun c => c.isDigit || c == '.') =
      whole ++ fraction ds := by
    rw [hs.characters, List.takeWhile_append_of_pos, hname, List.append_nil]
    intro c hc
    rcases List.mem_append.mp hc with hc | hc
    · rw [hdigits c hc, Bool.true_or]
    · rcases eq_point_or_mem_of_mem_fraction hc with rfl | hc
      · rfl
      · rw [hs.digits c (List.mem_append_right _ hc), Bool.true_or]
  have hrest : text.toList.drop (whole ++ fraction ds).length =
      (unitNames.getD b.unit "").toList := by
    rw [hs.characters, List.drop_left]
  have hwhole : (whole ++ fraction ds).takeWhile Char.isDigit = whole := by
    rw [List.takeWhile_append_of_pos hdigits, htake, List.append_nil]
  have hfraction : (whole ++ fraction ds).dropWhile Char.isDigit = fraction ds := by
    rw [List.dropWhile_append_of_pos hdigits, hdrop]
  unfold ofText?
  dsimp only
  rw [hnumber, hrest, hwhole, hfraction, readDecimals_fraction hs.short hs.hundredths_eq,
    String.ofList_toList, hfound, ← hs.whole_eq]
  rfl

theorem Spells.unique (hb : Spells text b) (hc : Spells text c) : c = b :=
  Option.some.inj ((ofText?_of_spells hc).symm.trans (ofText?_of_spells hb))

end ByteSize

end Aperture
