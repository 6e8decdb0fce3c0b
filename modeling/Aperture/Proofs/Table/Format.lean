import Aperture.Proofs.Table.Entry

namespace Aperture

namespace Entry

variable {e : Entry} {a : PhysAddr} {coherent : Bool}

theorem extractLsb'_eq_iff {start length : Nat} {v : BitVec length} :
    e.bits.extractLsb' start length = v ↔ e.bits.toNat / 2 ^ start % 2 ^ length = v.toNat := by
  rw [← BitVec.toNat_inj, BitVec.extractLsb'_toNat, Nat.shiftRight_eq_div_pow]

/-- The fields of a word in the format, as numbers. -/
theorem inFormat_iff : e.InFormat ↔ e.bits.toNat % 2 = 1 ∧
    (e.bits.toNat / 2 % 4 = 0 ∨ e.bits.toNat / 2 % 4 = 3) ∧
    e.bits.toNat / 8 % 2 = 0 ∧ e.bits.toNat / 256 % 16 = 0 := by
  have hvalid : e.bits.extractLsb' 0 1 = 1 ↔ e.bits.toNat / 1 % 2 = 1 := extractLsb'_eq_iff
  have huncached : e.bits.extractLsb' 1 2 = 0 ↔ e.bits.toNat / 2 % 4 = 0 := extractLsb'_eq_iff
  have hsnooped : e.bits.extractLsb' 1 2 = 3 ↔ e.bits.toNat / 2 % 4 = 3 := extractLsb'_eq_iff
  have hlow : e.bits.extractLsb' 3 1 = 0 ↔ e.bits.toNat / 8 % 2 = 0 := extractLsb'_eq_iff
  have hhigh : e.bits.extractLsb' 8 4 = 0 ↔ e.bits.toNat / 256 % 16 = 0 := extractLsb'_eq_iff
  rw [Nat.div_one] at hvalid
  constructor
  · intro h
    exact ⟨hvalid.mp h.valid, h.cache.imp huncached.mp hsnooped.mp, hlow.mp h.reserved.1,
      hhigh.mp h.reserved.2⟩
  · intro h
    obtain ⟨h₀, hcache, h₃, h₈⟩ := h
    exact ⟨hvalid.mpr h₀, hcache.imp huncached.mpr hsnooped.mpr, hlow.mpr h₃, hhigh.mpr h₈⟩

theorem inFormat_encode (a : PhysAddr) (coherent : Bool) : (encode a coherent).InFormat := by
  have hbits := toNat_bits_encode a coherent
  rw [inFormat_iff]
  generalize a.word.toNat / 4096 = page at hbits
  generalize a.word.toNat / 4294967296 = top at hbits
  split at hbits <;> omega

theorem exists_address? (h : e.isValid) :
    ∃ a, e.address? = some a ∧ a.word.toNat = (e.high * 1048576 + e.low) * 4096 := by
  have hlt : (e.high * 1048576 + e.low) * 4096 < 2 ^ 64 := by
    unfold high low
    omega
  exact ⟨⟨.ofNatLT _ hlt⟩, address?_eq h (BitVec.toNat_ofNatLT ..), BitVec.toNat_ofNatLT ..⟩

/-- A word in the format has no bits but those of its fields. -/
theorem InFormat.toNat_bits (h : e.InFormat) :
    e.bits.toNat = e.low * 4096 + e.high * 16 + (if e.isSnooped then 6 else 0) + 1 := by
  obtain ⟨hvalid, hcache, h₃, h₈⟩ := inFormat_iff.mp h
  have hlt := e.bits.isLt
  unfold low high
  by_cases hs : e.isSnooped
  · have hthree := (isSnooped_iff e).mp hs
    rw [if_pos hs]
    omega
  · have hzero := hcache.resolve_right (mt (isSnooped_iff e).mpr hs)
    rw [if_neg hs]
    omega

theorem InFormat.exists_ofPage? (h : e.InFormat) :
    ∃ a, e.address? = some a ∧ ofPage? a e.isSnooped = some e := by
  obtain ⟨a, ha, hword⟩ := exists_address? ((isValid_iff e).mpr (inFormat_iff.mp h).1)
  have hlow : e.low < 1048576 := Nat.mod_lt _ (by decide)
  have hhigh : e.high < 16 := Nat.mod_lt _ (by decide)
  refine ⟨a, ha, ofPage?_eq_some_iff.mpr ⟨?_, ?_, ?_⟩⟩
  · show a.word.toNat % 4096 = 0
    omega
  · show a.word.toNat < 68719476736
    omega
  · have hpage : a.word.toNat / 4096 % 1048576 = e.low := by omega
    have htop : a.word.toNat / 4294967296 % 16 = e.high := by omega
    have hbits : e.bits.toNat = (encode a e.isSnooped).bits.toNat := by
      rw [h.toNat_bits, toNat_bits_encode, hpage, htop]
    exact congrArg Entry.mk (BitVec.eq_of_toNat_eq hbits)

/-- Encoding and decoding undo one another: an address has an entry exactly if it is the start of a
page in the first 36 bits of memory; the entry is in the format, points at the address and is
snooped as asked; each word in the format is the entry of the one page that it points at, snooped
as it says; and pages that differ have entries that differ. -/
theorem ofPage?_format :
    (∀ (a : PhysAddr) (traits : Traits),
      ((∃ e, ofPage? a traits.coherent = some e) ↔ a.pageOffset = 0 ∧ a.word.toNat < 2 ^ 36) ∧
      ∀ e, ofPage? a traits.coherent = some e → e.InFormat ∧ e.isValid ∧ e.address? = some a ∧
        (e.isSnooped ↔ traits.coherent)) ∧
    (∀ e : Entry, e.InFormat → ∃ a, e.address? = some a ∧
      ∀ b coherent, ofPage? b coherent = some e ↔ b = a ∧ coherent = e.isSnooped) ∧
    ∀ (a b : PhysAddr) (traits : Traits) (e : Entry), ofPage? a traits.coherent = some e →
      ofPage? b traits.coherent = some e → a = b := by
  have hdecoded {a : PhysAddr} {coherent : Bool} {e : Entry}
      (h : ofPage? a coherent = some e) :
      e.InFormat ∧ e.isValid ∧ e.address? = some a ∧ (e.isSnooped ↔ coherent) := by
    obtain ⟨hpage, hlt, rfl⟩ := ofPage?_eq_some_iff.mp h
    exact ⟨inFormat_encode a coherent, isValid_encode a coherent, address?_encode hpage hlt _,
      isSnooped_encode a coherent⟩
  refine ⟨fun a traits => ⟨⟨fun h => ?_, fun h => ?_⟩, fun e => hdecoded⟩, fun e he => ?_,
    fun a b traits e ha hb => ?_⟩
  · obtain ⟨e, he⟩ := h
    obtain ⟨hpage, hlt, -⟩ := ofPage?_eq_some_iff.mp he
    exact ⟨hpage, hlt⟩
  · exact ⟨_, ofPage?_eq_some_iff.mpr ⟨h.1, h.2, rfl⟩⟩
  · obtain ⟨a, ha, hpage⟩ := he.exists_ofPage?
    refine ⟨a, ha, fun b coherent => ⟨fun h => ?_, fun h => ?_⟩⟩
    · obtain ⟨-, -, hb, hsnooped⟩ := hdecoded h
      exact ⟨Option.some.inj (hb.symm.trans ha), (Bool.eq_iff_iff.mpr hsnooped).symm⟩
    · rw [h.1, h.2]
      exact hpage
  · obtain ⟨-, -, ha, -⟩ := hdecoded ha
    obtain ⟨-, -, hb, -⟩ := hdecoded hb
    exact Option.some.inj (ha.symm.trans hb)

/-- A page above the first four gigabytes, whose address is split in the word. -/
theorem ofPage?_format_split : (∃ e, ofPage? ⟨0xa00003000⟩ true = some e) ∧
    (⟨0x30a7⟩ : Entry).InFormat ∧ ∃ a, (⟨0x30a7⟩ : Entry).address? = some a ∧
      (∀ b coherent, ofPage? b coherent = some ⟨0x30a7⟩ ↔ b = a ∧ coherent = true) ∧
      a = ⟨0xa00003000⟩ := by
  obtain ⟨hencoded, hdecoded, hinjective⟩ := ofPage?_format
  have hformat : (⟨0x30a7⟩ : Entry).InFormat :=
    ⟨by decide, .inr (by decide), by decide, by decide⟩
  obtain ⟨a, ha, honly⟩ := hdecoded ⟨0x30a7⟩ hformat
  have hpage := (honly a true).mpr ⟨rfl, by decide⟩
  refine ⟨(hencoded ⟨0xa00003000⟩ { coherent := true }).1.mpr ⟨by decide, by decide⟩, hformat, a,
    ha, honly, ?_⟩
  exact hinjective a ⟨0xa00003000⟩ { coherent := true } ⟨0x30a7⟩ hpage (by decide)

end Entry

end Aperture
