import Aperture.Proofs.Ledger.Wired

namespace Aperture

theorem Pool.WellFormed.holds_inside {p : Pool} (hp : p.WellFormed) {b : Block}
    (hb : b ∈ p.blocks) {a : BusAddr} (ha : b.Holds a) :
    p.first.toNat ≤ a.word.toNat ∧ a.word.toNat < p.first.toNat + p.size.toNat := by
  obtain ⟨hfirst, hstop⟩ := hp.inside b hb
  have hlast : p.last.toNat = p.first.toNat + (p.size.toNat - 1) := BitVec.toNat_ofNatLT ..
  have hfirst := BitVec.le_def.mp hfirst
  have hpos := p.size_pos
  obtain ⟨habove, hbelow⟩ := ha
  omega

/-- What a page is wired to decides its entry, so the entry is right if the wiring is. -/
theorem Entry.isFor_forPage {page : PhysAddr} {scribble : Entry} {mappings : List Mapping}
    {bus : BusAddr} {x : Option (PhysAddr × Traits)}
    (hscribble : ofPage? page false = some scribble)
    (hserved : ∀ m ∈ mappings, ∀ f, m.Serves bus f → x = some (f.base, m.limits.traits))
    (hbound : x ≠ none → ∃ m ∈ mappings, ∃ f, m.Serves bus f) :
    (scribble.forPage x).IsFor scribble mappings bus := by
  obtain ⟨hpage, hlow, rfl⟩ := ofPage?_eq_some_iff.mp hscribble
  have hunsnooped : ¬ (encode page false).isSnooped := by
    rw [isSnooped_encode]
    exact Bool.false_ne_true
  refine ⟨isValid_forPage (isValid_encode page false) x, fun m hm f hf => ?_, fun hnone => ?_, ?_,
    ?_⟩
  · rw [hserved m hm f hf]
    refine ⟨rfl, fun hlt => ?_⟩
    obtain ⟨-, he⟩ | ⟨hge, -⟩ := forPage_cases (encode page false) f m.limits.traits
    · rw [he]
      exact address?_encode f.pageOffset_base hlt _
    · exact absurd hlt (Nat.not_lt.mpr hge)
  · cases x with
    | none => rfl
    | some y =>
      obtain ⟨m, hm, f, hf⟩ := hbound (Option.some_ne_none y)
      exact absurd hf (hnone m hm f)
  · intro hsnooped
    cases x with
    | none => exact absurd hsnooped hunsnooped
    | some y =>
      obtain ⟨m, hm, f, hf⟩ := hbound (Option.some_ne_none y)
      rw [hserved m hm f hf] at hsnooped ⊢
      obtain ⟨hlt, he⟩ | ⟨-, he⟩ := forPage_cases (encode page false) f m.limits.traits
      · rw [he] at hsnooped ⊢
        exact ⟨m, hm, f, hf, address?_encode f.pageOffset_base hlt _,
          (isSnooped_encode _ _).mp hsnooped⟩
      · rw [he] at hsnooped
        exact absurd hsnooped hunsnooped
  · intro h
    obtain ⟨m, hm, f, hf, haddress, hcoherent⟩ := h
    rw [hserved m hm f hf] at haddress ⊢
    obtain ⟨-, he⟩ | ⟨hge, he⟩ := forPage_cases (encode page false) f m.limits.traits
    · rw [he]
      exact (isSnooped_encode _ _).mpr hcoherent
    · -- the scribble entry does not point at a frame that is too high for it
      rw [he, address?_encode hpage hlow] at haddress
      rw [← Option.some.inj haddress] at hge
      exact absurd hlow (Nat.not_lt.mpr hge)

namespace Ledger

variable {w w' : Ledger} {t : Tag} {table : Table} {forgotten : List Mapping}

/-- The tag of a session that has the aperture of its table hands out pages of the table alone. -/
theorem Sound.covers {p : Pool} (hs : w.Sound t) (h : w.Wired forgotten)
    (hrange : p.SameRange t.pool) (hfirst : p.first = table.aperture.word)
    (hsize : p.size.toNat ≤ table.entries.size * pageSize) {m : Mapping}
    (hm : m ∈ w.session.mappings.map (·.2) ++ forgotten) {bus : BusAddr} {f : FrameNo}
    (hf : m.Serves bus f) : table.Covers bus := by
  have hloaded {l : Loaded} (hl : m.loaded = some l) : l ∈ w.tenancies.map (·.loaded) := by
    rw [h.loaded_tenancies]
    exact List.mem_filterMap.mpr ⟨m, hm, hl⟩
  obtain ⟨l, hl, hmem⟩ := hf.mem_layout fun l hl => hs.occupied.fits l (hloaded hl)
  have hpages := (hs.occupied.fits l (hloaded hl)).pages
  have hinside := hs.occupied.wellFormed.holds_inside (hs.occupied.block_mem (hloaded hl))
    (hpages.holds_layout hmem)
  rw [hrange.first, hrange.size, hfirst] at hinside
  exact ⟨hpages.pageOffset_layout hmem, hinside.1, by omega⟩

/-- A session that was given no aperture of its own has that of its table. -/
theorem range_of_table {name : String} {memory : HostMemory} {cache : Option Cache} {s : Session}
    {events : List Event} (h : Session.new name none (some table) memory cache = .ok (s, events)) :
    ∃ t, s = ⟨some t, some table, []⟩ ∧ t.pool.first = table.aperture.word ∧
      t.pool.size.toNat ≤ table.entries.size * pageSize := by
  obtain ⟨size, t, hsize, htag, rfl⟩ := Session.new_of_table h
  obtain ⟨hpool, -⟩ := Tag.new_eq_ok htag
  obtain ⟨hfirst, hbytes, -⟩ := Pool.new_eq_ok hpool
  refine ⟨t, rfl, hfirst, ?_⟩
  rw [hbytes, Word.times_eq_ok_iff.mp hsize, BitVec.toNat_ofNat]
  exact Nat.mul_le_mul_right _ (Nat.mod_le _ _)

/-- Over a table that is scrubbed first, whatever is done: each page of the aperture has the entry
of the frame that a mapping has there, held or forgotten while it was loaded, and the scribble entry
if none has. The pages of mappings are pages of the aperture, and at no time, not even between two
calls, does a page have an entry that is not valid. -/
theorem entries_of_run {aperture : BusAddr} {scribblePage : PhysAddr} {entries : Array Entry}
    {name : String} {memory : HostMemory} {cache : Option Cache} {s : Session}
    {events : List Event} {cs : List Command}
    (htable : Table.new aperture scribblePage entries = .ok table)
    (hnew : Session.new name none (some table.scrub) memory cache = .ok (s, events))
    (hrun : (start s).runAll cs = .ok w) (hstay : .teardown ∉ cs) :
    Entry.ofPage? scribblePage false = some table.scribble ∧
      ∃ final, w.session.table = some final ∧ final = w.calls.foldl Table.apply table.scrub ∧
        (∀ bus, table.Covers bus → ∃ e, final.entryAt? bus = some e ∧
          e.IsFor table.scribble (w.session.mappings.map (·.2) ++ (start s).forgotten cs) bus) ∧
        (∀ m ∈ w.session.mappings.map (·.2) ++ (start s).forgotten cs, ∀ bus f,
          m.Serves bus f → table.Covers bus) ∧
        ∀ calls, calls <+: w.calls → ∀ bus, table.Covers bus →
          ∃ e, (calls.foldl Table.apply table.scrub).entryAt? bus = some e ∧ e.isValid := by
  obtain ⟨haligned, hscribble⟩ := Table.new_eq_ok htable
  obtain ⟨t₀, rfl, hfirst, hsize⟩ := range_of_table hnew
  rw [Table.aperture_scrub] at hfirst
  rw [Table.size_entries_scrub] at hsize
  have hstart : (start ⟨some t₀, some table.scrub, []⟩).Reachable := .start hnew
  have hw := hstart.runAll hrun
  obtain ⟨t, ht⟩ := hstart.tag_runAll rfl hrun hstay
  have hs := hw.sound t ht
  obtain ⟨t₁, ht₁, hrange, -⟩ := hstart.sameRange_runAll hrun ht
  obtain rfl := Option.some.inj ht₁
  have hwired := (wired_start rfl).runAll hstart rfl hrun hstay
  rw [List.append_nil] at hwired
  obtain ⟨hcalls, hfresh⟩ := hw.calls_fresh t ht
  have hshows := (Table.shows_scrub haligned).applyAll hcalls hfresh
  have hscrubbed {calls : List TableCall} {bus : BusAddr} (hbus : table.Covers bus) :
      (calls.foldl Table.apply table.scrub).Covers bus := by
    refine hbus.congr ?_ ?_
    · rw [Table.aperture_applyAll, Table.aperture_scrub]
    · rw [Table.size_entries_applyAll, Table.size_entries_scrub]
  refine ⟨hscribble, _, table_runAll hrun rfl, rfl, fun bus hbus => ?_, fun m hm bus f hf => ?_,
    fun calls _ bus hbus => ?_⟩
  · refine ⟨_, hshows.entry bus (hscrubbed hbus), ?_⟩
    rw [Table.scribble_applyAll, Table.scribble_scrub]
    exact Entry.isFor_forPage hscribble (fun m hm f hf => hwired.wiring_eq hs hm hf)
      fun hbound => hwired.exists_serves hs hbound
  · exact hs.covers hwired hrange hfirst hsize hm hf
  · have hvalid := (Table.allValid_scrub (Entry.isValid_of_ofPage? hscribble)).applyAll calls
    refine hvalid.entryAt? ?_ (hscrubbed hbus)
    rw [Table.aperture_applyAll, Table.aperture_scrub]
    exact haligned

/-- One mapping is coherent and forgotten while it is loaded, the frame of another lies too high for
an entry, and a third is unloaded again. -/
theorem entries_of_run_after_drop :
    let unwritten : Array Entry := Array.replicate 8 ⟨0xdeadbeef⟩
    let limits (traits : Traits) : Limits := ⟨0x2000, 4, 0x2000, 0, traits⟩
    let cs : List Command := [.create "m" (limits { coherent := true }),
      .act "m" (.load (.raw [⟨⟨0x5800⟩, 0x1000⟩])), .drop "m", .create "n" (limits {}),
      .act "n" (.load (.raw [⟨⟨0x1000000000⟩, 0x1000⟩])), .create "k" (limits {}),
      .act "k" (.load (.raw [⟨⟨0x9000⟩, 0x1000⟩])), .act "k" .unload]
    ∃ (table final : Table) (s : Session) (events : List Event) (w : Ledger),
      Table.new ⟨0xd0000000⟩ ⟨0x7ff000⟩ unwritten = .ok table ∧
      Session.new "plain" none (some table.scrub) ⟨none, .plain⟩ none = .ok (s, events) ∧
      (start s).runAll cs = .ok w ∧ .teardown ∉ cs ∧ w.session.table = some final ∧
      ((start s).forgotten cs).length = 1 ∧
      ([0xd0000000, 0xd0001000, 0xd0002000, 0xd0003000, 0xd0007000].map fun a =>
        final.entryAt? ⟨a⟩) =
          [some ⟨0x5007⟩, some ⟨0x6007⟩, some ⟨0x7ff001⟩, some ⟨0x7ff001⟩, some ⟨0x7ff001⟩] ∧
      ∀ bus, table.Covers bus → ∃ e, final.entryAt? bus = some e ∧
        e.IsFor table.scribble (w.session.mappings.map (·.2) ++ (start s).forgotten cs) bus := by
  intro unwritten limits cs
  have hrun : (do
      let made ← Session.new "plain" none
        (some (Table.scrub ⟨⟨0xd0000000⟩, ⟨0x7ff001⟩, unwritten, 0⟩)) ⟨none, .plain⟩ none
      let w ← (start made.1).runAll cs
      return decide (((start made.1).forgotten cs).length = 1 ∧
        ([0xd0000000, 0xd0001000, 0xd0002000, 0xd0003000, 0xd0007000].map fun a =>
          w.session.table.bind (·.entryAt? ⟨a⟩)) =
            [some ⟨0x5007⟩, some ⟨0x6007⟩, some ⟨0x7ff001⟩, some ⟨0x7ff001⟩, some ⟨0x7ff001⟩]) :
              Checked _).toOption = some true := by decide +kernel
  have htable : Table.new ⟨0xd0000000⟩ ⟨0x7ff000⟩ unwritten =
      .ok ⟨⟨0xd0000000⟩, ⟨0x7ff001⟩, unwritten, 0⟩ := rfl
  obtain ⟨⟨s, events⟩, hnew, hrun⟩ := Checked.bind_eq_ok.mp (Checked.eq_ok_of_toOption hrun)
  obtain ⟨w, hall, hrun⟩ := Checked.bind_eq_ok.mp hrun
  obtain ⟨hone, hentries⟩ := of_decide_eq_true (Except.ok.inj hrun)
  have hstay : .teardown ∉ cs := by simp [cs]
  obtain ⟨-, final, hfinal, -, hright, -⟩ := entries_of_run htable hnew hall hstay
  rw [hfinal] at hentries
  exact ⟨_, final, s, events, w, htable, hnew, hall, hstay, hfinal, hone, hentries, hright⟩

end Ledger

end Aperture
