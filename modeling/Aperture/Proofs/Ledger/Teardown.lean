import Aperture.Proofs.Ledger.Entries
import Aperture.Proofs.Tag.Teardown

namespace Aperture

variable {name : String} {first : BusAddr} {size : Word} {memory : HostMemory}
  {cache : Option Cache} {events : List Event}

theorem Tag.whole_pages_of_new {t : Tag}
    (h : Tag.new name first size memory cache = .ok (t, events)) :
    first.pageOffset = 0 ∧ pageSize ∣ size.toNat := by
  unfold Tag.new at h
  split at h
  · cases h
  · next hfirst =>
    split at h
    · cases h
    · next hsize =>
      exact ⟨not_not.mp hfirst,
        Nat.dvd_of_mod_eq_zero (not_not.mp (not_or.mp hsize).2)⟩

namespace Session

variable {s : Session} {table : Option Table}

theorem new_of_aperture
    (h : new name (some (first, size)) table memory cache = .ok (s, events)) :
    ∃ tag, Tag.new name first size memory cache = .ok (tag, events) ∧
      s = ⟨some tag, table, []⟩ := by
  obtain ⟨bounds, hbounds, h⟩ := Checked.bind_eq_ok.mp h
  obtain rfl := Except.ok.inj hbounds
  obtain ⟨⟨tag, noted⟩, htag, h⟩ := Checked.bind_eq_ok.mp h
  obtain ⟨rfl, rfl⟩ := Prod.mk.inj (Except.ok.inj h)
  exact ⟨tag, htag, rfl⟩

theorem step_teardown {t : Tag} (ht : s.tag = some t) :
    s.step .teardown =
      t.teardown.map fun done => Step.settled ⟨{ s with tag := none }, .done, done⟩ := by
  unfold step
  rw [run_of_tag ht, runWith]
  cases t.teardown <;> rfl

end Session

namespace Ledger

variable {w : Ledger} {s : Session} {table : Option Table} {cs : List Command}

/-- A tag that is still there can be torn down, whatever was loaded, unloaded or forgotten in its
aperture: each page is unbound once, in ascending order, and then there is one flush. A table over
the same aperture has the scribble entry everywhere then, whatever it had before. -/
theorem teardown_unbinds_all
    (hnew : Session.new name (some (first, size)) table memory cache = .ok (s, events))
    (hrun : (start s).runAll cs = .ok w) (hstay : .teardown ∉ cs) :
    ∃ (d : Step) (pages : List BusAddr), w.session.step .teardown = .ok d ∧ d.reply = .done ∧
      Event.tableCalls d.events = pages.map .unbind ++ [.flush] ∧
      pages.Pairwise (·.word < ·.word) ∧
      (∀ bus, bus ∈ pages ↔ bus.pageOffset = 0 ∧ first.word.toNat ≤ bus.word.toNat ∧
        bus.word.toNat < first.word.toNat + size.toNat) ∧
      ∀ initial, table = some initial → initial.aperture = first →
        initial.entries.size * pageSize = size.toNat →
        ∃ final, d.session.table = some final ∧
          final.entries = Array.replicate initial.entries.size initial.scribble := by
  obtain ⟨t₀, htag, rfl⟩ := Session.new_of_aperture hnew
  obtain ⟨haligned, hwhole⟩ := Tag.whole_pages_of_new htag
  obtain ⟨hfirst, hsize, -⟩ := Pool.new_eq_ok (Tag.new_eq_ok htag).1
  have hstart : (start ⟨some t₀, table, []⟩).Reachable := .start hnew
  have hw := hstart.runAll hrun
  obtain ⟨t, ht⟩ := hstart.tag_runAll rfl hrun hstay
  obtain ⟨t₁, ht₁, hrange, -⟩ := hstart.sameRange_runAll hrun ht
  obtain rfl := Option.some.inj ht₁
  -- the tag has the aperture it was made for
  have hfirst : t.pool.first = first.word := hrange.first.trans hfirst
  have hsize : t.pool.size = size := hrange.size.trans hsize
  have hat : t.start = first := congrArg Addr.mk hfirst
  have hpages := t.mem_pages_iff (hat ▸ haligned) (hsize ▸ hwhole)
  rw [hfirst, hsize] at hpages
  obtain ⟨done, hdone, hcalls⟩ := Tag.teardown_calls (hw.sound t ht).occupied.wellFormed
  have hstep : w.session.step .teardown =
      .ok (Step.settled ⟨{ w.session with tag := none }, .done, done⟩) := by
    rw [Session.step_teardown ht, hdone]
    rfl
  refine ⟨_, t.pages, hstep, rfl, hcalls, t.pairwise_pages, hpages, ?_⟩
  rintro initial rfl rfl hbytes
  refine ⟨_, (Session.table_of_step hstep).trans (congrArg _ (table_runAll hrun rfl)), ?_⟩
  show ((Event.tableCalls done).foldl Table.apply _).entries = _
  rw [Tag.entries_after_teardown hcalls, Table.size_entries_applyAll, Table.scribble_applyAll]
  · rw [Table.aperture_applyAll, hat]
  · rw [Table.size_entries_applyAll, hsize, hbytes]

/-- The last three pages of the space, of which one mapping has the first, which was forgotten while
it was loaded, and another the second. -/
theorem teardown_unbinds_last_pages :
    let first : BusAddr := ⟨0xffffffffffffd000⟩
    let table : Table := ⟨first, ⟨0x7ff001⟩, Array.replicate 3 ⟨0xdeadbeef⟩, 0⟩
    let limits : Limits := ⟨0x1000, 1, 0x1000, 0, {}⟩
    let cs : List Command := [.create "m" limits, .act "m" (.load (.raw [⟨⟨0x5000⟩, 0x1000⟩])),
      .drop "m", .create "n" limits, .act "n" (.load (.raw [⟨⟨0x6000⟩, 0x1000⟩]))]
    ∃ (s : Session) (events : List Event) (w : Ledger) (d : Step) (final : Table),
      Session.new "plain" (some (first, 0x3000)) (some table) ⟨none, .plain⟩ none =
        .ok (s, events) ∧
      (start s).runAll cs = .ok w ∧ .teardown ∉ cs ∧
      w.session.table.map (·.entries) = some #[⟨0x5001⟩, ⟨0x6001⟩, ⟨0xdeadbeef⟩] ∧
      w.session.step .teardown = .ok d ∧ d.reply = .done ∧
      Event.tableCalls d.events = [.unbind ⟨0xffffffffffffd000⟩, .unbind ⟨0xffffffffffffe000⟩,
        .unbind ⟨0xfffffffffffff000⟩, .flush] ∧
      d.session.table = some final ∧ final.entries = Array.replicate 3 ⟨0x7ff001⟩ := by
  intro first table limits cs
  have hrun : (do
      let made ← Session.new "plain" (some (first, 0x3000)) (some table) ⟨none, .plain⟩ none
      let w ← (start made.1).runAll cs
      let d ← w.session.step .teardown
      return decide (
        w.session.table.map (·.entries) = some #[⟨0x5001⟩, ⟨0x6001⟩, ⟨0xdeadbeef⟩] ∧
        Event.tableCalls d.events = [.unbind ⟨0xffffffffffffd000⟩, .unbind ⟨0xffffffffffffe000⟩,
          .unbind ⟨0xfffffffffffff000⟩, .flush]) : Checked _).toOption = some true := by
    decide +kernel
  obtain ⟨⟨s, events⟩, hnew, hrun⟩ := Checked.bind_eq_ok.mp (Checked.eq_ok_of_toOption hrun)
  obtain ⟨w, hall, hrun⟩ := Checked.bind_eq_ok.mp hrun
  obtain ⟨d, hd, hrun⟩ := Checked.bind_eq_ok.mp hrun
  obtain ⟨hbefore, hcalls⟩ := of_decide_eq_true (Except.ok.inj hrun)
  have hstay : .teardown ∉ cs := by simp [cs]
  obtain ⟨d', -, hd', hdone, -, -, -, htable⟩ := teardown_unbinds_all hnew hall hstay
  obtain rfl := Except.ok.inj (hd.symm.trans hd')
  obtain ⟨final, hfinal, hscribble⟩ := htable table rfl rfl (by decide)
  exact ⟨s, events, w, d, final, hnew, hall, hstay, hbefore, hd, hdone, hcalls, hfinal, hscribble⟩

end Ledger

end Aperture
