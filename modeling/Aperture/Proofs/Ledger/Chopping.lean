import Aperture.Gather.History
import Aperture.Proofs.Gather.Chopping
import Aperture.Proofs.Ledger.Sound
import Aperture.Proofs.Session.Changes
import Aperture.Proofs.Tag.Placement

namespace Aperture

namespace Ledger

variable {w w₁ w₂ : Ledger} {t t₁ t₂ : Tag} {name name₁ name₂ : String} {m m₁ m₂ : Mapping}
  {p p₁ p₂ : Payload} {b b₁ b₂ : Block}

/-- What the rules make of some bytes is what a load in the block comes to. -/
inductive LoadsAs (rules : SegmentRules) (bytes : List Stretch) (name : String) (m : Mapping)
    (b : Block) : Checked Step → Prop
  | overrun
      (hover : rules.Overruns bytes) :
      LoadsAs rules bytes name m b (.error .addOverflow)
  | full {d : Step}
      (hover : ¬ rules.Overruns bytes)
      (hmany : rules.maxCount.toNat < (rules.segmentsOf bytes).length)
      (hreply : d.reply = .refused .tooManySegments) :
      LoadsAs rules bytes name m b (.ok d)
  | done {d : Step} {l : Loaded}
      (hover : ¬ rules.Overruns bytes)
      (hfew : (rules.segmentsOf bytes).length ≤ rules.maxCount.toNat)
      (hreply : d.reply = .done)
      (hmapping : d.session.mapping? name = some { m with loaded := some l })
      (hblock : l.block = b)
      (hsegments : l.segments.segments.map Run.stretch = rules.segmentsOf bytes) :
      LoadsAs rules bytes name m b (.ok d)

theorem Reachable.loadsAs (hw : w.Reachable) (ht : w.session.tag = some t)
    (hm : w.session.mapping? name = some m) (hloaded : m.loaded = none)
    (hb : t.blockFor m p = .ok (some b)) (hroomy : (t.rulesFor m).Roomy) :
    LoadsAs (t.rulesFor m) ((b.busBytes (t.memory.resolve p).runs).map .single) name m b
      (w.session.step (.act name (.load p))) := by
  have hs := hw.sound t ht
  have hmem := Session.mem_mappings hm
  obtain ⟨hin, hpages, -, length, hroute⟩ := Tag.route_of_blockFor hs.occupied.wellFormed
    (hw.lawful.recorded t ht) (hw.lawful.mappings _ hmem) (hs.blank _ hmem) hloaded hb
  have hfree : (t.rulesFor m).LengthFree ⟨b.start.toNat, b.size.toNat⟩ :=
    hroomy.lengthFree b.size.isLt
  have hinside := Block.stretches_inside hpages hin
  have hover : (t.rulesFor m).Overruns ((b.busBytes (t.memory.resolve p).runs).map .single) ↔ _ :=
    hfree.overruns_singles hpages.stop_le hinside
  have hsegments : (t.rulesFor m).segmentsOf
      ((b.busBytes (t.memory.resolve p).runs).map .single) = _ :=
    hfree.segmentsOf_singles fun s hs => (hinside s hs).2
  rw [Session.step_load ht hm]
  generalize t.load m p = result at hroute
  cases hroute with
  | overrun hover' => exact .overrun (hover.mpr hover')
  | full hover' hmany => exact .full (mt hover.mp hover') (hsegments ▸ hmany) rfl
  | done hover' hfew hblock _ hmade =>
    exact .done (mt hover.mp hover') (hsegments ▸ hfew) rfl
      (Session.hasBeside_put _ name _).mapping?_self hblock (hmade.trans hsegments.symm)

/-- Loads of the same bytes come to the same. -/
theorem LoadsAs.agree {rules : SegmentRules} {bytes : List Stretch} {result₁ result₂ : Checked Step}
    (h₁ : LoadsAs rules bytes name₁ m₁ b₁ result₁) (h₂ : LoadsAs rules bytes name₂ m₂ b₂ result₂) :
    (result₁ = .error .addOverflow ∧ result₂ = .error .addOverflow) ∨
    ∃ d₁ d₂, result₁ = .ok d₁ ∧ result₂ = .ok d₂ ∧
      (d₁.reply = .refused .tooManySegments ∧ d₂.reply = .refused .tooManySegments ∨
        d₁.reply = .done ∧ d₂.reply = .done ∧
        ∃ l₁ l₂ : Loaded, d₁.session.mapping? name₁ = some { m₁ with loaded := some l₁ } ∧
          d₂.session.mapping? name₂ = some { m₂ with loaded := some l₂ } ∧
          l₁.block = b₁ ∧ l₂.block = b₂ ∧ l₁.segments.segments = l₂.segments.segments) := by
  cases h₁ with
  | overrun hover =>
    cases h₂ with
    | overrun => exact .inl ⟨rfl, rfl⟩
    | full hover' => exact absurd hover hover'
    | done hover' => exact absurd hover hover'
  | full hover hmany hreply₁ =>
    cases h₂ with
    | overrun hover' => exact absurd hover' hover
    | full _ _ hreply₂ => exact .inr ⟨_, _, rfl, rfl, .inl ⟨hreply₁, hreply₂⟩⟩
    | done _ hfew => exact absurd hmany (Nat.not_lt_of_le hfew)
  | done hover hfew hreply₁ hmapping₁ hblock₁ hsegments₁ =>
    cases h₂ with
    | overrun hover' => exact absurd hover' hover
    | full _ hmany => exact absurd hmany (Nat.not_lt_of_le hfew)
    | done _ _ hreply₂ hmapping₂ hblock₂ hsegments₂ =>
      have hsame := GatherList.stretch_injective.list_map (hsegments₁.trans hsegments₂.symm)
      exact .inr ⟨_, _, rfl, rfl, .inr ⟨hreply₁, hreply₂, _, _, hmapping₁, hmapping₂, hblock₁,
        hblock₂, hsame⟩⟩

/-- Where the largest segment length never ends a segment, appending a range comes to what appending
its front and then its back comes to. So two loads with the same rules, in runs of any two tags,
come to the same when their payloads are the same bytes on the bus, in whatever runs: both reach the
end of the address space, both have too many segments, or both are done with the same segments. -/
theorem segments_of_choppings :
    (∀ {storage : Storage} {maxCount maxLength boundary : Word} {g g' : GatherList}
        {cs : List GatherList.Call} {refusals : List (Option Refusal)},
      GatherList.new storage maxCount maxLength boundary = .ok g →
      g.runAll cs = .ok (refusals, g') → g'.rules.Roomy → ∀ (a : BusAddr) (n m : Word),
      a.word.toNat + n.toNat + m.toNat < 2 ^ 64 →
      (∃ out, g'.append ⟨a, n + m⟩ = .ok out) ∧
      g'.append ⟨a, n + m⟩ =
        g'.append ⟨a, n⟩ >>= GatherList.andThen (·.append ⟨⟨a.word + n⟩, m⟩)) ∧
    ∀ {w₁ w₂ : Ledger} {t₁ t₂ : Tag} {name₁ name₂ : String} {m₁ m₂ : Mapping} {p₁ p₂ : Payload}
        {b₁ b₂ : Block},
      w₁.Reachable → w₂.Reachable → w₁.session.tag = some t₁ → w₂.session.tag = some t₂ →
      w₁.session.mapping? name₁ = some m₁ → w₂.session.mapping? name₂ = some m₂ →
      m₁.loaded = none → m₂.loaded = none →
      t₁.blockFor m₁ p₁ = .ok (some b₁) → t₂.blockFor m₂ p₂ = .ok (some b₂) →
      (t₁.rulesFor m₁).Roomy → t₁.rulesFor m₁ = t₂.rulesFor m₂ →
      b₁.busBytes (t₁.memory.resolve p₁).runs = b₂.busBytes (t₂.memory.resolve p₂).runs →
      (w₁.session.step (.act name₁ (.load p₁)) = .error .addOverflow ∧
        w₂.session.step (.act name₂ (.load p₂)) = .error .addOverflow) ∨
      ∃ d₁ d₂, w₁.session.step (.act name₁ (.load p₁)) = .ok d₁ ∧
        w₂.session.step (.act name₂ (.load p₂)) = .ok d₂ ∧
        (d₁.reply = .refused .tooManySegments ∧ d₂.reply = .refused .tooManySegments ∨
          d₁.reply = .done ∧ d₂.reply = .done ∧
          ∃ l₁ l₂ : Loaded, d₁.session.mapping? name₁ = some { m₁ with loaded := some l₁ } ∧
            d₂.session.mapping? name₂ = some { m₂ with loaded := some l₂ } ∧
            l₁.block = b₁ ∧ l₂.block = b₂ ∧
            l₁.segments.segments = l₂.segments.segments) := by
  refine ⟨fun hnew hrun hroomy a n m hend => ?_,
    fun hw₁ hw₂ ht₁ ht₂ hm₁ hm₂ hnone₁ hnone₂ hb₁ hb₂ hroomy hrules hbytes => ?_⟩
  · obtain ⟨hkeeps, -⟩ := GatherList.of_new hnew
    have hlimits := (GatherList.runAll_keepsLimits hrun hkeeps).1
    have hboth : (n + m).toNat = n.toNat + m.toNat := BitVec.toNat_add_of_lt (by omega)
    refine ⟨hlimits.append_isOk ?_, hlimits.append_add hroomy hend⟩
    show a.word.toNat + (n + m).toNat < 2 ^ 64
    omega
  · have h₁ := hw₁.loadsAs ht₁ hm₁ hnone₁ hb₁ hroomy
    have h₂ := hw₂.loadsAs ht₂ hm₂ hnone₂ hb₂ (hrules ▸ hroomy)
    rw [← hrules, ← hbytes] at h₂
    exact h₁.agree h₂

/-- A range that runs out of segments behind the cut, and a payload of two pages in two runs or in
three. -/
theorem segments_of_choppings_uneven :
    let calls : List GatherList.Call := [.append ⟨⟨0x1000⟩, 0x5000⟩, .reset 0x4000,
      .append ⟨⟨0x1000⟩, 0x800⟩]
    let even : Payload := .raw [⟨⟨0x5fc0⟩, 0x40⟩, ⟨⟨0x9000⟩, 0x80⟩]
    let uneven : Payload := .raw [⟨⟨0x5fc0⟩, 0x10⟩, ⟨⟨0x5fd0⟩, 0x30⟩, ⟨⟨0x9000⟩, 0x80⟩]
    let create : Command := .create "m" ⟨0x3000, 2, 0x1000, 0x1000, {}⟩
    let b : Block := ⟨0x11000, 0x2000⟩
    (∃ g g' refusals grown, GatherList.new .ample 2 0x4000 0 = .ok g ∧
      g.runAll calls = .ok (refusals, g') ∧ g'.rules.Roomy ∧
      g'.append ⟨⟨0x1800⟩, 0x3000 + 0x8000⟩ = .ok (grown, some .tooManySegments) ∧
      (g'.append ⟨⟨0x1800⟩, 0x3000⟩ >>= GatherList.andThen (·.append ⟨⟨0x1800 + 0x3000⟩, 0x8000⟩)) =
        .ok (grown, some .tooManySegments)) ∧
    ∃ (w : Ledger) (t : Tag) (m : Mapping) (d₁ d₂ : Step) (l₁ l₂ : Loaded),
      runFrom ⟨0x11000⟩ 0x10000 [create] = .ok w ∧
      w.session.tag = some t ∧ w.session.mapping? "m" = some m ∧ m.loaded = none ∧
      t.blockFor m even = .ok (some b) ∧ t.blockFor m uneven = .ok (some b) ∧
      (t.rulesFor m).Roomy ∧
      b.busBytes (t.memory.resolve even).runs = b.busBytes (t.memory.resolve uneven).runs ∧
      w.session.step (.act "m" (.load even)) = .ok d₁ ∧
      w.session.step (.act "m" (.load uneven)) = .ok d₂ ∧
      d₁.session.mapping? "m" = some { m with loaded := some l₁ } ∧
      d₂.session.mapping? "m" = some { m with loaded := some l₂ } ∧
      l₁.segments.segments = l₂.segments.segments := by
  intro calls even uneven create b
  obtain ⟨happends, hloads⟩ := segments_of_choppings
  constructor
  · have hrun : ((GatherList.new .ample 2 0x4000 0).toOption.bind fun g =>
        (g.runAll calls).toOption.bind fun (_, g') =>
          (g'.append ⟨⟨0x1800⟩, 0x3000 + 0x8000⟩).toOption.map fun out =>
            (out.2, decide g'.rules.Roomy)) = some (some .tooManySegments, true) := by
      decide +kernel
    obtain ⟨g, hg, hrun⟩ := Option.bind_eq_some_iff.mp hrun
    obtain ⟨⟨refusals, g'⟩, hg', hrun⟩ := Option.bind_eq_some_iff.mp hrun
    obtain ⟨⟨grown, refusal⟩, hgrown, hlast⟩ := Option.map_eq_some_iff.mp hrun
    obtain ⟨rfl, hroomy⟩ := Prod.mk.inj hlast
    have hnew := Checked.eq_ok_of_toOption hg
    have hcalls := Checked.eq_ok_of_toOption hg'
    have happend := Checked.eq_ok_of_toOption hgrown
    have hroomy := of_decide_eq_true hroomy
    obtain ⟨-, hparts⟩ := happends hnew hcalls hroomy ⟨0x1800⟩ 0x3000 0x8000 (by decide)
    exact ⟨g, g', refusals, grown, hnew, hcalls, hroomy, happend, hparts.symm.trans happend⟩
  · have hrun : (do
        let w ← runFrom ⟨0x11000⟩ 0x10000 [create]
        let d ← w.session.step (.act "m" (.load even))
        return (d.reply.isDone, w.session.tag.bind fun t => (w.session.mapping? "m").map fun m =>
          decide (m.loaded.isNone ∧ (t.blockFor m even).toOption = some (some b) ∧
            (t.blockFor m uneven).toOption = some (some b) ∧ (t.rulesFor m).Roomy ∧
            b.busBytes (t.memory.resolve even).runs = b.busBytes (t.memory.resolve uneven).runs)) :
            Checked _).toOption = some (true, some true) := by
      decide +kernel
    obtain ⟨w, hw, hrun⟩ := Checked.bind_eq_ok.mp (Checked.eq_ok_of_toOption hrun)
    obtain ⟨d, hd, hrun⟩ := Checked.bind_eq_ok.mp hrun
    obtain ⟨hdone, hrun⟩ := Prod.mk.inj (Except.ok.inj hrun)
    obtain ⟨t, ht, hrun⟩ := Option.bind_eq_some_iff.mp hrun
    obtain ⟨m, hm, hrun⟩ := Option.map_eq_some_iff.mp hrun
    obtain ⟨hempty, hb₁, hb₂, hroomy, hbytes⟩ := of_decide_eq_true hrun
    have hnone := Option.isNone_iff_eq_none.mp hempty
    have hb₁ := Checked.eq_ok_of_toOption hb₁
    have hb₂ := Checked.eq_ok_of_toOption hb₂
    have hreach := reachable_runFrom hw
    rcases hloads hreach hreach ht ht hm hm hnone hnone hb₁ hb₂ hroomy rfl hbytes with
      ⟨hfault, -⟩ | ⟨d₁, d₂, hd₁, hd₂, ⟨hrefused, -⟩ | ⟨-, -, l₁, l₂, hl₁, hl₂, -, -, hsame⟩⟩
    · rw [hd] at hfault
      cases hfault
    · obtain rfl := Except.ok.inj (hd.symm.trans hd₁)
      rw [Reply.isDone_iff.mp hdone] at hrefused
      cases hrefused
    · exact ⟨w, t, m, d₁, d₂, l₁, l₂, hw, ht, hm, hnone, hb₁, hb₂, hroomy, hbytes, hd₁, hd₂, hl₁,
        hl₂, hsame⟩

end Ledger

end Aperture
