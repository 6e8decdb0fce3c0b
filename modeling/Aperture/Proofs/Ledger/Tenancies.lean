import Aperture.Ledger
import Aperture.Proofs.Session.Steps

namespace Aperture

namespace Ledger

variable {w w' : Ledger} {name : String}

theorem held_perm (h : (w.session.mappings.map (·.1)).Nodup) (name : String) :
    w.held.Perm ((w.tenancy? name).toList ++ w.beside name) :=
  filterMap_perm_lookup
    (fun x : String × Mapping => x.2.loaded.map (Tenancy.mk (w.payloads x.1))) name h

/-- What a mapping that was given the name has loaded, what the others have, and what is lost. -/
theorem tenancies_eq {m? : Option Mapping} (h : w'.session.HasBeside w.session name m?)
    (hpayloads : ∀ other, other ≠ name → w'.payloads other = w.payloads other) :
    w'.tenancies = (m?.bind fun m => m.loaded.map (⟨w'.payloads name, ·⟩)).toList ++
      (w.beside name ++ w'.lost) := by
  have hothers : w'.tenanciesOf (w.session.remove name).mappings = w.beside name := by
    refine List.filterMap_congr fun x hx => ?_
    rw [hpayloads x.1 (of_decide_eq_true (List.mem_filter.mp hx).2)]
  unfold tenancies held tenanciesOf
  rw [h, List.filterMap_append, List.append_assoc]
  refine congrArg₂ _ ?_ (congrArg (· ++ w'.lost) hothers)
  cases m? with
  | none => rfl
  | some m =>
    show List.filterMap _ [(name, m)] = _
    rw [List.filterMap_cons, Option.bind_some]
    cases m.loaded <;> rfl

theorem tenancies_perm (h : (w.session.mappings.map (·.1)).Nodup) (name : String) :
    w.tenancies.Perm ((w.tenancy? name).toList ++ (w.beside name ++ w.lost)) := by
  have hperm := (held_perm h name).append_right w.lost
  rwa [List.append_assoc] at hperm

theorem tenancy?_eq {m : Mapping} (hm : w.session.mapping? name = some m) :
    w.tenancy? name = m.loaded.map (⟨w.payloads name, ·⟩) := by
  rw [tenancy?, hm, Option.bind_some]

theorem mem_tenancies {m : Mapping} {l : Loaded} (hm : w.session.mapping? name = some m)
    (hl : m.loaded = some l) : (⟨w.payloads name, l⟩ : Tenancy) ∈ w.tenancies := by
  refine List.mem_append_left _ (List.mem_filterMap.mpr ⟨_, Session.mem_mappings hm, ?_⟩)
  rw [hl]
  rfl

end Ledger

end Aperture
