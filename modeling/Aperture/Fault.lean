import Aperture.Hex

namespace Aperture

inductive Fault where
  | addOverflow
  | subOverflow
  | mulOverflow
  /-- An alignment that had to be a power of two is not. -/
  | alignment
  /-- A boundary that had to be a power of two is not. -/
  | boundary
  | emptyPool
  /-- A pool would reach past the last address. -/
  | poolWraps
  /-- An aperture does not start at a page. -/
  | apertureStart
  /-- An aperture does not hold a whole, non-zero number of pages. -/
  | apertureSize
  /-- A mapping of the named tag is loaded a second time. -/
  | alreadyLoaded (tag : String)
  /-- A run of physical memory reaches into a second page. -/
  | runCrossesPage (length address : Nat)
deriving DecidableEq

namespace Fault

def message : Fault → String
  | addOverflow => "attempt to add with overflow"
  | subOverflow => "attempt to subtract with overflow"
  | mulOverflow => "attempt to multiply with overflow"
  | alignment => "alignment must be a power of two"
  | boundary => "boundary must be a power of two"
  | emptyPool => "extent must not be empty"
  | poolWraps => "extent wraps around the address space"
  | apertureStart => "aperture start must be page aligned"
  | apertureSize => "aperture size must be a non-zero number of pages"
  | alreadyLoaded tag => tag ++ ": load of a mapping that is already loaded"
  | runCrossesPage length address =>
    "run of " ++ hex length ++ " bytes at " ++ hex address ++ " crosses a page"

end Fault

abbrev Checked := Except Fault

namespace Checked

variable {ε α β : Type}

theorem bind_eq_ok {x : Except ε α} {f : α → Except ε β} {b : β} :
    (x >>= f) = .ok b ↔ ∃ a, x = .ok a ∧ f a = .ok b := by
  cases x <;> simp [bind, Except.bind]

theorem map_eq_ok {x : Except ε α} {f : α → β} {b : β} :
    x.map f = .ok b ↔ ∃ a, x = .ok a ∧ f a = b := by
  cases x <;> simp [Except.map]

theorem bind_eq_error {x : Except ε α} {f : α → Except ε β} {e : ε} :
    (x >>= f) = .error e ↔ x = .error e ∨ ∃ a, x = .ok a ∧ f a = .error e := by
  cases x <;> simp [bind, Except.bind]

theorem map_eq_error {x : Except ε α} {f : α → β} {e : ε} : x.map f = .error e ↔ x = .error e := by
  cases x <;> simp [Except.map]

/-- Where nothing can fault any more, only the start can. -/
theorem bind_eq_error_iff_of_ok {x : Except ε α} {f : α → Except ε β} {e : ε}
    (hf : ∀ a, ∃ b, f a = .ok b) : x >>= f = .error e ↔ x = .error e := by
  rw [bind_eq_error]
  refine or_iff_left ?_
  rintro ⟨a, -, h⟩
  obtain ⟨b, hb⟩ := hf a
  cases hb.symm.trans h

/-- What faults under a condition, always in one way, and otherwise comes to an end. -/
theorem eq_error_iff {x : Except ε α} {e f : ε} {p : Prop}
    (h : (¬ p ∧ ∃ a, x = .ok a) ∨ (p ∧ x = .error e)) : x = .error f ↔ f = e ∧ p := by
  rcases h with ⟨hp, a, rfl⟩ | ⟨hp, rfl⟩
  · exact iff_of_false (fun h => by cases h) fun h => hp h.2
  · rw [Except.error.injEq]
    exact ⟨fun h => ⟨h.symm, hp⟩, fun h => h.1.symm⟩

theorem eq_ok_of_toOption {x : Except ε α} {a : α} (h : x.toOption = some a) : x = .ok a := by
  cases x with
  | error e => cases h
  | ok b => exact congrArg Except.ok (Option.some.inj h)

/-- Both fault in the same way, or come to results that are related. -/
inductive Agree (R : α → β → Prop) : Checked α → Checked β → Prop
  | ok {a : α} {b : β} (h : R a b) : Agree R (.ok a) (.ok b)
  | error (f : Fault) : Agree R (.error f) (.error f)

namespace Agree

variable {γ δ : Type} {R : α → β → Prop} {S : γ → δ → Prop} {x : Checked α} {y : Checked β}

theorem bind (h : Agree R x y) {f : α → Checked γ} {g : β → Checked δ}
    (hnext : ∀ a b, R a b → Agree S (f a) (g b)) : Agree S (x >>= f) (y >>= g) := by
  cases h with
  | ok h => exact hnext _ _ h
  | error f => exact .error f

theorem bind_same (x : Checked α) {f : α → Checked γ} {g : α → Checked δ}
    (hnext : ∀ a, x = .ok a → Agree S (f a) (g a)) : Agree S (x >>= f) (x >>= g) := by
  cases x with
  | ok a => exact hnext a rfl
  | error f => exact .error f

theorem of_ok {a : α} (h : Agree R x y) (hx : x = .ok a) : ∃ b, y = .ok b ∧ R a b := by
  subst hx
  cases h with
  | ok h => exact ⟨_, rfl, h⟩

theorem trans {T : β → γ → Prop} {U : α → γ → Prop} {z : Checked γ} (h : Agree R x y)
    (h' : Agree T y z) (himp : ∀ a b c, R a b → T b c → U a c) : Agree U x z := by
  cases h with
  | ok h =>
    cases h' with
    | ok h' => exact .ok (himp _ _ _ h h')
  | error f =>
    cases h' with
    | error => exact .error f

theorem symm (h : Agree R x y) : Agree (fun b a => R a b) y x := by
  cases h with
  | ok h => exact .ok h
  | error f => exact .error f

theorem refl (x : Checked α) : Agree (· = ·) x x := by
  cases x with
  | ok a => exact .ok rfl
  | error f => exact .error f

theorem eq {x y : Checked α} (h : Agree (· = ·) x y) : x = y := by
  cases h with
  | ok h => rw [h]
  | error f => rfl

end Agree

@[simp] theorem ok_bind (a : α) (f : α → Except ε β) : (.ok a : Except ε α) >>= f = f a := rfl

@[simp] theorem pure_eq (a : α) : (pure a : Except ε α) = .ok a := rfl

end Checked

end Aperture
