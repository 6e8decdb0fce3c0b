namespace Aperture

/-- The first place from `lo` on and before `hi` that `below` does not hold of, by halving. -/
def bisect (below : Nat → Bool) (lo hi : Nat) : Nat :=
  if lo < hi then
    let middle := (lo + hi) / 2
    if below middle then bisect below (middle + 1) hi else bisect below lo middle
  else lo
termination_by hi - lo

/-- The condition holds of all places before the result and of none from it on. -/
theorem bisect_spec {below : Nat → Bool} {lo hi : Nat} (hle : lo ≤ hi)
    (hmono : ∀ i j, i < j → j < hi → below j → below i) :
    lo ≤ bisect below lo hi ∧ bisect below lo hi ≤ hi ∧
      (∀ i, lo ≤ i → i < bisect below lo hi → below i) ∧
      ∀ i, bisect below lo hi ≤ i → i < hi → ¬ below i := by
  fun_induction bisect below lo hi with
  | case1 lo hi hlt middle hbelow ih =>
    obtain ⟨hfrom, hto, hlow, hhigh⟩ := ih (by omega) hmono
    refine ⟨by omega, hto, fun i _ hi' => ?_, hhigh⟩
    -- the condition holds of all that lies before a place it holds of
    rcases Nat.lt_trichotomy i middle with hlt' | rfl | hgt
    · exact hmono i middle hlt' (by omega) hbelow
    · exact hbelow
    · exact hlow i hgt hi'
  | case2 lo hi hlt middle hnot ih =>
    obtain ⟨hfrom, hto, hlow, hhigh⟩ := ih (by omega) fun i j hij hj => hmono i j hij (by omega)
    refine ⟨hfrom, by omega, hlow, fun i hi' hihi hbelow => ?_⟩
    rcases Nat.lt_trichotomy i middle with hlt' | rfl | hgt
    · exact hhigh i hi' hlt' hbelow
    · exact hnot hbelow
    · exact hnot (hmono middle i hgt hihi hbelow)
  | case3 lo hi hlt =>
    exact ⟨Nat.le_refl lo, hle, fun i hi' hilo => by omega, fun i hi' hihi => by omega⟩

end Aperture
