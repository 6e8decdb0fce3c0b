import Aperture.Refusal

namespace Aperture

/-- How much storage there is for lists. -/
structure Storage where
  /-- The most elements that a list can be grown to. -/
  limit : Nat
  /-- An element takes 16 bytes, and memory has addresses of 48 bits. -/
  bounded : 16 * limit ≤ 0x1000000000000

namespace Storage

def ample : Storage := ⟨0x10000000000, by decide⟩

def ask (s : Storage) (n : Nat) : Except Refusal Unit :=
  if s.limit < n then .error .outOfMemory else .ok ()

/-- What `n` elements of a list leave for the others. -/
def beside (s : Storage) (n : Nat) : Storage :=
  ⟨s.limit - n, by have := s.bounded; omega⟩

def push {α : Type} (s : Storage) (xs : List α) (x : α) : Except Refusal (List α) := do
  s.ask (xs.length + 1)
  return xs ++ [x]

theorem ask_eq_ok_iff {s : Storage} {n : Nat} : s.ask n = .ok () ↔ n ≤ s.limit := by
  unfold ask
  split <;> simp <;> omega

theorem push_of_le {α : Type} {s : Storage} {xs : List α} (h : s.limit ≤ xs.length) (x : α) :
    s.push xs x = .error .outOfMemory := by
  rw [push, ask, if_pos (Nat.lt_succ_of_le h)]
  rfl

theorem push_of_lt {α : Type} {s : Storage} {xs : List α} (h : xs.length < s.limit) (x : α) :
    s.push xs x = .ok (xs ++ [x]) := by
  rw [push, ask, if_neg (Nat.not_lt_of_le h)]
  rfl

end Storage

end Aperture
