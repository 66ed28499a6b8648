import Mathlib

/-!
# Orbits of a partial function

A walk follows a partial function. Among finitely many places it goes on for ever exactly if it comes
back to a place where it has been.
-/

namespace Orbit

variable {α : Type*} (next : α → Option α)

/-- The place of a walk from `a` after `n` steps, if it gets that far. -/
def place (a : α) : ℕ → Option α
  | 0 => some a
  | n + 1 => (place a n).bind next

/-- The walk ends. -/
def Halts (a : α) : Prop := ∃ n, place next a n = none

/-- The walk comes to a place a second time. -/
def Returns (a : α) : Prop := ∃ i j v, i < j ∧ place next a i = some v ∧ place next a j = some v

variable {next} {a : α}

theorem place_add (a : α) (m n : ℕ) :
    place next a (m + n) = (place next a m).bind fun b => place next b n := by
  induction n with
  | zero => cases place next a m <;> rfl
  | succ n ih =>
    rw [← Nat.add_assoc, place, ih, Option.bind_assoc]
    rfl

/-- A walk by its first step. -/
theorem place_succ (a : α) (n : ℕ) :
    place next a (n + 1) = (next a).bind fun b => place next b n := by
  rw [Nat.add_comm, place_add]
  rfl

theorem place_eq_none_of_le {m n : ℕ} (h : m ≤ n) (hm : place next a m = none) :
    place next a n = none := by
  obtain ⟨k, rfl⟩ := Nat.exists_eq_add_of_le h
  rw [place_add, hm]
  rfl

/-- A walk that has come back never ends. -/
theorem Returns.not_halts (h : Returns next a) : ¬ Halts next a := by
  obtain ⟨i, j, v, hij, hi, hj⟩ := h
  rintro ⟨n, hn⟩
  induction n using Nat.strongRecOn with
  | ind n ih =>
    by_cases hle : n ≤ j
    · have hnone := place_eq_none_of_le hle hn
      rw [hj] at hnone
      cases hnone
    · -- the part behind `j` has been walked before, from `i` on
      obtain ⟨k, rfl⟩ := Nat.exists_eq_add_of_le (not_le.mp hle).le
      refine ih (i + k) (by omega) ?_
      rw [place_add, hj] at hn
      rw [place_add, hi]
      exact hn

theorem halts_iff [Finite α] : Halts next a ↔ ¬ Returns next a := by
  constructor
  · intro h hret
    exact hret.not_halts h
  · intro hret
    by_contra hhalts
    have hsome : ∀ n, ∃ v, place next a n = some v := fun n =>
      Option.ne_none_iff_exists'.mp fun hn => hhalts ⟨n, hn⟩
    choose f hf using hsome
    refine not_injective_infinite_finite f fun i j hij => ?_
    by_contra hne
    rcases Nat.lt_or_gt_of_ne hne with hlt | hlt
    · exact hret ⟨i, j, f j, hlt, hij ▸ hf i, hf j⟩
    · exact hret ⟨j, i, f i, hlt, hij ▸ hf j, hf i⟩

end Orbit
