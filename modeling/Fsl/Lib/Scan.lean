import Mathlib

/-!
# Searches for a first hit

A search goes from place to place. At each place it finds what it looks for, goes on, gives up or gets
stuck; it may also go on forever. A result is one that stays however many turns are given.
-/

namespace Scan

variable {σ ε α : Type}

/-- What a search does at a place. -/
inductive Round (ε α : Type)
  | found (a : α)
  | next
  | stop
  | stuck (e : ε)

/-- The search from a place on; there is no value before it has ended. -/
def scan (round : σ → Round ε α) (next : σ → σ) : ℕ → σ → Except ε (Option (Option α))
  | 0, _ => .ok none
  | turns + 1, s =>
    match round s with
    | .found a => .ok (some (some a))
    | .next => scan round next turns (next s)
    | .stop => .ok (some none)
    | .stuck e => .error e

variable {round : σ → Round ε α} {next : σ → σ} {s : σ} {a : α}

/-- The search from `s` goes on for `t` places. -/
def Passes (round : σ → Round ε α) (next : σ → σ) (s : σ) (t : ℕ) : Prop :=
  ∀ u, u < t → round (next^[u] s) = .next

theorem Passes.tail {t : ℕ} (h : Passes round next s (t + 1)) : Passes round next (next s) t := by
  intro u hu
  have hu' := h (u + 1) (Nat.succ_lt_succ hu)
  rwa [Function.iterate_succ_apply] at hu'

theorem Passes.cons {t : ℕ} (hs : round s = .next) (h : Passes round next (next s) t) :
    Passes round next s (t + 1) := by
  intro u hu
  cases u with
  | zero => exact hs
  | succ u =>
    rw [Function.iterate_succ_apply]
    exact h u (Nat.lt_of_succ_lt_succ hu)

theorem scan_of_passes {t turns : ℕ} (h : Passes round next s t) (ht : t ≤ turns) :
    scan round next turns s = scan round next (turns - t) (next^[t] s) := by
  induction t generalizing s turns with
  | zero => rfl
  | succ t ih =>
    obtain ⟨k, rfl⟩ : ∃ k, turns = k + 1 := ⟨turns - 1, by omega⟩
    have hs : round s = .next := h 0 (Nat.succ_pos t)
    rw [scan, hs, Nat.add_sub_add_right, Function.iterate_succ_apply]
    exact ih h.tail (Nat.le_of_succ_le_succ ht)

/-- Enough turns find the first hit. -/
theorem scan_of_found {t turns : ℕ} (h : Passes round next s t) (ha : round (next^[t] s) = .found a)
    (ht : t < turns) : scan round next turns s = .ok (some (some a)) := by
  obtain ⟨k, hk⟩ : ∃ k, turns - t = k + 1 := ⟨turns - t - 1, by omega⟩
  rw [scan_of_passes h ht.le, hk, scan, ha]

/-- What was found was at the first place where the search did not go on. -/
theorem found_of_scan {turns : ℕ} (h : scan round next turns s = .ok (some (some a))) :
    ∃ t, Passes round next s t ∧ round (next^[t] s) = .found a := by
  induction turns generalizing s with
  | zero => cases h
  | succ turns ih =>
    rw [scan] at h
    cases hs : round s with
    | found b =>
      rw [hs] at h
      cases h
      exact ⟨0, fun u hu => absurd hu (Nat.not_lt_zero u), hs⟩
    | next =>
      rw [hs] at h
      obtain ⟨t, hpasses, hfound⟩ := ih h
      refine ⟨t + 1, hpasses.cons hs, ?_⟩
      rwa [Function.iterate_succ_apply]
    | stop =>
      rw [hs] at h
      cases h
    | stuck e =>
      rw [hs] at h
      cases h

/-- A search has one first hit. -/
theorem Passes.le_of_found {t t' : ℕ} (h : Passes round next s t) (ha : round (next^[t'] s) = .found a) :
    t ≤ t' := by
  by_contra hlt
  rw [h t' (Nat.lt_of_not_le hlt)] at ha
  cases ha

end Scan
