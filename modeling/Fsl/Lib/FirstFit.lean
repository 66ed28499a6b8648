import Mathlib

/-!
# First fit

The first of the intervals of a given length all positions of which are free, and runs of positions,
by which a search for it goes on.
-/

namespace FirstFit

/-- The positions `i, i + 1, …`, at most `k` of them, up to the first one that fails `p`. -/
def run (p : ℕ → Bool) : ℕ → ℕ → ℕ
  | 0, _ => 0
  | k + 1, i => if p i then run p k (i + 1) + 1 else 0

/-- An interval of `m` positions of `p` from `c` on, between `lo` and `hi`. -/
structure Fits (p : ℕ → Bool) (m lo hi c : ℕ) : Prop where
  ge : lo ≤ c
  le : c + m ≤ hi
  all : ∀ i, c ≤ i → i < c + m → p i = true

/-- The first one. -/
def Least (p : ℕ → Bool) (m lo hi c : ℕ) : Prop :=
  Fits p m lo hi c ∧ ∀ c', Fits p m lo hi c' → c ≤ c'

variable {p q : ℕ → Bool} {m lo hi c i k n : ℕ}

theorem run_le (p : ℕ → Bool) (k i : ℕ) : run p k i ≤ k := by
  induction k generalizing i with
  | zero => exact le_rfl
  | succ k ih =>
    rw [run]
    split_ifs
    · exact Nat.add_le_add_right (ih _) 1
    · exact Nat.zero_le _

theorem run_le_count (p : ℕ → Bool) (k i : ℕ) :
    run p k i ≤ Nat.count (fun j => p (i + j) = true) k := by
  induction k generalizing i with
  | zero => exact le_rfl
  | succ k ih =>
    have hrest : run p k (i + 1) ≤ Nat.count (fun j => p (i + (j + 1)) = true) k := by
      refine (ih (i + 1)).trans (Nat.count_mono_left fun j _ hj => ?_)
      rwa [Nat.add_assoc, Nat.add_comm 1 j] at hj
    rw [run, Nat.count_succ']
    by_cases hp : p i = true
    · rw [if_pos hp, if_pos (show p (i + 0) = true from hp)]
      exact Nat.add_le_add_right hrest 1
    · rw [if_neg hp]
      exact Nat.zero_le _

theorem of_lt_run {j : ℕ} (h : j < run p k i) : p (i + j) = true := by
  induction k generalizing i j with
  | zero => exact absurd h (Nat.not_lt_zero j)
  | succ k ih =>
    rw [run] at h
    split_ifs at h with hp
    · cases j with
      | zero => exact hp
      | succ j =>
        have hj := ih (i := i + 1) (Nat.lt_of_succ_lt_succ h)
        rwa [Nat.add_right_comm, Nat.add_assoc] at hj
    · exact absurd h (Nat.not_lt_zero j)

/-- What ends a run. -/
theorem eq_false_of_run (h : run p k i < k) : p (i + run p k i) = false := by
  induction k generalizing i with
  | zero => exact absurd h (Nat.not_lt_zero _)
  | succ k ih =>
    rw [run] at h ⊢
    split_ifs at h ⊢ with hp
    · have hend := ih (i := i + 1) (Nat.lt_of_succ_lt_succ h)
      rwa [Nat.add_right_comm, Nat.add_assoc] at hend
    · exact Bool.eq_false_iff.mpr hp

theorem run_pos (h : p i = true) (hk : 0 < k) : 0 < run p k i := by
  obtain ⟨k, rfl⟩ := Nat.exists_eq_add_of_lt hk
  rw [Nat.zero_add, run, if_pos h]
  exact Nat.succ_pos _

/-- A run of `j` positions is followed by a run of the others. -/
theorem run_add (p : ℕ → Bool) (j k i : ℕ) :
    run p (j + k) i = if run p j i = j then j + run p k (i + j) else run p j i := by
  induction j generalizing i with
  | zero => rw [run, if_pos rfl, Nat.zero_add, Nat.zero_add, Nat.add_zero]
  | succ j ih =>
    rw [Nat.add_right_comm, run, run, ih, Nat.add_assoc i, Nat.add_comm 1 j]
    by_cases hp : p i = true
    · simp only [if_pos hp, Nat.add_right_cancel_iff]
      split_ifs <;> omega
    · simp only [if_neg hp]
      rw [if_neg (Nat.succ_ne_zero j).symm]

theorem run_congr {i' : ℕ} (h : ∀ j, j < k → p (i + j) = q (i' + j)) : run p k i = run q k i' := by
  induction k generalizing i i' with
  | zero => rfl
  | succ k ih =>
    have h0 : p i = q i' := h 0 (Nat.succ_pos k)
    have hrest : run p k (i + 1) = run q k (i' + 1) := ih fun j hj => by
      have hj' := h (j + 1) (Nat.succ_lt_succ hj)
      rwa [Nat.add_right_comm, Nat.add_right_comm i', Nat.add_assoc, Nat.add_assoc]
    rw [run, run, h0, hrest]

/-! ## Skipping runs -/

theorem Fits.mono {lo' : ℕ} (h : Fits p m lo' hi c) (hlo : lo ≤ lo') : Fits p m lo hi c :=
  ⟨hlo.trans h.ge, h.le, h.all⟩

/-- Nothing fits on positions that fail. -/
theorem fits_skip_false (hm : 0 < m) (h : ∀ j, j < n → p (lo + j) = false) :
    Fits p m lo hi c ↔ Fits p m (lo + n) hi c := by
  refine ⟨fun hfit => ⟨?_, hfit.le, hfit.all⟩, fun hfit => hfit.mono (Nat.le_add_right _ _)⟩
  by_contra hlt
  have hc := hfit.all c le_rfl (by omega)
  have hge := hfit.ge
  have hj := h (c - lo) (by omega)
  rw [Nat.add_sub_cancel' hge, hc] at hj
  cases hj

/-- Nothing fits in a run that is too short. -/
theorem fits_skip_short (hn : n < m) (hend : lo + n < hi → p (lo + n) = false) :
    Fits p m lo hi c ↔ Fits p m (lo + n) hi c := by
  refine ⟨fun hfit => ⟨?_, hfit.le, hfit.all⟩, fun hfit => hfit.mono (Nat.le_add_right _ _)⟩
  by_contra hlt
  have hge := hfit.ge
  have hle := hfit.le
  have hfree := hfit.all (lo + n) (by omega) (by omega)
  rw [hend (by omega)] at hfree
  cases hfree

theorem least_self (h : ∀ j, j < n → p (lo + j) = true) (hm : m ≤ n) (hle : lo + m ≤ hi) :
    Least p m lo hi lo := by
  refine ⟨⟨le_rfl, hle, fun i hge hlt => ?_⟩, fun c' hc' => hc'.ge⟩
  have hi := h (i - lo) (by omega)
  rwa [Nat.add_sub_cancel' hge] at hi

/-- Positions counted from `t` on. -/
theorem fits_add (t : ℕ) :
    Fits (fun i => p (t + i)) m lo hi c ↔ Fits p m (t + lo) (t + hi) (t + c) := by
  constructor
  · rintro ⟨hge, hle, hall⟩
    refine ⟨by omega, by omega, fun i hi hlt => ?_⟩
    have hfree := hall (i - t) (by omega) (by omega)
    rwa [Nat.add_sub_cancel' (by omega)] at hfree
  · rintro ⟨hge, hle, hall⟩
    exact ⟨by omega, by omega, fun i hi hlt => hall (t + i) (by omega) (by omega)⟩

theorem least_add (t : ℕ) (h : Least (fun i => p (t + i)) m lo hi c) :
    Least p m (t + lo) (t + hi) (t + c) := by
  refine ⟨(fits_add t).mp h.1, fun c' hc' => ?_⟩
  obtain ⟨d, rfl⟩ : ∃ d, c' = t + d := ⟨c' - t, by have := hc'.ge; omega⟩
  exact Nat.add_le_add_left (h.2 d ((fits_add t).mpr hc')) t

theorem least_congr {lo' : ℕ} (h : ∀ c, Fits p m lo hi c ↔ Fits p m lo' hi c) :
    Least p m lo hi c ↔ Least p m lo' hi c := by
  simp only [Least, h]

theorem Least.eq {c' : ℕ} (h : Least p m lo hi c) (h' : Least p m lo hi c') : c = c' :=
  le_antisymm (h.2 _ h'.1) (h'.2 _ h.1)

/-- Where something fits there is a first one. -/
theorem Fits.exists_least (h : Fits p m lo hi c) : ∃ c', Least p m lo hi c' ∧ c' ≤ c := by
  classical
  exact ⟨Nat.find ⟨c, h⟩, ⟨Nat.find_spec ⟨c, h⟩, fun _ hc => Nat.find_min' ⟨c, h⟩ hc⟩,
    Nat.find_min' ⟨c, h⟩ h⟩

end FirstFit
