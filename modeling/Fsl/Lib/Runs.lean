import Mathlib

/-!
# Runs of a deterministic machine

A machine takes a step to another state, returns a value, or is stuck. `Steps` is any number of
steps, `Traced` keeps what was observed on the way, `run k` follows at most `k` steps for a returned
value.
-/

namespace Runs

variable {σ ρ : Type} {step : σ → Option (σ ⊕ ρ)}

/-- Any number of steps. -/
def Steps (step : σ → Option (σ ⊕ ρ)) : σ → σ → Prop :=
  Relation.ReflTransGen fun c c' => step c = some (.inl c')

/-- The value that is returned within `k` steps. -/
def run (step : σ → Option (σ ⊕ ρ)) : ℕ → σ → Option ρ
  | 0, _ => none
  | k + 1, c =>
    match step c with
    | some (.inl c') => run step k c'
    | some (.inr v) => some v
    | none => none

theorem Steps.refl (c : σ) : Steps step c c := Relation.ReflTransGen.refl

theorem Steps.trans {c₁ c₂ c₃ : σ} (h : Steps step c₁ c₂) (h' : Steps step c₂ c₃) :
    Steps step c₁ c₃ := Relation.ReflTransGen.trans h h'

theorem Steps.single {c c' : σ} (h : step c = some (.inl c')) : Steps step c c' :=
  Relation.ReflTransGen.single h

theorem Steps.head {c₁ c₂ c₃ : σ} (h : step c₁ = some (.inl c₂)) (h' : Steps step c₂ c₃) :
    Steps step c₁ c₃ := Relation.ReflTransGen.head h h'

theorem Steps.tail {c₁ c₂ c₃ : σ} (h : Steps step c₁ c₂) (h' : step c₂ = some (.inl c₃)) :
    Steps step c₁ c₃ := Relation.ReflTransGen.tail h h'

section Traced

variable {τ : Type} {obs : σ → Option τ} {c c' c'' : σ} {l l' : List τ}

/-- Any number of steps, and what is observed of the states that are left, in order. -/
inductive Traced (step : σ → Option (σ ⊕ ρ)) (obs : σ → Option τ) : σ → List τ → σ → Prop
  | refl (c : σ) : Traced step obs c [] c
  | tail {c c' c'' : σ} {l : List τ} : Traced step obs c l c' → step c' = some (.inl c'') →
      Traced step obs c (l ++ (obs c').toList) c''

theorem Traced.steps (h : Traced step obs c l c') : Steps step c c' := by
  induction h with
  | refl => exact Steps.refl _
  | tail _ hstep ih => exact ih.tail hstep

theorem Traced.trans (h : Traced step obs c l c') (h' : Traced step obs c' l' c'') :
    Traced step obs c (l ++ l') c'' := by
  induction h' with
  | refl =>
    rw [List.append_nil]
    exact h
  | tail _ hstep ih =>
    rw [← List.append_assoc]
    exact ih.tail hstep

/-- A step of which nothing is observed. -/
theorem Traced.silent (h : Traced step obs c l c') (hstep : step c' = some (.inl c''))
    (hobs : obs c' = none) : Traced step obs c l c'' := by
  have htail := h.tail hstep
  rwa [hobs, Option.toList_none, List.append_nil] at htail

end Traced

theorem run_inl {k : ℕ} {c c' : σ} (h : step c = some (.inl c')) :
    run step (k + 1) c = run step k c' := by
  rw [run, h]

theorem run_inr {k : ℕ} {c : σ} {v : ρ} (h : step c = some (.inr v)) :
    run step (k + 1) c = some v := by
  rw [run, h]

/-- A run that returns has taken a first step. -/
theorem exists_step {k : ℕ} {c : σ} {v : ρ} (h : run step k c = some v) :
    ∃ k', k = k' + 1 ∧ (step c = some (.inr v) ∨ ∃ c', step c = some (.inl c') ∧
      run step k' c' = some v) := by
  cases k with
  | zero => cases h
  | succ k =>
    refine ⟨k, rfl, ?_⟩
    rw [run] at h
    split at h
    next c' hc => exact Or.inr ⟨c', hc, h⟩
    next w hc =>
      cases h
      exact Or.inl hc
    next => cases h

theorem run_succ {k : ℕ} {c : σ} {v : ρ} (h : run step k c = some v) :
    run step (k + 1) c = some v := by
  induction k generalizing c with
  | zero => cases h
  | succ k ih =>
    obtain ⟨k', hk, hret | ⟨c', hc, hrun⟩⟩ := exists_step h
    · exact run_inr hret
    · cases hk
      rw [run_inl hc]
      exact ih hrun

theorem run_le {k k' : ℕ} (hk : k ≤ k') {c : σ} {v : ρ} (h : run step k c = some v) :
    run step k' c = some v := by
  induction hk with
  | refl => exact h
  | step _ ih => exact run_succ ih

theorem run_unique {k k' : ℕ} {c : σ} {v v' : ρ} (h : run step k c = some v)
    (h' : run step k' c = some v') : v = v' := by
  have hmax := run_le (le_max_left k k') h
  rw [run_le (le_max_right k k') h'] at hmax
  exact (Option.some.inj hmax).symm

/-- Steps that lead to a state from which a value is returned. -/
theorem Steps.exists_run {c c' : σ} (h : Steps step c c') {k : ℕ} {v : ρ}
    (hv : run step k c' = some v) : ∃ k', run step k' c = some v := by
  induction h using Relation.ReflTransGen.head_induction_on with
  | refl => exact ⟨k, hv⟩
  | head hstep _ ih =>
    obtain ⟨k', hk'⟩ := ih
    exact ⟨k' + 1, by rw [run_inl hstep, hk']⟩

/-- A run that returns goes through the states on its way. -/
theorem Steps.run_rest {c c' : σ} (h : Steps step c c') {k : ℕ} {v : ρ}
    (hv : run step k c = some v) : ∃ k' ≤ k, run step k' c' = some v := by
  induction h using Relation.ReflTransGen.head_induction_on generalizing k with
  | refl => exact ⟨k, le_rfl, hv⟩
  | head hstep _ ih =>
    obtain ⟨k', rfl, hret | ⟨c₁, hc₁, hrun⟩⟩ := exists_step hv
    · rw [hret] at hstep
      cases hstep
    · rw [hc₁] at hstep
      cases hstep
      obtain ⟨k'', hle, hk''⟩ := ih hrun
      exact ⟨k'', hle.trans (Nat.le_succ k'), hk''⟩

end Runs
