import Mathlib

/-!
# Refinement between computations that may stop

`Refines I R x v` says that the stateful computation `x`, started in any state of the invariant
`I`, ends as the pure computation `v` does: with a value related to the value of `v` and again
in `I`, or with the same error. `Simulates P R x y` relates two stateful computations over
different states in the same way. The rules follow the structure of a `do` block.
-/

variable {σ τ ε α β γ δ : Type}

/-- Started in a state of `I`, `x` returns a value `R`-related to what `v` returns and ends in
`I`, or stops with the error that `v` stops with. -/
def Refines (I : σ → Prop) (R : α → β → Prop) (x : StateT σ (Except ε) α) (v : Except ε β) :
    Prop :=
  ∀ s, I s → match v with
    | .ok b => ∃ a s', x s = .ok (a, s') ∧ R a b ∧ I s'
    | .error e => x s = .error e

namespace Refines

variable {I : σ → Prop} {R : α → β → Prop} {S : γ → δ → Prop}

theorem pure {a : α} {b : β} (h : R a b) :
    Refines (ε := ε) I R (Pure.pure a) (.ok b) :=
  fun s hs => ⟨a, s, rfl, h, hs⟩

theorem throw (e : ε) : Refines I R (throw e) (.error e) := fun _ _ => rfl

/-- A computation that does not depend on the state. -/
theorem lift (v : Except ε α) : Refines I Eq (liftM v : StateT σ (Except ε) α) v := by
  intro s hs
  cases v with
  | ok a => exact ⟨a, s, rfl, rfl, hs⟩
  | error e => rfl

theorem bind {x : StateT σ (Except ε) α} {v : Except ε β} {f : α → StateT σ (Except ε) γ}
    {g : β → Except ε δ} (hx : Refines I R x v) (hf : ∀ a b, R a b → Refines I S (f a) (g b)) :
    Refines I S (x >>= f) (v >>= g) := by
  intro s hs
  have h := hx s hs
  cases v with
  | error e =>
    show (x s >>= fun p => f p.1 p.2) = .error e
    rw [h]
    rfl
  | ok b =>
    obtain ⟨a, s', hxs, hR, hs'⟩ := h
    have hrun : (x >>= f) s = f a s' := by
      show (x s >>= fun p => f p.1 p.2) = f a s'
      rw [hxs]
      rfl
    have hb : (Except.ok b >>= g : Except ε δ) = g b := rfl
    rw [hb, hrun]
    exact hf a b hR s' hs'

theorem ite {p : Prop} [Decidable p] {x y : StateT σ (Except ε) α} {v w : Except ε β}
    (hx : p → Refines I R x v) (hy : ¬ p → Refines I R y w) :
    Refines I R (if p then x else y) (if p then v else w) := by
  by_cases hp : p
  · rw [if_pos hp, if_pos hp]
    exact hx hp
  · rw [if_neg hp, if_neg hp]
    exact hy hp

/-- A refining run returns `a` exactly when the pure computation does. -/
theorem exists_run_iff {x : StateT σ (Except ε) α} {v : Except ε α} (h : Refines I Eq x v) {s : σ}
    (hs : I s) (a : α) : (∃ s', x s = .ok (a, s')) ↔ v = .ok a := by
  have hx := h s hs
  cases v with
  | error e =>
    change x s = .error e at hx
    simp [hx]
  | ok b =>
    obtain ⟨a', s', hxs, rfl, -⟩ := hx
    simp [hxs]

/-- A refining run stops with `e` exactly when the pure computation does. -/
theorem run_error_iff {x : StateT σ (Except ε) α} {v : Except ε β} (h : Refines I R x v) {s : σ}
    (hs : I s) (e : ε) : x s = .error e ↔ v = .error e := by
  have hx := h s hs
  cases v with
  | error e' =>
    change x s = .error e' at hx
    simp [hx]
  | ok b =>
    obtain ⟨a', s', hxs, -, -⟩ := hx
    simp [hxs]

/-- A refining run that returned ends in the invariant. -/
theorem run_inv {x : StateT σ (Except ε) α} {v : Except ε β} (h : Refines I R x v) {s s' : σ}
    (hs : I s) {a : α} (hr : x s = .ok (a, s')) : I s' := by
  have hx := h s hs
  cases v with
  | error e =>
    change x s = .error e at hx
    rw [hr] at hx
    cases hx
  | ok b =>
    obtain ⟨a', t, ht, -, hIt⟩ := hx
    rw [hr] at ht
    cases ht
    exact hIt

end Refines

/-- Started in `P`-related states, `x` ends as `y` does: with `R`-related values in `P`-related
states, or with the same error. -/
def Simulates (P : σ → τ → Prop) (R : α → β → Prop) (x : StateT σ (Except ε) α)
    (y : StateT τ (Except ε) β) : Prop :=
  ∀ s t, P s t → match y t with
    | .ok (b, t') => ∃ a s', x s = .ok (a, s') ∧ R a b ∧ P s' t'
    | .error e => x s = .error e

namespace Simulates

variable {P : σ → τ → Prop} {R : α → β → Prop} {S : γ → δ → Prop}

theorem bind {x : StateT σ (Except ε) α} {y : StateT τ (Except ε) β}
    {f : α → StateT σ (Except ε) γ} {g : β → StateT τ (Except ε) δ} (hx : Simulates P R x y)
    (hf : ∀ a b, R a b → Simulates P S (f a) (g b)) : Simulates P S (x >>= f) (y >>= g) := by
  intro s t hs
  have h := hx s t hs
  have hy : (y >>= g) t = y t >>= fun p => g p.1 p.2 := rfl
  have hxs : (x >>= f) s = x s >>= fun p => f p.1 p.2 := rfl
  rw [hy, hxs]
  cases hyt : y t with
  | error e =>
    rw [hyt] at h
    change x s = .error e at h
    rw [h]
    rfl
  | ok p =>
    obtain ⟨b, t'⟩ := p
    rw [hyt] at h
    obtain ⟨a, s', hxa, hR, hs'⟩ := h
    rw [hxa]
    exact hf a b hR s' t' hs'

/-- A computation that reads the state and returns a function of it. -/
theorem of_refines {x : StateT σ (Except ε) α} {v : τ → Except ε β}
    (h : ∀ t, Refines (fun s => P s t) R x (v t)) :
    Simulates P R x fun t => (v t).map fun b => (b, t) := by
  intro s t hs
  have hx := h t s hs
  cases hv : v t with
  | error e =>
    rw [hv] at hx
    simpa only [hv, Except.map] using hx
  | ok b =>
    rw [hv] at hx
    simpa only [hv, Except.map] using hx

theorem run_ok {x : StateT σ (Except ε) α} {y : StateT τ (Except ε) β} (h : Simulates P R x y)
    {s s' : σ} {t : τ} (hs : P s t) {a : α} (hr : x s = .ok (a, s')) :
    ∃ b t', y t = .ok (b, t') ∧ R a b ∧ P s' t' := by
  have hx := h s t hs
  cases hy : y t with
  | error e =>
    rw [hy] at hx
    change x s = .error e at hx
    rw [hr] at hx
    cases hx
  | ok p =>
    obtain ⟨b, t'⟩ := p
    rw [hy] at hx
    obtain ⟨a', s'', hxa, hR, hP⟩ := hx
    rw [hr] at hxa
    cases hxa
    exact ⟨b, t', rfl, hR, hP⟩

theorem ok_run {x : StateT σ (Except ε) α} {y : StateT τ (Except ε) β} (h : Simulates P R x y)
    {s : σ} {t t' : τ} (hs : P s t) {b : β} (hr : y t = .ok (b, t')) :
    ∃ a s', x s = .ok (a, s') ∧ R a b ∧ P s' t' := by
  have hx := h s t hs
  rw [hr] at hx
  exact hx

end Simulates
