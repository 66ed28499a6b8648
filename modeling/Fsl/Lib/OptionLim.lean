import Mathlib

/-!
# Results of a computation with fuel

A computation with fuel is a function `ℕ → Option α` that keeps a value once it has one
(`Stable`). Its limit `lim f` is that value, or `none` if there is none with any fuel. The limit
goes through the ways such computations are put together.
-/

namespace OptionLim

variable {α β : Type}

/-- More fuel keeps a value. -/
def Stable (f : ℕ → Option α) : Prop := ∀ n v, f n = some v → f (n + 1) = some v

open Classical in
/-- The value that enough fuel gives. -/
noncomputable def lim (f : ℕ → Option α) : Option α :=
  if h : ∃ n v, f n = some v then some h.choose_spec.choose else none

theorem Stable.le {f : ℕ → Option α} (hf : Stable f) {n m : ℕ} (hnm : n ≤ m) {v : α}
    (h : f n = some v) : f m = some v := by
  induction hnm with
  | refl => exact h
  | step _ ih => exact hf _ _ ih

theorem Stable.unique {f : ℕ → Option α} (hf : Stable f) {n m : ℕ} {v w : α} (hv : f n = some v)
    (hw : f m = some w) : v = w := by
  have hv' := hf.le (le_max_left n m) hv
  rw [hf.le (le_max_right n m) hw] at hv'
  exact (Option.some.inj hv').symm

theorem Stable.lim_eq_some {f : ℕ → Option α} (hf : Stable f) {v : α} :
    lim f = some v ↔ ∃ n, f n = some v := by
  constructor
  · intro h
    rw [lim] at h
    split at h
    case isTrue hex =>
      cases h
      exact ⟨hex.choose, hex.choose_spec.choose_spec⟩
    case isFalse => cases h
  · rintro ⟨n, h⟩
    have hex : ∃ n v, f n = some v := ⟨n, v, h⟩
    rw [lim, dif_pos hex]
    exact congrArg some (hf.unique hex.choose_spec.choose_spec h)

theorem lim_eq_none {f : ℕ → Option α} : lim f = none ↔ ∀ n, f n = none := by
  constructor
  · intro h n
    rw [lim] at h
    split at h
    case isTrue => cases h
    case isFalse hex =>
      cases hn : f n with
      | none => rfl
      | some v => exact absurd ⟨n, v, hn⟩ hex
  · intro h
    refine dif_neg ?_
    rintro ⟨n, v, hn⟩
    rw [h n] at hn
    cases hn

/-- Two stable computations with the same values have the same limit. -/
theorem Stable.lim_congr {f g : ℕ → Option α} (hf : Stable f) (hg : Stable g)
    (h : ∀ v, (∃ n, f n = some v) ↔ ∃ n, g n = some v) : lim f = lim g := by
  refine Option.ext fun v => ?_
  rw [hf.lim_eq_some, hg.lim_eq_some]
  exact h v

theorem stable_const (o : Option α) : Stable fun _ => o := fun _ _ h => h

theorem lim_const (o : Option α) : lim (fun _ => o) = o := by
  refine Option.ext fun v => ?_
  rw [(stable_const o).lim_eq_some]
  exact ⟨fun ⟨_, h⟩ => h, fun h => ⟨0, h⟩⟩

theorem Stable.lim_succ {f : ℕ → Option α} (hf : Stable f) : lim (fun n => f (n + 1)) = lim f := by
  have hf' : Stable fun n => f (n + 1) := fun n v h => hf (n + 1) v h
  refine hf'.lim_congr hf fun v => ⟨fun ⟨n, h⟩ => ⟨n + 1, h⟩, fun ⟨n, h⟩ => ⟨n, hf n v h⟩⟩

theorem Stable.bind {f : ℕ → Option α} {g : ℕ → α → Option β} (hf : Stable f)
    (hg : ∀ a, Stable fun n => g n a) : Stable fun n => (f n).bind (g n) := by
  intro n v h
  obtain ⟨a, ha, hv⟩ := Option.bind_eq_some_iff.mp h
  exact Option.bind_eq_some_iff.mpr ⟨a, hf n a ha, hg a n v hv⟩

theorem Stable.lim_bind {f : ℕ → Option α} {g : ℕ → α → Option β} (hf : Stable f)
    (hg : ∀ a, Stable fun n => g n a) :
    lim (fun n => (f n).bind (g n)) = (lim f).bind fun a => lim fun n => g n a := by
  refine Option.ext fun v => ?_
  rw [(hf.bind hg).lim_eq_some, Option.bind_eq_some_iff]
  constructor
  · rintro ⟨n, h⟩
    obtain ⟨a, ha, hv⟩ := Option.bind_eq_some_iff.mp h
    exact ⟨a, hf.lim_eq_some.mpr ⟨n, ha⟩, (hg a).lim_eq_some.mpr ⟨n, hv⟩⟩
  · rintro ⟨a, ha, hv⟩
    obtain ⟨n, hn⟩ := hf.lim_eq_some.mp ha
    obtain ⟨m, hm⟩ := (hg a).lim_eq_some.mp hv
    refine ⟨max n m, Option.bind_eq_some_iff.mpr ⟨a, hf.le (le_max_left n m) hn, ?_⟩⟩
    exact (hg a).le (le_max_right n m) hm

theorem Stable.map {f : ℕ → Option α} (g : α → β) (hf : Stable f) :
    Stable fun n => (f n).map g := by
  intro n v h
  obtain ⟨a, ha, hv⟩ := Option.map_eq_some_iff.mp h
  exact Option.map_eq_some_iff.mpr ⟨a, hf n a ha, hv⟩

theorem Stable.lim_map {f : ℕ → Option α} (g : α → β) (hf : Stable f) :
    lim (fun n => (f n).map g) = (lim f).map g := by
  refine Option.ext fun v => ?_
  rw [(hf.map g).lim_eq_some, Option.map_eq_some_iff]
  constructor
  · rintro ⟨n, h⟩
    obtain ⟨a, ha, hv⟩ := Option.map_eq_some_iff.mp h
    exact ⟨a, hf.lim_eq_some.mpr ⟨n, ha⟩, hv⟩
  · rintro ⟨a, ha, hv⟩
    obtain ⟨n, hn⟩ := hf.lim_eq_some.mp ha
    exact ⟨n, Option.map_eq_some_iff.mpr ⟨a, hn, hv⟩⟩

theorem Stable.lim_map₂ {γ : Type} {f : ℕ → Option α} {g : ℕ → Option β} (op : α → β → γ)
    (hf : Stable f) (hg : Stable g) :
    lim (fun n => (f n).bind fun x => (g n).map (op x)) =
      (lim f).bind fun x => (lim g).map (op x) := by
  rw [hf.lim_bind fun x => hg.map (op x)]
  exact congrArg _ (funext fun x => hg.lim_map (op x))

/-- Finitely many stable computations have their values with one fuel. -/
theorem exists_common {k : ℕ} {f : Fin k → ℕ → Option α} (hf : ∀ i, Stable (f i)) {v : Fin k → α}
    (h : ∀ i, ∃ n, f i n = some (v i)) : ∃ n, ∀ i, f i n = some (v i) := by
  choose n hn using h
  exact ⟨Finset.univ.sup n, fun i => (hf i).le (Finset.le_sup (Finset.mem_univ i)) (hn i)⟩

end OptionLim
