import Fsl.Compiler.LayoutEval
import Fsl.Lib.OptionLim

/-!
# What the layout functions return

With enough calls nested, the functions of a type return what `limCalls` says, or never return. For
`limCalls` the definitions of the functions are equations: a call of a function is its body.
-/

namespace Fsl.Layout

open OptionLim

/-- Each answer of `c` is one of `c'`. -/
structure Calls.Le (c c' : Calls) : Prop where
  thunk : ∀ {p f v}, c.thunk p f = some v → c'.thunk p f = some v
  arrayBits : ∀ {f k v}, c.arrayBits f k = some v → c'.arrayBits f k = some v

theorem evalArgs_eq_some {n : ℕ} {v : Fin n → Option UInt64} {w : Fin n → UInt64} :
    evalArgs v = some w ↔ ∀ i, v i = some (w i) := by
  rw [evalArgs]
  constructor
  · intro h i
    split at h
    case isTrue hsome =>
      cases h
      exact (Option.some_get (hsome i)).symm
    case isFalse => cases h
  · intro h
    have hsome : ∀ i, (v i).isSome := fun i => by rw [h i]; rfl
    rw [dif_pos hsome]
    refine congrArg some (funext fun i => ?_)
    simp [h i]

section Mono

variable {c c' : Calls} {d : Disk} {clo : Clo}

theorem Expr.eval_mono (h : c.Le c') {idx v : UInt64} {e : Expr}
    (hv : e.eval c d clo idx = some v) : e.eval c' d clo idx = some v := by
  induction e generalizing v with
  | num n => exact hv
  | argOff => exact hv
  | argIdx => exact hv
  | param i => exact hv
  | fromBase => exact hv
  | thunk p f => exact h.thunk hv
  | arrayBits f n ih =>
    obtain ⟨k, hk, hv⟩ := Option.bind_eq_some_iff.mp hv
    exact Option.bind_eq_some_iff.mpr ⟨k, ih hk, h.arrayBits hv⟩
  | fail => exact hv
  | add a b iha ihb =>
    obtain ⟨x, hx, hv⟩ := Option.bind_eq_some_iff.mp hv
    obtain ⟨y, hy, hv⟩ := Option.map_eq_some_iff.mp hv
    exact Option.bind_eq_some_iff.mpr ⟨x, iha hx, Option.map_eq_some_iff.mpr ⟨y, ihb hy, hv⟩⟩
  | sub a b iha ihb =>
    obtain ⟨x, hx, hv⟩ := Option.bind_eq_some_iff.mp hv
    obtain ⟨y, hy, hv⟩ := Option.map_eq_some_iff.mp hv
    exact Option.bind_eq_some_iff.mpr ⟨x, iha hx, Option.map_eq_some_iff.mpr ⟨y, ihb hy, hv⟩⟩
  | mul a b iha ihb =>
    obtain ⟨x, hx, hv⟩ := Option.bind_eq_some_iff.mp hv
    obtain ⟨y, hy, hv⟩ := Option.map_eq_some_iff.mp hv
    exact Option.bind_eq_some_iff.mpr ⟨x, iha hx, Option.map_eq_some_iff.mpr ⟨y, ihb hy, hv⟩⟩
  | call g args ih =>
    obtain ⟨w, hw, hv⟩ := Option.bind_eq_some_iff.mp hv
    exact Option.bind_eq_some_iff.mpr
      ⟨w, evalArgs_eq_some.mpr fun i => ih i (evalArgs_eq_some.mp hw i), hv⟩

theorem Cond.eval_mono (h : c.Le c') {b : Bool} {k : Cond} (hb : k.eval c d clo = some b) :
    k.eval c' d clo = some b := by
  induction k generalizing b with
  | test g args =>
    obtain ⟨w, hw, hv⟩ := Option.bind_eq_some_iff.mp hb
    exact Option.bind_eq_some_iff.mpr
      ⟨w, evalArgs_eq_some.mpr fun i => Expr.eval_mono h (evalArgs_eq_some.mp hw i), hv⟩
  | and a b iha ihb =>
    obtain ⟨x, hx, hv⟩ := Option.bind_eq_some_iff.mp hb
    refine Option.bind_eq_some_iff.mpr ⟨x, iha hx, ?_⟩
    cases x with
    | true => exact ihb hv
    | false => exact hv
  | or a b iha ihb =>
    obtain ⟨x, hx, hv⟩ := Option.bind_eq_some_iff.mp hb
    refine Option.bind_eq_some_iff.mpr ⟨x, iha hx, ?_⟩
    cases x with
    | true => exact hv
    | false => exact ihb hv
  | not a iha =>
    obtain ⟨x, hx, hv⟩ := Option.map_eq_some_iff.mp hb
    exact Option.map_eq_some_iff.mpr ⟨x, iha hx, hv⟩

theorem evalParams_mono (h : c.Le c') {idx : UInt64} {es : List Expr} {vs : List UInt64}
    (hv : evalParams c d clo idx es = some vs) : evalParams c' d clo idx es = some vs := by
  induction es generalizing vs with
  | nil => exact hv
  | cons e es ih =>
    obtain ⟨x, hx, hv⟩ := Option.bind_eq_some_iff.mp hv
    obtain ⟨y, hy, hv⟩ := Option.map_eq_some_iff.mp hv
    exact Option.bind_eq_some_iff.mpr
      ⟨x, Expr.eval_mono h hx, Option.map_eq_some_iff.mpr ⟨y, ih hy, hv⟩⟩

end Mono

/-! ## The limit of a chain of calls -/

section Chain

variable {C : ℕ → Calls} {d : Disk} {clo : Clo}

/-- The answers that come with enough fuel. -/
noncomputable def limCalls (C : ℕ → Calls) : Calls where
  thunk p f := lim fun n => (C n).thunk p f
  arrayBits f k := lim fun n => (C n).arrayBits f k

variable (hC : ∀ n, (C n).Le (C (n + 1)))

include hC

theorem stable_thunk (p : Part) (f : Name) : Stable fun n => (C n).thunk p f :=
  fun n _ h => (hC n).thunk h

theorem stable_arrayBits (f : Name) (k : UInt64) : Stable fun n => (C n).arrayBits f k :=
  fun n _ h => (hC n).arrayBits h

theorem stable_eval (idx : UInt64) (e : Expr) : Stable fun n => e.eval (C n) d clo idx :=
  fun n _ h => Expr.eval_mono (hC n) h

theorem stable_cond (k : Cond) : Stable fun n => k.eval (C n) d clo :=
  fun n _ h => Cond.eval_mono (hC n) h

theorem stable_params (idx : UInt64) (es : List Expr) :
    Stable fun n => evalParams (C n) d clo idx es :=
  fun n _ h => evalParams_mono (hC n) h

theorem stable_evalArgs {k : ℕ} (idx : UInt64) (args : Fin k → Expr) :
    Stable fun n => evalArgs fun i => (args i).eval (C n) d clo idx := by
  intro n w h
  exact evalArgs_eq_some.mpr fun i => Expr.eval_mono (hC n) (evalArgs_eq_some.mp h i)

theorem lim_evalArgs {k : ℕ} (idx : UInt64) (args : Fin k → Expr)
    (ih : ∀ i, lim (fun n => (args i).eval (C n) d clo idx) = (args i).eval (limCalls C) d clo idx) :
    lim (fun n => evalArgs fun i => (args i).eval (C n) d clo idx) =
      evalArgs fun i => (args i).eval (limCalls C) d clo idx := by
  refine Option.ext fun w => ?_
  rw [(stable_evalArgs hC idx args).lim_eq_some, evalArgs_eq_some]
  constructor
  · rintro ⟨n, h⟩ i
    rw [← ih i, (stable_eval hC idx (args i)).lim_eq_some]
    exact ⟨n, evalArgs_eq_some.mp h i⟩
  · intro h
    obtain ⟨n, hn⟩ := exists_common (fun i => stable_eval hC idx (args i)) fun i =>
      (stable_eval hC idx (args i)).lim_eq_some.mp ((ih i).trans (h i))
    exact ⟨n, evalArgs_eq_some.mpr hn⟩

theorem lim_eval (idx : UInt64) (e : Expr) :
    lim (fun n => e.eval (C n) d clo idx) = e.eval (limCalls C) d clo idx := by
  induction e with
  | num n => exact lim_const _
  | argOff => exact lim_const _
  | argIdx => exact lim_const _
  | param i => exact lim_const _
  | fromBase => exact lim_const _
  | thunk p f => rfl
  | arrayBits f n ih =>
    exact ((stable_eval hC idx n).lim_bind fun k => stable_arrayBits hC f k).trans (by rw [ih]; rfl)
  | fail => exact lim_const _
  | add a b iha ihb =>
    exact ((stable_eval hC idx a).lim_map₂ (· + ·) (stable_eval hC idx b)).trans (by rw [iha, ihb]; rfl)
  | sub a b iha ihb =>
    exact ((stable_eval hC idx a).lim_map₂ (· - ·) (stable_eval hC idx b)).trans (by rw [iha, ihb]; rfl)
  | mul a b iha ihb =>
    exact ((stable_eval hC idx a).lim_map₂ (· * ·) (stable_eval hC idx b)).trans (by rw [iha, ihb]; rfl)
  | call g args ih =>
    refine ((stable_evalArgs hC idx args).lim_bind fun w => stable_const (g d w)).trans ?_
    rw [lim_evalArgs hC idx args ih]
    simp only [lim_const]
    rfl

theorem lim_cond (k : Cond) : lim (fun n => k.eval (C n) d clo) = k.eval (limCalls C) d clo := by
  induction k with
  | test g args =>
    refine ((stable_evalArgs hC 0 args).lim_bind fun w => stable_const (g d w)).trans ?_
    rw [lim_evalArgs hC 0 args fun i => lim_eval hC 0 (args i)]
    simp only [lim_const]
    rfl
  | and a b iha ihb =>
    refine ((stable_cond hC a).lim_bind fun x => ?_).trans ?_
    · cases x with
      | true => exact stable_cond hC b
      | false => exact stable_const _
    · rw [iha]
      refine congrArg _ (funext fun x => ?_)
      cases x with
      | true => exact ihb
      | false => exact lim_const _
  | or a b iha ihb =>
    refine ((stable_cond hC a).lim_bind fun x => ?_).trans ?_
    · cases x with
      | true => exact stable_const _
      | false => exact stable_cond hC b
    · rw [iha]
      refine congrArg _ (funext fun x => ?_)
      cases x with
      | true => exact lim_const _
      | false => exact ihb
  | not a iha => exact ((stable_cond hC a).lim_map _).trans (by rw [iha]; rfl)

theorem lim_params (idx : UInt64) (es : List Expr) :
    lim (fun n => evalParams (C n) d clo idx es) = evalParams (limCalls C) d clo idx es := by
  induction es with
  | nil => exact lim_const _
  | cons e es ih =>
    exact ((stable_eval hC idx e).lim_map₂ (· :: ·) (stable_params hC idx es)).trans
      (by rw [lim_eval hC, ih]; rfl)

/-- A chain lies below its limit. -/
theorem le_limCalls (n : ℕ) : (C n).Le (limCalls C) where
  thunk h := (stable_thunk hC _ _).lim_eq_some.mpr ⟨n, h⟩
  arrayBits h := (stable_arrayBits hC _ _).lim_eq_some.mpr ⟨n, h⟩

end Chain

/-! ## The loop over an array -/

section Loop

variable {size size' : Clo → Option UInt64} {num : UInt64}

theorem arrayLoop_mono (hsize : ∀ c s, size c = some s → size' c = some s)
    {P P' : UInt64 → Option (List UInt64)} (h : ∀ i ps, P i = some ps → P' i = some ps)
    {m : ℕ} {i : UInt32} {cur : Clo} {total v : UInt64}
    (hv : arrayLoop size P num m i cur total = some v) :
    arrayLoop size' P' num m i cur total = some v := by
  induction m generalizing i cur total with
  | zero => cases hv
  | succ m ih =>
    rw [arrayLoop] at hv ⊢
    split at hv
    case isTrue hlt =>
      rw [if_pos hlt]
      obtain ⟨s, hs, hv⟩ := Option.bind_eq_some_iff.mp hv
      obtain ⟨ps, hps, hv⟩ := Option.bind_eq_some_iff.mp hv
      refine Option.bind_eq_some_iff.mpr
        ⟨s, hsize _ _ hs, Option.bind_eq_some_iff.mpr ⟨ps, ?_, ih hv⟩⟩
      by_cases hne : i.toUInt64 ≠ num - 1
      · rw [if_pos hne] at hps ⊢
        exact h _ _ hps
      · rwa [if_neg hne] at hps ⊢
    case isFalse hlt =>
      rw [if_neg hlt]
      exact hv

theorem arrayLoop_succ {P : UInt64 → Option (List UInt64)} {m : ℕ} {i : UInt32} {cur : Clo}
    {total v : UInt64} (hv : arrayLoop size P num m i cur total = some v) :
    arrayLoop size P num (m + 1) i cur total = some v := by
  induction m generalizing i cur total with
  | zero => cases hv
  | succ m ih =>
    rw [arrayLoop] at hv ⊢
    split at hv
    case isTrue hlt =>
      rw [if_pos hlt]
      obtain ⟨s, hs, hv⟩ := Option.bind_eq_some_iff.mp hv
      obtain ⟨ps, hps, hv⟩ := Option.bind_eq_some_iff.mp hv
      exact Option.bind_eq_some_iff.mpr ⟨s, hs, Option.bind_eq_some_iff.mpr ⟨ps, hps, ih hv⟩⟩
    case isFalse hlt =>
      rw [if_neg hlt]
      exact hv

theorem stable_arrayLoop (P : UInt64 → Option (List UInt64)) (i : UInt32) (cur : Clo)
    (total : UInt64) : Stable fun m => arrayLoop size P num m i cur total :=
  fun _ _ => arrayLoop_succ

/-- Parameters that come with enough fuel do for the loop, if it ends. -/
theorem exists_arrayLoop {P : ℕ → UInt64 → Option (List UInt64)} (hP : ∀ i, Stable fun n => P n i)
    {m : ℕ} {i : UInt32} {cur : Clo} {total v : UInt64}
    (hv : arrayLoop size (fun i => lim fun n => P n i) num m i cur total = some v) :
    ∃ n, arrayLoop size (P n) num n i cur total = some v := by
  induction m generalizing i cur total with
  | zero => cases hv
  | succ m ih =>
    rw [arrayLoop] at hv
    split at hv
    case isTrue hlt =>
      obtain ⟨s, hs, hv⟩ := Option.bind_eq_some_iff.mp hv
      obtain ⟨ps, hps, hv⟩ := Option.bind_eq_some_iff.mp hv
      obtain ⟨n₁, hn₁⟩ := ih hv
      obtain ⟨n₂, hn₂⟩ : ∃ n, (if i.toUInt64 ≠ num - 1 then P n (i + 1).toUInt64
          else some cur.params) = some ps := by
        by_cases hne : i.toUInt64 ≠ num - 1
        · rw [if_pos hne] at hps
          simp only [if_pos hne]
          exact (hP _).lim_eq_some.mp hps
        · rw [if_neg hne] at hps
          simp only [if_neg hne]
          exact ⟨0, hps⟩
      have hloop : arrayLoop size (P (max n₁ n₂ + 1)) num (max n₁ n₂) (i + 1)
          ⟨cur.offset + s, ps⟩ (total + s) = some v := by
        refine arrayLoop_mono (fun _ _ hs => hs) (fun j qs hj => ?_)
          ((stable_arrayLoop _ _ _ _).le (le_max_left n₁ n₂) hn₁)
        exact (hP j).le (le_trans (le_max_left n₁ n₂) (Nat.le_succ _)) hj
      refine ⟨max n₁ n₂ + 1, ?_⟩
      rw [arrayLoop, if_pos hlt]
      refine Option.bind_eq_some_iff.mpr ⟨s, hs, Option.bind_eq_some_iff.mpr ⟨ps, ?_, hloop⟩⟩
      by_cases hne : i.toUInt64 ≠ num - 1
      · rw [if_pos hne] at hn₂ ⊢
        exact (hP _).le (le_trans (le_max_right n₁ n₂) (Nat.le_succ _)) hn₂
      · rwa [if_neg hne] at hn₂ ⊢
    case isFalse hlt =>
      refine ⟨1, ?_⟩
      rw [arrayLoop, if_neg hlt]
      exact hv

theorem lim_arrayLoop {P : ℕ → UInt64 → Option (List UInt64)} (hP : ∀ i, Stable fun n => P n i)
    (i : UInt32) (cur : Clo) (total : UInt64) :
    lim (fun n => arrayLoop size (P n) num n i cur total) =
      lim fun m => arrayLoop size (fun i => lim fun n => P n i) num m i cur total := by
  refine Stable.lim_congr (fun n v h => ?_) (stable_arrayLoop _ _ _ _) fun v => ?_
  · exact arrayLoop_succ (arrayLoop_mono (fun _ _ hs => hs) (fun j _ hj => hP j n _ hj) h)
  · constructor
    · rintro ⟨n, h⟩
      exact ⟨n, arrayLoop_mono (fun _ _ hs => hs) (fun j _ hj => (hP j).lim_eq_some.mpr ⟨n, hj⟩) h⟩
    · rintro ⟨m, h⟩
      exact exists_arrayLoop hP h

/-- A counter of 32 bits never reaches the end of a longer array. -/
theorem arrayLoop_of_le (h : 2 ^ 32 ≤ num.toNat) (P : UInt64 → Option (List UInt64)) (m : ℕ)
    (i : UInt32) (cur : Clo) (total : UInt64) : arrayLoop size P num m i cur total = none := by
  induction m generalizing i cur total with
  | zero => rfl
  | succ m ih =>
    have hlt : i.toUInt64 < num := by
      rw [UInt64.lt_iff_toNat_lt, UInt32.toNat_toUInt64]
      exact lt_of_lt_of_le i.toNat_lt h
    rw [arrayLoop, if_pos hlt]
    simp [ih]

end Loop

/-! ## The functions of a type -/

section Thunks

variable {typesize : String → Clo → Option UInt64} {unionsize : ℕ → String → Clo → Option UInt64}
variable {d : Disk} {t : ThunkType} {clo : Clo}
variable (hu : ∀ u c, Stable fun n => unionsize n u c)

theorem firstElem_mono {c c' : Calls} (h : c.Le c') {tf : ThunkField} {first : Clo}
    (hv : firstElem d clo c tf = some first) : firstElem d clo c' tf = some first := by
  obtain ⟨off, hoff, hv⟩ := Option.bind_eq_some_iff.mp hv
  obtain ⟨ps, hps, hv⟩ := Option.map_eq_some_iff.mp hv
  exact Option.bind_eq_some_iff.mpr
    ⟨off, h.thunk hoff, Option.map_eq_some_iff.mpr ⟨ps, evalParams_mono h hps, hv⟩⟩

theorem Off.eval_mono {c c' : Calls} (h : c.Le c') {o : Off} {v : UInt64}
    (hv : o.eval d clo c = some v) : o.eval d clo c' = some v := by
  cases o with
  | raw e => exact Expr.eval_mono h hv
  | cond k t f =>
    obtain ⟨b, hb, hv⟩ := Option.bind_eq_some_iff.mp hv
    refine Option.bind_eq_some_iff.mpr ⟨b, Cond.eval_mono h hb, ?_⟩
    cases b with
    | true => exact Expr.eval_mono h hv
    | false => exact Expr.eval_mono h hv

theorem Size.ttSize_mono {usize usize' : ℕ → String → Clo → Option UInt64} {n m : ℕ}
    (husize : ∀ {u c v}, usize n u c = some v → usize' m u c = some v) {sz : Size}
    {size : Clo → Option UInt64} (h : sz.ttSize typesize usize n = some size) :
    ∃ size', sz.ttSize typesize usize' m = some size' ∧ ∀ c s, size c = some s → size' c = some s := by
  cases sz with
  | raw e => cases h
  | user ty =>
    cases h
    exact ⟨_, rfl, fun _ _ hs => hs⟩
  | union u =>
    cases h
    exact ⟨_, rfl, fun _ _ hs => husize hs⟩

/-- One more call nested, in a type that has at least the same functions. -/
theorem calls_step {t t' : ThunkType} {usize usize' : ℕ → String → Clo → Option UInt64} {n m : ℕ}
    (hnm : n ≤ m) (hfind : ∀ {f tf}, t.find f = some tf → t'.find f = some tf)
    (husize : ∀ {u c v}, usize n u c = some v → usize' m u c = some v)
    (ih : (calls typesize usize d t clo n).Le (calls typesize usize' d t' clo m)) :
    (calls typesize usize d t clo (n + 1)).Le (calls typesize usize' d t' clo (m + 1)) := by
  constructor
  · intro p f v h
    obtain ⟨tf, htf, h⟩ := Option.bind_eq_some_iff.mp h
    refine Option.bind_eq_some_iff.mpr ⟨tf, hfind htf, ?_⟩
    cases p with
    | off => exact Off.eval_mono ih h
    | elems => exact Expr.eval_mono ih h
    | size =>
      cases hsize : tf.size with
      | raw e =>
        simp only [hsize, Size.eval] at h ⊢
        exact Expr.eval_mono ih h
      | user ty =>
        simp only [hsize, Size.eval] at h ⊢
        obtain ⟨first, hfirst, h⟩ := Option.bind_eq_some_iff.mp h
        exact Option.bind_eq_some_iff.mpr ⟨first, firstElem_mono ih hfirst, h⟩
      | union u =>
        simp only [hsize, Size.eval] at h ⊢
        obtain ⟨first, hfirst, h⟩ := Option.bind_eq_some_iff.mp h
        exact Option.bind_eq_some_iff.mpr ⟨first, firstElem_mono ih hfirst, husize h⟩
  · intro f k v h
    obtain ⟨tf, htf, h⟩ := Option.bind_eq_some_iff.mp h
    refine Option.bind_eq_some_iff.mpr ⟨tf, hfind htf, ?_⟩
    obtain ⟨size, hsize, h⟩ := Option.bind_eq_some_iff.mp h
    obtain ⟨first, hfirst, h⟩ := Option.bind_eq_some_iff.mp h
    obtain ⟨size', hsize', hle⟩ := Size.ttSize_mono husize hsize
    refine Option.bind_eq_some_iff.mpr ⟨size', hsize', Option.bind_eq_some_iff.mpr
      ⟨first, firstElem_mono ih hfirst, (stable_arrayLoop _ _ _ _).le hnm ?_⟩⟩
    exact arrayLoop_mono hle (fun j ps hj => evalParams_mono ih hj) h

theorem calls_zero_le (usize : ℕ → String → Clo → Option UInt64) (c : Calls) :
    (calls typesize usize d t clo 0).Le c := by
  constructor
  · intro p f v h
    cases h
  · intro f k v h
    cases h

include hu in
/-- The functions with one more call nested. -/
theorem calls_le (n : ℕ) :
    (calls typesize unionsize d t clo n).Le (calls typesize unionsize d t clo (n + 1)) := by
  induction n with
  | zero => exact calls_zero_le _ _
  | succ n ih => exact calls_step (Nat.le_succ n) id (hu _ _ n _) ih

/-- A type with at least the same functions returns at least the same. -/
theorem calls_extend {t t' : ThunkType} {usize usize' : ℕ → String → Clo → Option UInt64}
    (hfind : ∀ {f tf}, t.find f = some tf → t'.find f = some tf)
    (husize : ∀ {n u c v}, usize n u c = some v → usize' n u c = some v) (n : ℕ) :
    (calls typesize usize d t clo n).Le (calls typesize usize' d t' clo n) := by
  induction n with
  | zero => exact calls_zero_le _ _
  | succ n ih => exact calls_step le_rfl hfind husize ih

section Chain

variable {C : ℕ → Calls} (hC : ∀ n, (C n).Le (C (n + 1)))

include hC

theorem lim_off (o : Off) : lim (fun n => o.eval d clo (C n)) = o.eval d clo (limCalls C) := by
  cases o with
  | raw e => exact lim_eval hC 0 e
  | cond k t f =>
    refine ((stable_cond hC k).lim_bind fun b => ?_).trans ?_
    · cases b with
      | true => exact stable_eval hC 0 t
      | false => exact stable_eval hC 0 f
    · rw [lim_cond hC k]
      refine congrArg _ (funext fun b => ?_)
      cases b with
      | true => exact lim_eval hC 0 t
      | false => exact lim_eval hC 0 f

theorem stable_firstElem (tf : ThunkField) : Stable fun n => firstElem d clo (C n) tf :=
  fun n _ h => firstElem_mono (hC n) h

theorem lim_firstElem (tf : ThunkField) :
    lim (fun n => firstElem d clo (C n) tf) = firstElem d clo (limCalls C) tf := by
  refine ((stable_thunk hC .off tf.name).lim_map₂ _ (stable_params hC 0 tf.params)).trans ?_
  rw [lim_params hC 0 tf.params]
  rfl

end Chain

/-- What the functions of the type return in the end. -/
noncomputable def result (typesize : String → Clo → Option UInt64)
    (unionsize : ℕ → String → Clo → Option UInt64) (d : Disk) (t : ThunkType) (clo : Clo) : Calls :=
  limCalls (calls typesize unionsize d t clo)

section Equations

variable {f : Name} {tf : ThunkField} (hf : t.find f = some tf)

include hu hf

/-- A call returns what the body of the function returns. -/
theorem result_thunk (p : Part) :
    (result typesize unionsize d t clo).thunk p f =
      lim fun n => match p with
        | .off => tf.off.eval d clo (calls typesize unionsize d t clo n)
        | .size => tf.size.eval typesize unionsize d clo n (calls typesize unionsize d t clo n) tf
        | .elems => tf.elems.eval (calls typesize unionsize d t clo n) d clo 0 := by
  refine (stable_thunk (calls_le hu) p f).lim_succ.symm.trans (congrArg lim (funext fun n => ?_))
  rw [calls]
  cases p <;> simp only [hf, Option.bind_some]

theorem result_off :
    (result typesize unionsize d t clo).thunk .off f =
      tf.off.eval d clo (result typesize unionsize d t clo) :=
  (result_thunk hu hf .off).trans (lim_off (calls_le hu) tf.off)

theorem result_elems :
    (result typesize unionsize d t clo).thunk .elems f =
      tf.elems.eval (result typesize unionsize d t clo) d clo 0 :=
  (result_thunk hu hf .elems).trans (lim_eval (calls_le hu) 0 tf.elems)

theorem result_size :
    (result typesize unionsize d t clo).thunk .size f =
      tf.size.eval typesize (fun _ u c => lim fun n => unionsize n u c) d clo 0
        (result typesize unionsize d t clo) tf := by
  refine (result_thunk hu hf .size).trans ?_
  cases hsize : tf.size with
  | raw e => exact lim_eval (calls_le hu) 0 e
  | user ty =>
    refine ((stable_firstElem (calls_le hu) tf).lim_bind fun c =>
      stable_const (typesize ty c)).trans ?_
    rw [lim_firstElem (calls_le hu)]
    simp only [lim_const]
    rfl
  | union u =>
    refine ((stable_firstElem (calls_le hu) tf).lim_bind fun c => hu u c).trans ?_
    rw [lim_firstElem (calls_le hu)]
    rfl

theorem result_arrayBits {ty : String} (hty : tf.size = .user ty) (num : UInt64) :
    (result typesize unionsize d t clo).arrayBits f num =
      (firstElem d clo (result typesize unionsize d t clo) tf).bind fun first =>
        lim fun m => arrayLoop (typesize ty)
          (fun i => evalParams (result typesize unionsize d t clo) d clo i tf.params) num m 0 first 0 := by
  have hparams : ∀ i, Stable fun n =>
      evalParams (calls typesize unionsize d t clo n) d clo i tf.params :=
    fun i => stable_params (calls_le hu) i tf.params
  have hstep : (result typesize unionsize d t clo).arrayBits f num =
      lim fun n => (firstElem d clo (calls typesize unionsize d t clo n) tf).bind fun first =>
        arrayLoop (typesize ty)
          (fun i => evalParams (calls typesize unionsize d t clo n) d clo i tf.params) num n 0 first 0 := by
    refine (stable_arrayBits (calls_le hu) f num).lim_succ.symm.trans
      (congrArg lim (funext fun n => ?_))
    rw [calls]
    simp only [hf, Option.bind_some, computeArrayBits, hty, Size.ttSize]
  rw [hstep]
  refine ((stable_firstElem (calls_le hu) tf).lim_bind fun first => ?_).trans ?_
  · intro n v h
    exact arrayLoop_succ (arrayLoop_mono (fun _ _ hs => hs) (fun j ps hj => hparams j n ps hj) h)
  · rw [lim_firstElem (calls_le hu)]
    refine congrArg _ (funext fun first => ?_)
    rw [lim_arrayLoop hparams]
    simp only [lim_params (calls_le hu)]
    rfl

end Equations

end Thunks

end Fsl.Layout
