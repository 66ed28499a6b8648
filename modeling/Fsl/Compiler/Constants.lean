import Fsl.Compiler.ExprFix
import Mathlib.Logic.Relation
import Mathlib.Data.List.Sort

/-!
# Constants

`simplify_constants` puts constants into the definitions of constants, in place and one after the other,
until a pass changes nothing. Then no definition refers to a constant, unless some are defined by nothing
but each other's names: `a = a` is not changed by a pass either.
-/

namespace Fsl.Ast

open Parse Relation

/-! ## The map -/

/-- `constants` -/
structure Consts where
  keys : List String
  val : String → Option Expr
  mem_keys : ∀ s, s ∈ keys ↔ val s ≠ none

/-- `constants[s] = e` -/
def Consts.assign (c : Consts) (s : String) (e : Expr) : Consts where
  keys := if s ∈ c.keys then c.keys else c.keys.orderedInsert (· ≤ ·) s
  val := Function.update c.val s (some e)
  mem_keys := by
    intro t
    have hkeys : t ∈ (if s ∈ c.keys then c.keys else c.keys.orderedInsert (· ≤ ·) s) ↔
        t = s ∨ t ∈ c.keys := by
      split
      case isTrue hs => exact ⟨.inr, fun h => h.elim (fun ht => ht ▸ hs) id⟩
      case isFalse => exact List.mem_orderedInsert _
    rw [hkeys, c.mem_keys]
    by_cases ht : t = s
    · subst ht
      simp only [Function.update_self, true_or, ne_eq, reduceCtorEq, not_false_eq_true]
    · simp only [Function.update_of_ne ht, ht, false_or]

/-- A statement that defines constants: a `ConstVar`, or an `Enum` with the numbers of its entries. -/
inductive ConstDef
  | constVar (name : String) (expr : Expr)
  | enum (ents : List (String × Option UInt64))

/-- `load_constants`, of one statement. -/
def loadConst (n : ℕ) (c : Consts) : ConstDef → Option Consts
  | .constVar s e => (e.copy n).map (c.assign s)
  | .enum _ => some c

/-- The entries of an `Enum`. The constructor that is used for an entry without a number leaves `num`
unset, and `load_enums` reads it: what happens then is not defined. -/
def loadEnts : List (String × Option UInt64) → Consts → Option Consts
  | [], c => some c
  | (_, none) :: _, _ => none
  | (s, some num) :: ents, c => loadEnts ents (c.assign s (.number num))

/-- `load_enums`, of one statement. -/
def loadEnum (c : Consts) : ConstDef → Option Consts
  | .constVar _ _ => some c
  | .enum ents => loadEnts ents c

/-- The map before there are statements. -/
def noConsts : Consts where
  keys := []
  val := fun _ => none
  mem_keys := by
    intro s
    simp only [List.not_mem_nil, ne_eq, not_true_eq_false]

/-- `load_constants` and `load_enums`. -/
def load (n : ℕ) (gb : List ConstDef) : Option Consts :=
  (gb.foldlM (loadConst n)
    ((noConsts.assign "true" (.boolean true)).assign "false" (.boolean false))).bind
      fun c => gb.foldlM loadEnum c

/-! ## Passes -/

/-- `apply_consts_to_consts`, of one constant, and whether it is updated. -/
def Consts.applyTo (n : ℕ) (c : Consts) (s : String) : Option (Consts × Bool) :=
  match c.val s with
  | none => some (c, false)
  | some e => (e.copy n).bind fun old => (e.apply c.val n).map fun new =>
      if old.eq new then (c, false) else (c.assign s new, true)

/-- `apply_consts_to_consts`, of some constants. -/
def Consts.applyAll (n : ℕ) : List String → Consts → Option (Consts × Bool)
  | [], c => some (c, false)
  | s :: ss, c => (c.applyTo n s).bind fun p => (applyAll n ss p.1).map fun q => (q.1, p.2 || q.2)

/-- `simplify_constants` with a number of passes left. At the end an assertion fails. -/
def simplifyConstants (n : ℕ) : ℕ → Consts → Option Consts
  | 0, _ => none
  | k + 1, c => (c.applyAll n c.keys).bind fun p =>
      if p.2 then simplifyConstants n k p.1 else some p.1

/-- `MAX_PASSES` -/
def maxPasses : ℕ := 100

/-! ## What the definitions say -/

/-- Values for the names that agree with the definitions. -/
def Consts.Solves (c : Consts) (env : Env) (ρ : String → Option UInt64) : Prop :=
  (∀ s, c.val s = none → ρ s = env.id s) ∧
    ∀ s e, c.val s = some e → ρ s = e.eval { env with id := ρ }

/-- The definition of `x` refers to the constant `y`. -/
def Consts.Refers (c : Consts) (x y : String) : Prop :=
  ∃ e, c.val x = some e ∧ y ∈ c.keys ∧ ∃ q ∈ e.names, q.1 ≠ .head ∧ q.2 = y

/-- The definition of `x` is the name of the constant `y`. -/
def Consts.Bare (c : Consts) (x y : String) : Prop :=
  c.val x = some (.id y) ∧ y ∈ c.keys

/-- `S` defines the constants of `D`, and mentions none of them. The definitions of `D` do not go round
in a circle; together they have one solution, and that is what `S` has as values. -/
structure Consts.Resolves (D S : Consts) : Prop where
  keys : S.keys = D.keys
  mentions : ∀ x e, S.val x = some e → ∀ q ∈ e.names, q.2 ∉ D.keys
  acyclic : ∀ x, ¬ TransGen D.Refers x x
  values : ∀ env, ∃ ρ, (∀ ρ', D.Solves env ρ' ↔ ρ' = ρ) ∧ ∀ x e, S.val x = some e → e.eval env = ρ x

/-! ## One replacement -/

/-- One definition is replaced by what the visitor makes of it. -/
def Consts.Step (c c' : Consts) : Prop :=
  ∃ x e new, c.val x = some e ∧ new.norm = (e.inject c.val).norm ∧ c'.keys = c.keys ∧
    c'.val = Function.update c.val x (some new)

namespace Consts

variable {n : ℕ} {D c c' : Consts}

theorem mem_of_val {x : String} {e : Expr} (h : c.val x = some e) : x ∈ c.keys := by
  rw [c.mem_keys, h]
  exact Option.some_ne_none e

theorem exists_val {x : String} (h : x ∈ c.keys) : ∃ e, c.val x = some e :=
  Option.ne_none_iff_exists'.mp ((c.mem_keys x).mp h)

/-- A name that is no constant stands for itself. -/
theorem getD_of_not_mem {x : String} (h : x ∉ c.keys) : (c.val x).getD (.id x) = .id x := by
  rw [c.mem_keys, not_not] at h
  rw [h, Option.getD_none]

/-- What is made of one constant. If it is not updated it is a fixed point. -/
theorem applyTo_spec {s : String} {b : Bool} (h : c.applyTo n s = some (c', b)) :
    (c' = c ∨ c.Step c') ∧ (b = false → c' = c ∧ ∀ e, c.val s = some e → e.Plain →
      (e.inject c.val).norm = e.norm) := by
  rw [applyTo] at h
  split at h
  case h_1 hs =>
    obtain ⟨rfl, rfl⟩ := Prod.mk.inj (Option.some.inj h)
    exact ⟨.inl rfl, fun _ => ⟨rfl, fun e he => absurd (hs.symm.trans he) (Option.some_ne_none e).symm⟩⟩
  case h_2 e hs =>
    obtain ⟨old, hold, h⟩ := Option.bind_eq_some_iff.mp h
    obtain ⟨new, hnew, h⟩ := Option.map_eq_some_iff.mp h
    have hnorm : new.norm = (e.inject c.val).norm := Expr.norm_applyWith norm_argWith hnew
    split at h
    case isTrue heq =>
      obtain ⟨rfl, rfl⟩ := Prod.mk.inj h
      refine ⟨.inl rfl, fun _ => ⟨rfl, fun d hd hplain => ?_⟩⟩
      obtain rfl := Option.some.inj (hs.symm.trans hd)
      have hold' : old.norm = e.norm := Expr.norm_copy hold
      rw [← hnorm, ← hold', Expr.norm_of_eq (Expr.plain_of_norm hold' hplain) heq]
    case isFalse =>
      obtain ⟨rfl, rfl⟩ := Prod.mk.inj h
      refine ⟨.inr ⟨s, e, new, hs, hnorm, ?_, rfl⟩, fun hb => absurd hb Bool.true_eq_false.mp⟩
      exact if_pos (mem_of_val hs)

theorem applyAll_spec : ∀ {ss : List String} {c c' : Consts} {b : Bool},
    applyAll n ss c = some (c', b) → ReflTransGen Step c c' ∧ (b = false → c' = c ∧
      ∀ s ∈ ss, ∀ e, c.val s = some e → e.Plain → (e.inject c.val).norm = e.norm)
  | [], _, _, _, h => by
    obtain ⟨rfl, rfl⟩ := Prod.mk.inj (Option.some.inj h)
    exact ⟨.refl, fun _ => ⟨rfl, fun s hs => absurd hs List.not_mem_nil⟩⟩
  | s :: ss, c, c', b, h => by
    obtain ⟨⟨d, b₁⟩, hs, h⟩ := Option.bind_eq_some_iff.mp h
    obtain ⟨⟨d', b₂⟩, hss, heq⟩ := Option.map_eq_some_iff.mp h
    obtain ⟨rfl, rfl⟩ := Prod.mk.inj heq
    obtain ⟨hstep, hfixed⟩ := applyTo_spec hs
    obtain ⟨hsteps, hfixeds⟩ := applyAll_spec hss
    constructor
    · obtain rfl | hstep := hstep
      · exact hsteps
      · exact .head hstep hsteps
    · intro hb
      obtain ⟨hb₁, hb₂⟩ := Bool.or_eq_false_iff.mp hb
      obtain ⟨rfl, hfix⟩ := hfixed hb₁
      obtain ⟨rfl, hfixs⟩ := hfixeds hb₂
      refine ⟨rfl, fun t ht => ?_⟩
      obtain rfl | ht := List.mem_cons.mp ht
      · exact hfix
      · exact hfixs t ht

/-- A fixed point: no definition is changed but for folding. -/
def Fixed (c : Consts) : Prop :=
  ∀ s e, c.val s = some e → e.Plain → (e.inject c.val).norm = e.norm

theorem simplifyConstants_spec : ∀ {k : ℕ} {c c' : Consts}, simplifyConstants n k c = some c' →
    ReflTransGen Step c c' ∧ c'.Fixed
  | 0, _, _, h => by cases h
  | k + 1, c, c', h => by
    obtain ⟨⟨d, b⟩, hd, h⟩ := Option.bind_eq_some_iff.mp h
    obtain ⟨hsteps, hfixed⟩ := applyAll_spec hd
    cases b with
    | true =>
      obtain ⟨hsteps', hfixed'⟩ := simplifyConstants_spec h
      exact ⟨hsteps.trans hsteps', hfixed'⟩
    | false =>
      obtain rfl := Option.some.inj h
      obtain ⟨rfl, hfix⟩ := hfixed rfl
      exact ⟨hsteps, fun s e he => hfix s (mem_of_val he) e he⟩

/-! ## What replacements keep -/

/-- The definition of one constant, after a replacement. -/
theorem Step.cases {s : String} {d : Expr} (h : c.Step c') (hd : c'.val s = some d) :
    c.val s = some d ∨ ∃ e, c.val s = some e ∧ d.norm = (e.inject c.val).norm := by
  obtain ⟨x, e, new, he, hnorm, -, hval⟩ := h
  rw [hval] at hd
  by_cases hs : s = x
  · subst hs
    rw [Function.update_self] at hd
    obtain rfl := Option.some.inj hd
    exact .inr ⟨e, he, hnorm⟩
  · rw [Function.update_of_ne hs] at hd
    exact .inl hd

theorem Step.keys (h : c.Step c') : c'.keys = c.keys := by
  obtain ⟨-, -, -, -, -, hkeys, -⟩ := h
  exact hkeys

theorem keys_of_steps (h : ReflTransGen Step D c) : c.keys = D.keys := by
  induction h with
  | refl => rfl
  | tail _ hstep ih => exact hstep.keys.trans ih

/-- All definitions are as the parser builds them. -/
def Plain (c : Consts) : Prop := ∀ s e, c.val s = some e → e.Plain

theorem plain_of_steps (hD : D.Plain) (h : ReflTransGen Step D c) : c.Plain := by
  induction h with
  | refl => exact hD
  | tail _ hstep ih =>
    intro s d hd
    obtain hd | ⟨e, he, hnorm⟩ := hstep.cases hd
    · exact ih s d hd
    · exact Expr.plain_of_norm hnorm (Expr.plain_inject ih (ih s e he))

/-- A definition by a constant's name comes from a chain of such definitions. -/
theorem bare_of_steps (h : ReflTransGen Step D c) {x z : String} (hx : c.Bare x z) :
    TransGen D.Bare x z := by
  induction h generalizing x z with
  | refl => exact .single hx
  | @tail c c' hsteps hstep ih =>
    obtain ⟨hval, hz⟩ := hx
    rw [hstep.keys] at hz
    obtain hval | ⟨e, he, hnorm⟩ := hstep.cases hval
    · exact ih ⟨hval, hz⟩
    · obtain ⟨y, rfl, hyz⟩ := inject_eq_id hnorm.symm
      have hy : y ∈ c.keys := by
        by_contra hy
        rw [getD_of_not_mem hy] at hyz
        exact hy (Expr.id.inj hyz ▸ hz)
      obtain ⟨d, hd⟩ := exists_val hy
      rw [hd, Option.getD_some] at hyz
      subst hyz
      exact (ih ⟨he, hy⟩).trans (ih ⟨hd, hz⟩)

/-! ## Names -/

/-- The visitor gets to the constant `y` in the definition of `x`. -/
def Sees (c : Consts) (x y : String) : Prop :=
  ∃ e, c.val x = some e ∧ y ∈ c.keys ∧ (.seen, y) ∈ e.names

/-- No constant is named where the visitor does not get to. -/
def NoneLeft (c : Consts) : Prop :=
  ∀ x e, c.val x = some e → ∀ q ∈ e.names, q.1 ≠ .seen → q.2 ∉ c.keys

/-- A definition by the name of a constant refers to it. -/
theorem Bare.refers {x y : String} (h : c.Bare x y) : c.Refers x y :=
  ⟨.id y, h.1, h.2, (.seen, y), List.mem_singleton_self _, Place.noConfusion, rfl⟩

theorem NoneLeft.sees (h : c.NoneLeft) {x y : String} (hxy : c.Refers x y) : c.Sees x y := by
  obtain ⟨e, he, hy, ⟨pl, y⟩, hq, -, rfl⟩ := hxy
  have hpl : pl = .seen := by
    by_contra hpl
    exact h x e he _ hq hpl hy
  exact ⟨e, he, hy, hpl ▸ hq⟩

theorem Step.names {s : String} {d : Expr} (h : c.Step c') (hd : c'.val s = some d) :
    ∃ e, c.val s = some e ∧ (d.names = e.names ∨ d.names = (e.inject c.val).names) := by
  obtain hd | ⟨e, he, hnorm⟩ := h.cases hd
  · exact ⟨d, hd, .inl rfl⟩
  · exact ⟨e, he, .inr (Expr.names_of_norm hnorm)⟩

/-- A name that the visitor does not get to stays. -/
theorem left_of_steps (h : ReflTransGen Step D c) {s : String} {e : Expr} {q : Place × String}
    (he : D.val s = some e) (hq : q ∈ e.names) (hseen : q.1 ≠ .seen) :
    ∃ d, c.val s = some d ∧ q ∈ d.names := by
  induction h with
  | refl => exact ⟨e, he, hq⟩
  | @tail c c' hsteps hstep ih =>
    obtain ⟨d, hd, hqd⟩ := ih
    obtain ⟨d', hd'⟩ := exists_val (hstep.keys ▸ mem_of_val hd : s ∈ c'.keys)
    refine ⟨d', hd', ?_⟩
    obtain ⟨e', he', hnames⟩ := hstep.names hd'
    obtain rfl := Option.some.inj (hd.symm.trans he')
    obtain hnames | hnames := hnames
    · exact hnames ▸ hqd
    · exact hnames ▸ Expr.mem_names_inject.mpr (.inl ⟨hqd, hseen⟩)

theorem noneLeft_of_steps (hD : D.NoneLeft) (h : ReflTransGen Step D c) : c.NoneLeft := by
  induction h with
  | refl => exact hD
  | @tail c c' hsteps hstep ih =>
    intro s d hd q hq hseen
    rw [hstep.keys]
    obtain ⟨e, he, hnames⟩ := hstep.names hd
    obtain hnames | hnames := hnames
    · exact ih s e he q (hnames ▸ hq) hseen
    · rw [hnames] at hq
      rcases Expr.mem_names_inject.mp hq with ⟨hq, -⟩ | ⟨y, -, hq⟩
      · exact ih s e he q hq hseen
      · cases hy : c.val y with
        | some d => exact ih y d hy q (by rwa [hy] at hq) hseen
        | none =>
          rw [hy, Option.getD_none] at hq
          rw [List.mem_singleton.mp hq] at hseen
          exact absurd rfl hseen

/-- A constant that is left comes from a chain of references. -/
theorem sees_of_steps (h : ReflTransGen Step D c) {x z : String} (hx : c.Sees x z) :
    TransGen D.Sees x z := by
  induction h generalizing x z with
  | refl => exact .single hx
  | @tail c c' hsteps hstep ih =>
    obtain ⟨d, hd, hz, hnz⟩ := hx
    rw [hstep.keys] at hz
    obtain ⟨e, he, hnames⟩ := hstep.names hd
    obtain hnames | hnames := hnames
    · exact ih ⟨e, he, hz, hnames ▸ hnz⟩
    · rw [hnames] at hnz
      rcases Expr.mem_names_inject.mp hnz with ⟨-, hseen⟩ | ⟨y, hny, hnz⟩
      · exact absurd rfl hseen
      · by_cases hy : y ∈ c.keys
        · obtain ⟨d', hd'⟩ := exists_val hy
          rw [hd', Option.getD_some] at hnz
          exact (ih ⟨e, he, hy, hny⟩).trans (ih ⟨d', hd', hz, hnz⟩)
        · rw [getD_of_not_mem hy] at hnz
          obtain rfl : z = y := congrArg Prod.snd (List.mem_singleton.mp hnz)
          exact absurd hz hy

/-- A chain of references goes round in a circle in the end. -/
def Circular (c : Consts) (x : String) : Prop :=
  ∃ z, ReflTransGen c.Sees x z ∧ TransGen c.Sees z z

theorem Circular.exists_sees {x : String} (h : c.Circular x) : ∃ y, c.Sees x y ∧ c.Circular y := by
  obtain ⟨z, hxz, hz⟩ := h
  rcases hxz.cases_head with rfl | ⟨y, hxy, hyz⟩
  · obtain ⟨y, hxy, hyx⟩ := TransGen.head'_iff.mp hz
    exact ⟨y, hxy, x, hyx, hz⟩
  · exact ⟨y, hxy, z, hyz, hz⟩

/-- The definition of such a constant goes on to name one. -/
theorem circular_of_steps (h : ReflTransGen Step D c) {x : String} (hx : D.Circular x) :
    ∃ y, c.Sees x y ∧ D.Circular y := by
  induction h generalizing x with
  | refl => exact hx.exists_sees
  | @tail c c' hsteps hstep ih =>
    obtain ⟨y, ⟨e, he, hy, hny⟩, hcirc⟩ := ih hx
    obtain ⟨d, hd⟩ := exists_val (hstep.keys ▸ mem_of_val he : x ∈ c'.keys)
    obtain ⟨e', he', hnames⟩ := hstep.names hd
    obtain rfl := Option.some.inj (he.symm.trans he')
    obtain hnames | hnames := hnames
    · exact ⟨y, ⟨d, hd, hstep.keys ▸ hy, hnames ▸ hny⟩, hcirc⟩
    · obtain ⟨z, ⟨e₂, he₂, hz, hnz⟩, hcirc'⟩ := ih hcirc
      refine ⟨z, ⟨d, hd, hstep.keys ▸ hz, ?_⟩, hcirc'⟩
      rw [hnames]
      refine Expr.mem_names_inject.mpr (.inr ⟨y, hny, ?_⟩)
      rw [he₂]
      exact hnz

/-! ## Solutions -/

section Solutions

variable {env : Env} {ρ : String → Option UInt64}

/-- The other definitions give the names in a definition their values. -/
theorem Solves.solved {x : String} {e : Expr}
    (hne : ∀ y, (.seen, y) ∈ e.names → y ≠ x)
    (hval : ∀ s, s ≠ x → ∀ d, c.val s = some d → ρ s = d.eval { env with id := ρ }) :
    Solved c.val { env with id := ρ } e.names := by
  intro y hy
  cases h : c.val y with
  | none => rfl
  | some d => exact (hval y (hne y hy) d h).symm

/-- A replacement keeps the solutions, if the definition does not name its own constant. -/
theorem Step.solves (h : c.Step c') (hself : ∀ x, ¬ c.Sees x x) :
    c.Solves env ρ ↔ c'.Solves env ρ := by
  obtain ⟨x, e, new, he, hnorm, hkeys, hval⟩ := h
  have hne : ∀ y, (.seen, y) ∈ e.names → y ≠ x := by
    rintro y hy rfl
    exact hself y ⟨e, he, mem_of_val he, hy⟩
  have hother : ∀ s, s ≠ x → c'.val s = c.val s := fun s hs => by
    rw [hval, Function.update_of_ne hs]
  have hnew : c'.val x = some new := by rw [hval, Function.update_self]
  have heval : (∀ s, s ≠ x → ∀ d, c.val s = some d → ρ s = d.eval { env with id := ρ }) →
      new.eval { env with id := ρ } = e.eval { env with id := ρ } := fun hsolves =>
    (Expr.eval_of_norm hnorm).1.trans (Expr.eval_inject (Solves.solved hne hsolves))
  constructor
  · rintro ⟨hnone, hsome⟩
    constructor
    · intro s hs
      have hsx : s ≠ x := by
        rintro rfl
        exact Option.some_ne_none new (hnew.symm.trans hs)
      exact hnone s (hother s hsx ▸ hs)
    · intro s d hd
      by_cases hsx : s = x
      · subst hsx
        obtain rfl := Option.some.inj (hnew.symm.trans hd)
        rw [heval fun s _ => hsome s]
        exact hsome s e he
      · exact hsome s d (hother s hsx ▸ hd)
  · rintro ⟨hnone, hsome⟩
    have hsome' : ∀ s, s ≠ x → ∀ d, c.val s = some d → ρ s = d.eval { env with id := ρ } :=
      fun s hsx d hd => hsome s d ((hother s hsx).trans hd)
    constructor
    · intro s hs
      have hsx : s ≠ x := by
        rintro rfl
        exact Option.some_ne_none e (he.symm.trans hs)
      exact hnone s ((hother s hsx).trans hs)
    · intro s d hd
      by_cases hsx : s = x
      · subst hsx
        obtain rfl := Option.some.inj (he.symm.trans hd)
        rw [← heval hsome']
        exact hsome s new hnew
      · exact hsome' s hsx d hd

theorem solves_of_steps (hacyclic : ∀ x, ¬ TransGen D.Sees x x) (h : ReflTransGen Step D c) :
    D.Solves env ρ ↔ c.Solves env ρ := by
  induction h with
  | refl => exact .rfl
  | tail hsteps hstep ih =>
    exact ih.trans (hstep.solves fun x hx => hacyclic x (sees_of_steps hsteps hx))

/-- Definitions that mention no constant have one solution: their values. -/
theorem solves_of_no_mention (h : ∀ x e, c.val x = some e → ∀ q ∈ e.names, q.2 ∉ c.keys) :
    c.Solves env ρ ↔ ρ = fun s => (c.val s).elim (env.id s) (Expr.eval env) := by
  have hcongr : ∀ ρ' : String → Option UInt64, (∀ s, c.val s = none → ρ' s = env.id s) →
      ∀ s e, c.val s = some e → e.eval { env with id := ρ' } = e.eval env := by
    intro ρ' hρ s e he
    refine (Expr.eval_congr fun q hq _ => hρ q.2 ?_).1
    have hmem := h s e he q hq
    rwa [c.mem_keys, not_not] at hmem
  constructor
  · rintro ⟨hnone, hsome⟩
    funext s
    cases hs : c.val s with
    | none => exact hnone s hs
    | some e => exact (hsome s e hs).trans (hcongr ρ hnone s e hs)
  · rintro rfl
    have hnone : ∀ s, c.val s = none →
        (c.val s).elim (env.id s) (Expr.eval env) = env.id s := fun s hs => by
      rw [hs, Option.elim_none]
    refine ⟨hnone, fun s e he => ?_⟩
    rw [hcongr _ hnone s e he]
    show (c.val s).elim (env.id s) (Expr.eval env) = e.eval env
    rw [he, Option.elim_some]

end Solutions

/-! ## Resolution -/

/-- At a fixed point without a chain of bare names nothing mentions a constant. -/
theorem Fixed.no_mention (hfixed : c.Fixed) (hplain : c.Plain) (hleft : c.NoneLeft)
    (hbare : ∀ x, ¬ c.Bare x x) :
    ∀ x e, c.val x = some e → ∀ q ∈ e.names, q.2 ∉ c.keys := by
  rintro x e he ⟨pl, y⟩ hq hy
  by_cases hpl : pl = .seen
  · subst hpl
    have hnorm := Expr.inject_fixed (hfixed x e he (hplain x e he)) hq
    obtain ⟨d, hd⟩ := exists_val hy
    rw [hd, Option.getD_some] at hnorm
    exact hbare y ⟨hd.trans (congrArg some (norm_eq_id hnorm)), hy⟩
  · exact hleft x e he _ hq hpl hy

/-- What `simplify_constants` returns resolves the definitions exactly if no constants are defined by
each other's names in a circle, and none is named where the visitor does not get to. -/
theorem resolves_iff_of_run {S : Consts} {k : ℕ} (hplain : D.Plain)
    (hrun : simplifyConstants n k D = some S) :
    D.Resolves S ↔ (∀ x, ¬ TransGen D.Bare x x) ∧ D.NoneLeft := by
  obtain ⟨hsteps, hfixed⟩ := simplifyConstants_spec hrun
  have hkeys := keys_of_steps hsteps
  constructor
  · intro hres
    constructor
    · intro x hx
      exact hres.acyclic x (TransGen.mono (fun _ _ h => Bare.refers h) x x hx)
    · intro x e he q hq hseen
      obtain ⟨d, hd, hqd⟩ := left_of_steps hsteps he hq hseen
      exact hres.mentions x d hd q hqd
  · rintro ⟨hbare, hleft⟩
    have hmentions := hfixed.no_mention (plain_of_steps hplain hsteps)
      (noneLeft_of_steps hleft hsteps) fun x hx => hbare x (bare_of_steps hsteps hx)
    have hacyclic : ∀ x, ¬ TransGen D.Sees x x := by
      intro x hx
      obtain ⟨y, ⟨e, he, hy, hq⟩, -⟩ := circular_of_steps hsteps ⟨x, .refl, hx⟩
      exact hmentions x e he _ hq hy
    refine ⟨hkeys, fun x e he q hq => hkeys ▸ hmentions x e he q hq, fun x hx => ?_, fun env => ?_⟩
    · exact hacyclic x (TransGen.mono (fun _ _ h => hleft.sees h) x x hx)
    · refine ⟨fun s => (S.val s).elim (env.id s) (Expr.eval env), fun ρ => ?_, fun x e he => ?_⟩
      · exact (solves_of_steps hacyclic hsteps).trans (solves_of_no_mention hmentions)
      · show _ = (S.val x).elim (env.id x) (Expr.eval env)
        rw [he, Option.elim_some]

/-! ## Loading -/

theorem Plain.assign (hc : c.Plain) {s : String} {e : Expr} (he : e.Plain) : (c.assign s e).Plain := by
  intro t d hd
  have hval : (c.assign s e).val t = Function.update c.val s (some e) t := rfl
  rw [hval] at hd
  by_cases ht : t = s
  · subst ht
    rw [Function.update_self] at hd
    exact Option.some.inj hd ▸ he
  · rw [Function.update_of_ne ht] at hd
    exact hc t d hd

theorem plain_loadEnts : ∀ (ents : List (String × Option UInt64)) {c c' : Consts}, c.Plain →
    loadEnts ents c = some c' → c'.Plain
  | [], _, _, hc, h => Option.some.inj h ▸ hc
  | (_, none) :: _, _, _, _, h => absurd h (Option.some_ne_none _).symm
  | (_, some _) :: ents, _, _, hc, h => plain_loadEnts ents (hc.assign (e := .number _) trivial) h

theorem plain_loadEnums : ∀ (gb : List ConstDef) {c c' : Consts}, c.Plain →
    gb.foldlM loadEnum c = some c' → c'.Plain
  | [], _, _, hc, h => Option.some.inj h ▸ hc
  | .constVar _ _ :: gb, _, _, hc, h => plain_loadEnums gb hc h
  | .enum ents :: gb, _, _, hc, h => by
    obtain ⟨d, hd, h⟩ := Option.bind_eq_some_iff.mp h
    exact plain_loadEnums gb (plain_loadEnts ents hc hd) h

/-- Where the entries of the enums are loaded, all of them have numbers. -/
theorem numbers_of_loadEnts : ∀ (ents : List (String × Option UInt64)) {c c' : Consts},
    loadEnts ents c = some c' → ∀ p ∈ ents, p.2 ≠ none
  | [], _, _, _ => fun _ hp => absurd hp List.not_mem_nil
  | (_, none) :: _, _, _, h => absurd h (Option.some_ne_none _).symm
  | (_, some _) :: ents, _, _, h =>
    List.forall_mem_cons.mpr ⟨Option.some_ne_none _, numbers_of_loadEnts ents h⟩

theorem plain_loadConstants : ∀ (gb : List ConstDef) {c c' : Consts},
    (∀ s e, .constVar s e ∈ gb → e.Plain) → c.Plain → gb.foldlM (loadConst n) c = some c' → c'.Plain
  | [], _, _, _, hc, h => Option.some.inj h ▸ hc
  | .enum _ :: gb, _, _, hgb, hc, h =>
    plain_loadConstants gb (fun s e he => hgb s e (List.mem_cons_of_mem _ he)) hc h
  | .constVar s e :: gb, c, _, hgb, hc, h => by
    obtain ⟨d, hd, h⟩ := Option.bind_eq_some_iff.mp h
    obtain ⟨e', he', rfl⟩ := Option.map_eq_some_iff.mp hd
    have hplain : e'.Plain :=
      Expr.plain_of_norm (Expr.norm_copy he') (hgb s e List.mem_cons_self)
    exact plain_loadConstants gb (fun s e he => hgb s e (List.mem_cons_of_mem _ he))
      (hc.assign hplain) h

theorem numbers_of_loadEnums : ∀ (gb : List ConstDef) {c c' : Consts},
    gb.foldlM loadEnum c = some c' → ∀ ents, .enum ents ∈ gb → ∀ p ∈ ents, p.2 ≠ none
  | [], _, _, _ => fun _ he => absurd he List.not_mem_nil
  | .constVar _ _ :: gb, _, _, h => fun ents he =>
    numbers_of_loadEnums gb h ents ((List.mem_cons.mp he).resolve_left ConstDef.noConfusion)
  | .enum ents' :: gb, _, _, h => by
    obtain ⟨d, hd, h⟩ := Option.bind_eq_some_iff.mp h
    intro ents he
    obtain heq | he := List.mem_cons.mp he
    · obtain rfl := ConstDef.enum.inj heq
      exact numbers_of_loadEnts ents hd
    · exact numbers_of_loadEnums gb h ents he

/-- Whatever the statements define. -/
theorem plain_load {gb : List ConstDef} (hgb : ∀ s e, .constVar s e ∈ gb → e.Plain)
    (h : load n gb = some D) : D.Plain := by
  obtain ⟨c, hc, h⟩ := Option.bind_eq_some_iff.mp h
  have hnone : noConsts.Plain := fun s e h => absurd h (Option.some_ne_none e).symm
  have htrue : (noConsts.assign "true" (.boolean true)).Plain := hnone.assign trivial
  exact plain_loadEnums gb
    (plain_loadConstants gb hgb (htrue.assign (e := .boolean false) trivial) hc) h

end Consts

/-- If the constants are loaded and `simplify_constants` returns normally, the entries of all enums have
numbers, and the constants are resolved exactly if none are defined by each other's names in a circle, and
none is named in a path, as an array or as a function. -/
theorem Consts.simplify_resolves_iff {n : ℕ} {gb : List ConstDef} {D S : Consts}
    (hgb : ∀ s e, .constVar s e ∈ gb → e.Plain) (hload : load n gb = some D)
    (hrun : simplifyConstants n maxPasses D = some S) :
    (∀ ents, .enum ents ∈ gb → ∀ p ∈ ents, p.2 ≠ none) ∧
      (D.Resolves S ↔ (∀ x, ¬ TransGen D.Bare x x) ∧ D.NoneLeft) := by
  obtain ⟨c, -, henums⟩ := Option.bind_eq_some_iff.mp hload
  exact ⟨numbers_of_loadEnums gb henums, resolves_iff_of_run (plain_load hgb hload) hrun⟩

/-- `enum { b = 2 }`, `const a = b + 1` -/
theorem Consts.simplify_resolves_sum : ∃ D S,
    load 0 [.enum [("b", some 2)], .constVar "a" (.bin .add (.id "b") (.number 1) false)] =
      some D ∧
    simplifyConstants 0 maxPasses D = some S ∧ D.Resolves S := by
  refine ⟨_, _, rfl, rfl, ((@Consts.simplify_resolves_iff 0
    [.enum [("b", some 2)], .constVar "a" (.bin .add (.id "b") (.number 1) false)]
    _ _ ?_ rfl rfl).2).mpr ⟨?_, ?_⟩⟩
  · intro s e he
    simp only [List.mem_cons, reduceCtorEq, ConstDef.constVar.injEq, List.not_mem_nil, or_false,
      false_or] at he
    obtain ⟨-, rfl⟩ := he
    exact ⟨trivial, trivial⟩
  · intro x hx
    obtain ⟨y, ⟨hval, -⟩, -⟩ := TransGen.head'_iff.mp hx
    have hx : x ∈ ["a", "b", "false", "true"] := mem_of_val hval
    simp only [List.mem_cons, List.not_mem_nil, or_false] at hx
    obtain rfl | rfl | rfl | rfl := hx <;> exact Expr.noConfusion (Option.some.inj hval)
  · intro x e hval
    have hx : x ∈ ["a", "b", "false", "true"] := mem_of_val hval
    simp only [List.mem_cons, List.not_mem_nil, or_false] at hx
    obtain rfl | rfl | rfl | rfl := hx <;> obtain rfl := Option.some.inj hval
    all_goals decide

/-- The `enum { MINIX_V1, .. }` of the descriptions. -/
example : load 0 [.enum [("MINIX_V1", none)]] = none := rfl

/-- `const a = a` is not changed by a pass. -/
theorem Consts.not_simplify_resolves_self : ∃ D S, load 0 [.constVar "a" (.id "a")] = some D ∧
    simplifyConstants 0 maxPasses D = some S ∧ D.Refers "a" "a" ∧ S.val "a" = some (.id "a") ∧
    "a" ∈ S.keys := by
  refine ⟨_, _, rfl, rfl, ⟨.id "a", rfl, by decide, (.seen, "a"), by decide, by decide, rfl⟩, rfl,
    by decide⟩

example : ((load 0 [.constVar "b" (.number 2), .constVar "a" (.id "b")]).map Consts.keys) =
    some ["a", "b", "false", "true"] := by decide

end Fsl.Ast
