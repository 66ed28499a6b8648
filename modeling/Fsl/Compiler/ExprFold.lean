import Fsl.Compiler.ExprTree

/-!
# Simplifying an expression does not change its value

Whatever a copy or a simplification returns has the normal form of the tree it was made of, and so has
the object that was simplified. A normal form has the value of the tree. Where the tree has a value no folding is a fault, so that both return.
-/

namespace Fsl.Ast

open Parse

/-! ## Normal forms -/

theorem toNumbers_eq_some {l r : Expr} {a b : UInt64} (h : toNumbers l r = some (a, b)) :
    l = .number a ∧ r = .number b := by
  cases l <;> cases r <;> cases h
  exact ⟨rfl, rfl⟩

/-- Two numbers folded, where that is no fault. -/
def foldNumbers (o : Op) (l r : Expr) : Expr :=
  match toNumbers l r with
  | some (a, b) => ((o.doOp a.toNat b.toNat).map fun n => .number (UInt64.ofNat n)).getD
      (.bin o l r false)
  | none => .bin o l r false

mutual

/-- A tree with everything folded and without flags: what no copy and no simplification changes. -/
def Expr.norm : Expr → Expr
  | .id s => .id s
  | .idStruct p => .idStruct p.norm
  | .idArray s i _ _ => .idArray s i.norm false false
  | .fcall s es => .fcall s es.norm
  | .parens e => .parens e.norm
  | .boolean b => .boolean b
  | .number n => .number n
  | .bin o l r _ => foldNumbers o l.norm r.norm
  | .condVal c t f => .condVal c.norm t.norm f.norm
termination_by structural e => e

def ExprList.norm : ExprList → ExprList
  | .nil => .nil
  | .cons e es => .cons e.norm es.norm
termination_by structural es => es

def CondExpr.norm : CondExpr → CondExpr
  | .cmp o l r => .cmp o l.norm r.norm
  | .func s es => .func s es.norm
  | .not c => .not c.norm
  | .and a b => .and a.norm b.norm
  | .or a b => .or a.norm b.norm
termination_by structural c => c

end

section Norm

variable {arg : Expr → Option Expr}

section Args

variable (harg : ∀ e e', arg e = some e' → e'.norm = e.norm)

include harg

theorem ExprList.norm_mapM : ∀ {es es' : ExprList}, es.mapM arg = some es' → es'.norm = es.norm
  | .nil, _, h => by
    cases h
    rfl
  | .cons e es, _, h => by
    obtain ⟨e', he, h⟩ := Option.bind_eq_some_iff.mp h
    obtain ⟨es', hes, rfl⟩ := Option.map_eq_some_iff.mp h
    rw [ExprList.norm, ExprList.norm, harg e e' he, norm_mapM hes]

omit harg

mutual

theorem Expr.norm_copyWith (harg : ∀ e e', arg e = some e' → e'.norm = e.norm) :
    ∀ {e c : Expr}, e.copyWith arg = some c → c.norm = e.norm
  | .id s, _, h => by
    cases h
    rfl
  | .idStruct p, _, h => by
    obtain ⟨p', hp, rfl⟩ := Option.map_eq_some_iff.mp h
    rw [Expr.norm, Expr.norm, ExprList.norm_copyWith harg hp]
  | .idArray s i fixed nofollow, _, h => by
    obtain ⟨i', hi, rfl⟩ := Option.map_eq_some_iff.mp h
    rw [Expr.norm, Expr.norm, Expr.norm_copyWith harg hi]
  | .fcall s es, _, h => by
    obtain ⟨es', hes, rfl⟩ := Option.map_eq_some_iff.mp h
    rw [Expr.norm, Expr.norm, ExprList.norm_mapM harg hes]
  | .parens e, _, h => by
    obtain ⟨e', he, rfl⟩ := Option.map_eq_some_iff.mp h
    rw [Expr.norm, Expr.norm, Expr.norm_copyWith harg he]
  | .boolean b, _, h => by
    cases h
    rfl
  | .number n, _, h => by
    cases h
    rfl
  | .bin o l r flag, _, h => by
    obtain ⟨l', hl, h⟩ := Option.bind_eq_some_iff.mp h
    obtain ⟨r', hr, rfl⟩ := Option.map_eq_some_iff.mp h
    rw [Expr.norm, Expr.norm, Expr.norm_copyWith harg hl, Expr.norm_copyWith harg hr]
  | .condVal c t f, _, h => by
    obtain ⟨c', hc, h⟩ := Option.bind_eq_some_iff.mp h
    obtain ⟨t', ht, h⟩ := Option.bind_eq_some_iff.mp h
    obtain ⟨f', hf, rfl⟩ := Option.map_eq_some_iff.mp h
    rw [Expr.norm, Expr.norm, CondExpr.norm_copyWith harg hc, Expr.norm_copyWith harg ht,
      Expr.norm_copyWith harg hf]

theorem ExprList.norm_copyWith (harg : ∀ e e', arg e = some e' → e'.norm = e.norm) :
    ∀ {es es' : ExprList}, es.copyWith arg = some es' →
    es'.norm = es.norm
  | .nil, _, h => by
    cases h
    rfl
  | .cons e es, _, h => by
    obtain ⟨e', he, h⟩ := Option.bind_eq_some_iff.mp h
    obtain ⟨es', hes, rfl⟩ := Option.map_eq_some_iff.mp h
    rw [ExprList.norm, ExprList.norm, Expr.norm_copyWith harg he, ExprList.norm_copyWith harg hes]

theorem CondExpr.norm_copyWith (harg : ∀ e e', arg e = some e' → e'.norm = e.norm) :
    ∀ {c c' : CondExpr}, c.copyWith arg = some c' → c'.norm = c.norm
  | .cmp o l r, _, h => by
    obtain ⟨l', hl, h⟩ := Option.bind_eq_some_iff.mp h
    obtain ⟨r', hr, rfl⟩ := Option.map_eq_some_iff.mp h
    rw [CondExpr.norm, CondExpr.norm, Expr.norm_copyWith harg hl, Expr.norm_copyWith harg hr]
  | .func s es, _, h => by
    obtain ⟨es', hes, rfl⟩ := Option.map_eq_some_iff.mp h
    rw [CondExpr.norm, CondExpr.norm, ExprList.norm_mapM harg hes]
  | .not c, _, h => by
    obtain ⟨c', hc, rfl⟩ := Option.map_eq_some_iff.mp h
    rw [CondExpr.norm, CondExpr.norm, CondExpr.norm_copyWith harg hc]
  | .and a b, _, h => by
    obtain ⟨a', ha, h⟩ := Option.bind_eq_some_iff.mp h
    obtain ⟨b', hb, rfl⟩ := Option.map_eq_some_iff.mp h
    rw [CondExpr.norm, CondExpr.norm, CondExpr.norm_copyWith harg ha, CondExpr.norm_copyWith harg hb]
  | .or a b, _, h => by
    obtain ⟨a', ha, h⟩ := Option.bind_eq_some_iff.mp h
    obtain ⟨b', hb, rfl⟩ := Option.map_eq_some_iff.mp h
    rw [CondExpr.norm, CondExpr.norm, CondExpr.norm_copyWith harg ha, CondExpr.norm_copyWith harg hb]

end

end Args

theorem foldSides_object {o : Op} {l r x obj : Expr} (h : foldSides arg o l r = some (x, obj)) :
    obj = .bin o l r true := by
  rw [foldSides] at h
  split at h
  · obtain ⟨n, -, heq⟩ := Option.map_eq_some_iff.mp h
    exact (congrArg Prod.snd heq).symm
  · obtain ⟨c, -, heq⟩ := Option.map_eq_some_iff.mp h
    exact (congrArg Prod.snd heq).symm

section Args

variable (harg : ∀ e e', arg e = some e' → e'.norm = e.norm)

include harg

theorem norm_foldSides {o : Op} {l r x obj : Expr} (h : foldSides arg o l r = some (x, obj)) :
    x.norm = foldNumbers o l.norm r.norm := by
  rw [foldSides] at h
  split at h
  case h_1 a b hnum =>
    obtain ⟨n, hn, heq⟩ := Option.map_eq_some_iff.mp h
    obtain ⟨rfl, rfl⟩ := toNumbers_eq_some hnum
    obtain rfl := congrArg Prod.fst heq
    show _ = foldNumbers o (.number a) (.number b)
    rw [foldNumbers, hnum]
    simp only [hn]
    rfl
  case h_2 =>
    obtain ⟨c, hc, heq⟩ := Option.map_eq_some_iff.mp h
    obtain rfl := congrArg Prod.fst heq
    exact Expr.norm_copyWith harg hc

/-- To simplify most expressions is to copy them. -/
theorem norm_copied {e x obj : Expr}
    (h : (e.copyWith arg).map (fun c => (c, e)) = some (x, obj)) :
    x.norm = e.norm ∧ obj.norm = e.norm := by
  obtain ⟨c, hc, heq⟩ := Option.map_eq_some_iff.mp h
  cases heq
  exact ⟨Expr.norm_copyWith harg hc, rfl⟩

theorem Expr.norm_simplifyWith : ∀ {e x obj : Expr}, e.simplifyWith arg = some (x, obj) →
    x.norm = e.norm ∧ obj.norm = e.norm
  | .parens e, _, _, h => by
    obtain ⟨⟨x, obj⟩, he, heq⟩ := Option.map_eq_some_iff.mp h
    cases heq
    obtain ⟨hx, hobj⟩ := Expr.norm_simplifyWith he
    exact ⟨congrArg Expr.parens hx, congrArg Expr.parens hobj⟩
  | .bin o l r true, _, _, h => by
    have hobj := foldSides_object h
    exact ⟨norm_foldSides harg h, hobj ▸ rfl⟩
  | .bin o l r false, _, _, h => by
    obtain ⟨⟨l', objl⟩, hl, h⟩ := Option.bind_eq_some_iff.mp h
    obtain ⟨⟨r', objr⟩, hr, h⟩ := Option.bind_eq_some_iff.mp h
    have hnorml := (Expr.norm_simplifyWith hl).1
    have hnormr := (Expr.norm_simplifyWith hr).1
    have hx := norm_foldSides harg h
    rw [hnorml, hnormr] at hx
    refine ⟨hx, ?_⟩
    rw [foldSides_object h, Expr.norm, Expr.norm, hnorml, hnormr]
  | .id s, _, _, h => norm_copied harg h
  | .idStruct p, _, _, h => norm_copied harg h
  | .idArray s i fixed nofollow, _, _, h => norm_copied harg h
  | .fcall s es, _, _, h => norm_copied harg h
  | .boolean b, _, _, h => norm_copied harg h
  | .number n, _, _, h => norm_copied harg h
  | .condVal c t f, _, _, h => norm_copied harg h

end Args

/-- The arguments of a new call are those it was made of, folded. -/
theorem norm_argWith : ∀ {n : ℕ} (e e' : Expr), argWith n e = some e' → e'.norm = e.norm := by
  intro n
  induction n with
  | zero =>
    intro e e' h
    cases h
  | succ n ih =>
    intro e e' h
    obtain ⟨c, hc, h⟩ := Option.bind_eq_some_iff.mp h
    obtain ⟨⟨x, obj⟩, hx, rfl⟩ := Option.map_eq_some_iff.mp h
    rw [(Expr.norm_simplifyWith ih hx).1, Expr.norm_copyWith ih hc]

theorem Expr.norm_copy {n : ℕ} {e c : Expr} (h : e.copy n = some c) : c.norm = e.norm :=
  Expr.norm_copyWith norm_argWith h

theorem Expr.norm_simplify {n : ℕ} {e x obj : Expr} (h : e.simplify n = some (x, obj)) :
    x.norm = e.norm ∧ obj.norm = e.norm :=
  Expr.norm_simplifyWith norm_argWith h

end Norm

/-! ## Values stay -/

section Eval

variable {env : Env}

/-- Two numbers are folded to what the emitted instruction returns for them. -/
theorem eval_foldNumbers (o : Op) (l r : Expr) :
    (foldNumbers o l r).eval env = o.comb (l.eval env) (r.eval env) := by
  rw [foldNumbers]
  split
  case h_1 a b hnum =>
    obtain ⟨rfl, rfl⟩ := toNumbers_eq_some hnum
    rw [o.doOp_eq]
    cases h : o.apply a b with
    | none => rfl
    | some v =>
      show some (UInt64.ofNat v.toNat) = o.apply a b
      rw [UInt64.ofNat_toNat, h]
  case h_2 => rfl

/-- In a path, too, nothing stands for a folded operator. -/
theorem key_foldNumbers (o : Op) (l r : Expr) : (foldNumbers o l r).key env = none := by
  rw [foldNumbers]
  split
  case h_1 a b _ => cases o.doOp a.toNat b.toNat <;> rfl
  case h_2 => rfl

mutual

theorem Expr.eval_norm : ∀ e : Expr, e.norm.eval env = e.eval env ∧ e.norm.key env = e.key env
  | .id _ => ⟨rfl, rfl⟩
  | .idStruct p => by
    obtain ⟨-, hkeys⟩ := ExprList.eval_norm p
    exact ⟨by rw [Expr.norm, Expr.eval, Expr.eval, hkeys], rfl⟩
  | .idArray s i fixed nofollow => by
    obtain ⟨hi, -⟩ := Expr.eval_norm i
    exact ⟨by rw [Expr.norm, Expr.eval, Expr.eval, hi], by rw [Expr.norm, Expr.key, Expr.key, hi]⟩
  | .fcall s es => by
    obtain ⟨hes, -⟩ := ExprList.eval_norm es
    exact ⟨by rw [Expr.norm, Expr.eval, Expr.eval, hes], by rw [Expr.norm, Expr.key, Expr.key, hes]⟩
  | .parens e => ⟨(Expr.eval_norm e).1, rfl⟩
  | .boolean _ => ⟨rfl, rfl⟩
  | .number _ => ⟨rfl, rfl⟩
  | .bin o l r flag => by
    refine ⟨?_, key_foldNumbers o _ _⟩
    rw [Expr.norm, eval_foldNumbers, Expr.eval, (Expr.eval_norm l).1, (Expr.eval_norm r).1]
  | .condVal c t f => by
    refine ⟨?_, rfl⟩
    rw [Expr.norm, Expr.eval, Expr.eval, CondExpr.eval_norm c, (Expr.eval_norm t).1,
      (Expr.eval_norm f).1]

theorem ExprList.eval_norm : ∀ es : ExprList,
    es.norm.eval env = es.eval env ∧ es.norm.keys env = es.keys env
  | .nil => ⟨rfl, rfl⟩
  | .cons e es => by
    obtain ⟨he, hkey⟩ := Expr.eval_norm e
    obtain ⟨hes, hkeys⟩ := ExprList.eval_norm es
    exact ⟨by rw [ExprList.norm, ExprList.eval, ExprList.eval, he, hes],
      by rw [ExprList.norm, ExprList.keys, ExprList.keys, hkey, hkeys]⟩

theorem CondExpr.eval_norm : ∀ c : CondExpr, c.norm.eval env = c.eval env
  | .cmp o l r => by
    rw [CondExpr.norm, CondExpr.eval, CondExpr.eval, (Expr.eval_norm l).1, (Expr.eval_norm r).1]
  | .func s es => by
    rw [CondExpr.norm, CondExpr.eval, CondExpr.eval, (ExprList.eval_norm es).1]
  | .not c => by
    rw [CondExpr.norm, CondExpr.eval, CondExpr.eval, CondExpr.eval_norm c]
  | .and a b => by
    rw [CondExpr.norm, CondExpr.eval, CondExpr.eval, CondExpr.eval_norm a, CondExpr.eval_norm b]
  | .or a b => by
    rw [CondExpr.norm, CondExpr.eval, CondExpr.eval, CondExpr.eval_norm a, CondExpr.eval_norm b]

end

/-- Trees with one normal form have one value, and stand for the same in a path. -/
theorem Expr.eval_of_norm {e e' : Expr} (h : e'.norm = e.norm) :
    e'.eval env = e.eval env ∧ e'.key env = e.key env := by
  constructor
  · exact (Expr.eval_norm e').1.symm.trans (h ▸ (Expr.eval_norm e).1)
  · exact (Expr.eval_norm e').2.symm.trans (h ▸ (Expr.eval_norm e).2)

theorem Expr.eval_simplify {n : ℕ} {e x obj : Expr} (h : e.simplify n = some (x, obj)) :
    x.eval env = e.eval env ∧ obj.eval env = e.eval env := by
  obtain ⟨hx, hobj⟩ := Expr.norm_simplify h
  exact ⟨(Expr.eval_of_norm hx).1, (Expr.eval_of_norm hobj).1⟩

end Eval

/-! ## Nothing fails -/

mutual

/-- How deep calls are nested. -/
def Expr.depth : Expr → ℕ
  | .id _ => 0
  | .idStruct p => p.depth
  | .idArray _ i _ _ => i.depth
  | .fcall _ es => es.depth + 1
  | .parens e => e.depth
  | .boolean _ => 0
  | .number _ => 0
  | .bin _ l r _ => max l.depth r.depth
  | .condVal c t f => max c.depth (max t.depth f.depth)
termination_by structural e => e

def ExprList.depth : ExprList → ℕ
  | .nil => 0
  | .cons e es => max e.depth es.depth
termination_by structural es => es

def CondExpr.depth : CondExpr → ℕ
  | .cmp _ l r => max l.depth r.depth
  | .func _ es => es.depth + 1
  | .not c => c.depth
  | .and a b => max a.depth b.depth
  | .or a b => max a.depth b.depth
termination_by structural c => c

end

/-- An operator between two numbers, if these are numbers, is no fault. -/
def Foldable (o : Op) (l r : Expr) : Prop :=
  ∀ a b, toNumbers l r = some (a, b) → (o.doOp a.toNat b.toNat).isSome = true

mutual

/-- Nothing that is folded divides by zero or shifts by the width or more. -/
def Expr.Folds : Expr → Prop
  | .id _ => True
  | .idStruct p => p.Folds
  | .idArray _ i _ _ => i.Folds
  | .fcall _ es => es.Folds
  | .parens e => e.Folds
  | .boolean _ => True
  | .number _ => True
  | .bin o l r _ => (l.Folds ∧ r.Folds) ∧ Foldable o l.norm r.norm
  | .condVal c t f => c.Folds ∧ t.Folds ∧ f.Folds
termination_by structural e => e

def ExprList.Folds : ExprList → Prop
  | .nil => True
  | .cons e es => e.Folds ∧ es.Folds
termination_by structural es => es

def CondExpr.Folds : CondExpr → Prop
  | .cmp _ l r => l.Folds ∧ r.Folds
  | .func _ es => es.Folds
  | .not c => c.Folds
  | .and a b => a.Folds ∧ b.Folds
  | .or a b => a.Folds ∧ b.Folds
termination_by structural c => c

end

section Total

variable {arg : Expr → Option Expr} {n : ℕ}

/-- What comes of a tree is no deeper, and can be folded like it. -/
def Expr.Tamer (c e : Expr) : Prop := c.depth ≤ e.depth ∧ c.Folds

/-- Trees less than `n` deep become arguments of a call. -/
structure TotalBelow (arg : Expr → Option Expr) (n : ℕ) : Prop where
  total : ∀ e, e.depth < n → e.Folds → ∃ e', arg e = some e' ∧ e'.Tamer e
  norm : ∀ e e', arg e = some e' → e'.norm = e.norm

section Below

variable (harg : TotalBelow arg n)

include harg

theorem ExprList.exists_mapM : ∀ {es : ExprList}, es.depth < n → es.Folds →
    ∃ es', es.mapM arg = some es' ∧ es'.depth ≤ es.depth ∧ es'.Folds
  | .nil, _, _ => ⟨.nil, rfl, le_rfl, trivial⟩
  | .cons e es, hdepth, hfolds => by
    obtain ⟨e', he, hdepthe, hfoldse⟩ :=
      harg.total e ((le_max_left _ _).trans_lt hdepth) hfolds.1
    obtain ⟨es', hes, hdepths, hfoldss⟩ :=
      exists_mapM ((le_max_right _ _).trans_lt hdepth) hfolds.2
    refine ⟨.cons e' es', ?_, max_le_max hdepthe hdepths, hfoldse, hfoldss⟩
    rw [ExprList.mapM, he, hes]
    rfl

omit harg

mutual

theorem Expr.exists_copyWith (harg : TotalBelow arg n) : ∀ {e : Expr}, e.depth ≤ n → e.Folds →
    ∃ c, e.copyWith arg = some c ∧ c.Tamer e
  | .id s, _, _ => ⟨.id s, rfl, le_rfl, trivial⟩
  | .idStruct p, hdepth, hfolds => by
    obtain ⟨p', hp, htame⟩ := ExprList.exists_copyWith harg (l := p) hdepth hfolds
    exact ⟨_, Option.map_eq_some_iff.mpr ⟨p', hp, rfl⟩, htame⟩
  | .idArray s i fixed nofollow, hdepth, hfolds => by
    obtain ⟨i', hi, htame⟩ := Expr.exists_copyWith harg (e := i) hdepth hfolds
    exact ⟨_, Option.map_eq_some_iff.mpr ⟨i', hi, rfl⟩, htame⟩
  | .fcall s es, hdepth, hfolds => by
    obtain ⟨es', hes, hdepths, hfoldss⟩ :=
      ExprList.exists_mapM harg (Nat.lt_of_succ_le hdepth) hfolds
    exact ⟨_, Option.map_eq_some_iff.mpr ⟨es', hes, rfl⟩, Nat.succ_le_succ hdepths, hfoldss⟩
  | .parens e, hdepth, hfolds => by
    obtain ⟨e', he, htame⟩ := Expr.exists_copyWith harg (e := e) hdepth hfolds
    exact ⟨_, Option.map_eq_some_iff.mpr ⟨e', he, rfl⟩, htame⟩
  | .boolean b, _, _ => ⟨.boolean b, rfl, le_rfl, trivial⟩
  | .number k, _, _ => ⟨.number k, rfl, le_rfl, trivial⟩
  | .bin o l r flag, hdepth, ⟨hfolds, hfoldable⟩ => by
    obtain ⟨l', hl, hdepthl, hfoldsl⟩ :=
      Expr.exists_copyWith harg ((le_max_left _ _).trans hdepth) hfolds.1
    obtain ⟨r', hr, hdepthr, hfoldsr⟩ :=
      Expr.exists_copyWith harg ((le_max_right _ _).trans hdepth) hfolds.2
    refine ⟨_, Option.bind_eq_some_iff.mpr ⟨l', hl, Option.map_eq_some_iff.mpr ⟨r', hr, rfl⟩⟩,
      max_le_max hdepthl hdepthr, ⟨hfoldsl, hfoldsr⟩, ?_⟩
    rw [Expr.norm_copyWith harg.norm hl, Expr.norm_copyWith harg.norm hr]
    exact hfoldable
  | .condVal c t f, hdepth, ⟨hfoldsc, hfoldst, hfoldsf⟩ => by
    obtain ⟨hdepthc, hdepth⟩ := max_le_iff.mp hdepth
    obtain ⟨hdeptht, hdepthf⟩ := max_le_iff.mp hdepth
    obtain ⟨c', hc, hlec, hfoldsc'⟩ := CondExpr.exists_copyWith harg hdepthc hfoldsc
    obtain ⟨t', ht, hlet, hfoldst'⟩ := Expr.exists_copyWith harg hdeptht hfoldst
    obtain ⟨f', hf, hlef, hfoldsf'⟩ := Expr.exists_copyWith harg hdepthf hfoldsf
    refine ⟨.condVal c' t' f', ?_, max_le_max hlec (max_le_max hlet hlef), hfoldsc', hfoldst',
      hfoldsf'⟩
    rw [Expr.copyWith, hc, ht, hf]
    rfl

theorem ExprList.exists_copyWith (harg : TotalBelow arg n) : ∀ {l : ExprList}, l.depth ≤ n → l.Folds →
    ∃ l', l.copyWith arg = some l' ∧ l'.depth ≤ l.depth ∧ l'.Folds
  | .nil, _, _ => ⟨.nil, rfl, le_rfl, trivial⟩
  | .cons e es, hdepth, hfolds => by
    obtain ⟨e', he, hdepthe, hfoldse⟩ :=
      Expr.exists_copyWith harg ((le_max_left _ _).trans hdepth) hfolds.1
    obtain ⟨es', hes, hdepths, hfoldss⟩ :=
      ExprList.exists_copyWith harg ((le_max_right _ _).trans hdepth) hfolds.2
    refine ⟨.cons e' es', ?_, max_le_max hdepthe hdepths, hfoldse, hfoldss⟩
    rw [ExprList.copyWith, he, hes]
    rfl

theorem CondExpr.exists_copyWith (harg : TotalBelow arg n) : ∀ {c : CondExpr}, c.depth ≤ n → c.Folds →
    ∃ c', c.copyWith arg = some c' ∧ c'.depth ≤ c.depth ∧ c'.Folds
  | .cmp o l r, hdepth, hfolds => by
    obtain ⟨l', hl, hdepthl, hfoldsl⟩ :=
      Expr.exists_copyWith harg ((le_max_left _ _).trans hdepth) hfolds.1
    obtain ⟨r', hr, hdepthr, hfoldsr⟩ :=
      Expr.exists_copyWith harg ((le_max_right _ _).trans hdepth) hfolds.2
    exact ⟨_, Option.bind_eq_some_iff.mpr ⟨l', hl, Option.map_eq_some_iff.mpr ⟨r', hr, rfl⟩⟩,
      max_le_max hdepthl hdepthr, hfoldsl, hfoldsr⟩
  | .func s es, hdepth, hfolds => by
    obtain ⟨es', hes, hdepths, hfoldss⟩ :=
      ExprList.exists_mapM harg (Nat.lt_of_succ_le hdepth) hfolds
    exact ⟨_, Option.map_eq_some_iff.mpr ⟨es', hes, rfl⟩, Nat.succ_le_succ hdepths, hfoldss⟩
  | .not c, hdepth, hfolds => by
    obtain ⟨c', hc, htame⟩ := CondExpr.exists_copyWith harg (c := c) hdepth hfolds
    exact ⟨_, Option.map_eq_some_iff.mpr ⟨c', hc, rfl⟩, htame⟩
  | .and a b, hdepth, hfolds => by
    obtain ⟨a', ha, hdeptha, hfoldsa⟩ :=
      CondExpr.exists_copyWith harg ((le_max_left _ _).trans hdepth) hfolds.1
    obtain ⟨b', hb, hdepthb, hfoldsb⟩ :=
      CondExpr.exists_copyWith harg ((le_max_right _ _).trans hdepth) hfolds.2
    exact ⟨_, Option.bind_eq_some_iff.mpr ⟨a', ha, Option.map_eq_some_iff.mpr ⟨b', hb, rfl⟩⟩,
      max_le_max hdeptha hdepthb, hfoldsa, hfoldsb⟩
  | .or a b, hdepth, hfolds => by
    obtain ⟨a', ha, hdeptha, hfoldsa⟩ :=
      CondExpr.exists_copyWith harg ((le_max_left _ _).trans hdepth) hfolds.1
    obtain ⟨b', hb, hdepthb, hfoldsb⟩ :=
      CondExpr.exists_copyWith harg ((le_max_right _ _).trans hdepth) hfolds.2
    exact ⟨_, Option.bind_eq_some_iff.mpr ⟨a', ha, Option.map_eq_some_iff.mpr ⟨b', hb, rfl⟩⟩,
      max_le_max hdeptha hdepthb, hfoldsa, hfoldsb⟩

end

include harg

theorem exists_foldSides {o : Op} {l r : Expr} (hdepth : (Expr.bin o l r true).depth ≤ n)
    (hfolds : (Expr.bin o l r true).Folds) :
    ∃ p, foldSides arg o l r = some p ∧ p.1.Tamer (.bin o l r true) := by
  rw [foldSides]
  split
  case h_1 a b hnum =>
    obtain ⟨rfl, rfl⟩ := toNumbers_eq_some hnum
    obtain ⟨v, hv⟩ := Option.isSome_iff_exists.mp (hfolds.2 a b rfl)
    rw [hv]
    exact ⟨_, rfl, Nat.zero_le _, trivial⟩
  case h_2 =>
    obtain ⟨c, hc, htame⟩ := Expr.exists_copyWith harg hdepth hfolds
    rw [hc]
    exact ⟨_, rfl, htame⟩

theorem exists_copied {e : Expr} (hdepth : e.depth ≤ n) (hfolds : e.Folds) :
    ∃ p, (e.copyWith arg).map (fun c => (c, e)) = some p ∧ p.1.Tamer e := by
  obtain ⟨c, hc, htame⟩ := Expr.exists_copyWith harg hdepth hfolds
  rw [hc]
  exact ⟨_, rfl, htame⟩

theorem Expr.exists_simplifyWith : ∀ {e : Expr}, e.depth ≤ n → e.Folds →
    ∃ p, e.simplifyWith arg = some p ∧ p.1.Tamer e
  | .parens e, hdepth, hfolds => by
    obtain ⟨p, hp, htame⟩ := Expr.exists_simplifyWith (e := e) hdepth hfolds
    exact ⟨_, Option.map_eq_some_iff.mpr ⟨p, hp, rfl⟩, htame⟩
  | .bin o l r true, hdepth, hfolds => exists_foldSides harg hdepth hfolds
  | .bin o l r false, hdepth, ⟨hfolds, hfoldable⟩ => by
    obtain ⟨p, hp, hdepthl, hfoldsl⟩ :=
      Expr.exists_simplifyWith ((le_max_left _ _).trans hdepth) hfolds.1
    obtain ⟨q, hq, hdepthr, hfoldsr⟩ :=
      Expr.exists_simplifyWith ((le_max_right _ _).trans hdepth) hfolds.2
    -- the new sides have the normal forms of the old ones, and are no deeper
    have hsides : (Expr.bin o p.1 q.1 true).Folds := by
      refine ⟨⟨hfoldsl, hfoldsr⟩, ?_⟩
      rw [(Expr.norm_simplifyWith harg.norm hp).1, (Expr.norm_simplifyWith harg.norm hq).1]
      exact hfoldable
    have hle : (Expr.bin o p.1 q.1 true).depth ≤ (Expr.bin o l r false).depth :=
      max_le_max hdepthl hdepthr
    obtain ⟨x, hx, hdepthx, hfoldsx⟩ := exists_foldSides harg (hle.trans hdepth) hsides
    exact ⟨x, Option.bind_eq_some_iff.mpr ⟨p, hp, Option.bind_eq_some_iff.mpr ⟨q, hq, hx⟩⟩,
      hdepthx.trans hle, hfoldsx⟩
  | .id s, hdepth, hfolds => exists_copied harg hdepth hfolds
  | .idStruct p, hdepth, hfolds => exists_copied harg hdepth hfolds
  | .idArray s i fixed nofollow, hdepth, hfolds => exists_copied harg hdepth hfolds
  | .fcall s es, hdepth, hfolds => exists_copied harg hdepth hfolds
  | .boolean b, hdepth, hfolds => exists_copied harg hdepth hfolds
  | .number k, hdepth, hfolds => exists_copied harg hdepth hfolds
  | .condVal c t f, hdepth, hfolds => exists_copied harg hdepth hfolds

end Below

/-- Calls nested less than `n` deep. -/
theorem totalBelow_argWith (n : ℕ) : TotalBelow (argWith n) n := by
  refine ⟨?_, norm_argWith⟩
  induction n with
  | zero => exact fun e hdepth => absurd hdepth (Nat.not_lt_zero _)
  | succ n ih =>
    intro e hdepth hfolds
    have harg : TotalBelow (argWith n) n := ⟨ih, norm_argWith⟩
    obtain ⟨c, hc, hdepthc, hfoldsc⟩ :=
      Expr.exists_copyWith harg (Nat.le_of_lt_succ hdepth) hfolds
    obtain ⟨p, hp, hdepthp, hfoldsp⟩ :=
      Expr.exists_simplifyWith harg (hdepthc.trans (Nat.le_of_lt_succ hdepth)) hfoldsc
    refine ⟨p.1, ?_, hdepthp.trans hdepthc, hfoldsp⟩
    rw [argWith, hc, Option.bind_some, hp]
    rfl

/-- `Expr::simplify` returns. -/
theorem Expr.exists_simplify {e : Expr} (hdepth : e.depth ≤ n) (hfolds : e.Folds) :
    ∃ x obj, e.simplify n = some (x, obj) := by
  obtain ⟨⟨x, obj⟩, h, -⟩ := Expr.exists_simplifyWith (totalBelow_argWith n) hdepth hfolds
  exact ⟨x, obj, h⟩

end Total

mutual

/-- Built from numbers, names, calls, arrays, parentheses and operators. -/
def Expr.Basic : Expr → Prop
  | .id _ => True
  | .idStruct _ => False
  | .idArray _ i _ _ => i.Basic
  | .fcall _ es => es.Basic
  | .parens e => e.Basic
  | .boolean _ => False
  | .number _ => True
  | .bin _ l r _ => l.Basic ∧ r.Basic
  | .condVal _ _ _ => False
termination_by structural e => e

def ExprList.Basic : ExprList → Prop
  | .nil => True
  | .cons e es => e.Basic ∧ es.Basic
termination_by structural es => es

end

section Basic

variable {env : Env}

/-- What has a value in some environment is no fault when it is folded. -/
theorem foldable_of_eval {o : Op} {l r : Expr} {a b v : UInt64} (hl : l.eval env = some a)
    (hr : r.eval env = some b) (h : o.apply a b = some v) : Foldable o l.norm r.norm := by
  intro a' b' hnum
  obtain ⟨hnuml, hnumr⟩ := toNumbers_eq_some hnum
  have ha : some a' = some a := by rw [← hl, ← (Expr.eval_norm l).1, hnuml]; rfl
  have hb : some b' = some b := by rw [← hr, ← (Expr.eval_norm r).1, hnumr]; rfl
  obtain rfl := Option.some.inj ha
  obtain rfl := Option.some.inj hb
  rw [o.doOp_eq, h]
  rfl

mutual

theorem Expr.folds_of_eval : ∀ {e : Expr} {v : UInt64}, e.Basic → e.eval env = some v → e.Folds
  | .id _, _, _, _ => trivial
  | .number _, _, _, _ => trivial
  | .idArray _ i _ _, _, hbasic, h => by
    obtain ⟨v, hv, -⟩ := Option.bind_eq_some_iff.mp h
    exact Expr.folds_of_eval (e := i) hbasic hv
  | .fcall _ es, _, hbasic, h => by
    obtain ⟨vs, hvs, -⟩ := Option.bind_eq_some_iff.mp h
    exact ExprList.folds_of_eval (l := es) hbasic hvs
  | .parens e, _, hbasic, h => Expr.folds_of_eval (e := e) hbasic h
  | .bin o l r _, _, hbasic, h => by
    obtain ⟨a, ha, h⟩ := Option.bind_eq_some_iff.mp h
    obtain ⟨b, hb, h⟩ := Option.bind_eq_some_iff.mp h
    exact ⟨⟨Expr.folds_of_eval hbasic.1 ha, Expr.folds_of_eval hbasic.2 hb⟩,
      foldable_of_eval ha hb h⟩

theorem ExprList.folds_of_eval : ∀ {l : ExprList} {vs : List UInt64}, l.Basic →
    l.eval env = some vs → l.Folds
  | .nil, _, _, _ => trivial
  | .cons e es, _, hbasic, h => by
    obtain ⟨v, hv, h⟩ := Option.bind_eq_some_iff.mp h
    obtain ⟨vs, hvs, -⟩ := Option.map_eq_some_iff.mp h
    exact ⟨Expr.folds_of_eval hbasic.1 hv, ExprList.folds_of_eval hbasic.2 hvs⟩

end

end Basic

/-- `Expr::simplify` returns an expression of the same value, and leaves one in its object. -/
theorem Expr.simplify_eval {env : Env} {e : Expr} (hbasic : e.Basic) {v : UInt64}
    (hv : e.eval env = some v) {n : ℕ} (hn : e.depth ≤ n) :
    ∃ x obj, e.simplify n = some (x, obj) ∧ x.eval env = some v ∧ obj.eval env = some v := by
  obtain ⟨x, obj, h⟩ := Expr.exists_simplify hn (Expr.folds_of_eval hbasic hv)
  obtain ⟨hx, hobj⟩ := Expr.eval_simplify h
  exact ⟨x, obj, h, hx.trans hv, hobj.trans hv⟩

/-- `(x + f(1 + 2)) * 4`, where the argument of the call is folded. -/
theorem Expr.simplify_eval_call :
    ∃ x obj, (Expr.bin .mul (.parens (.bin .add (.id "x")
        (.fcall "f" (.cons (.bin .add (.number 1) (.number 2) false) .nil)) false)) (.number 4)
        false).simplify 1 = some (x, obj) ∧
      x.eval ⟨fun _ => some 5, fun _ _ => none, fun _ vs => vs.head?, fun _ _ => none, fun _ => none⟩ =
        some 32 ∧
      obj.eval ⟨fun _ => some 5, fun _ _ => none, fun _ vs => vs.head?, fun _ _ => none,
        fun _ => none⟩ = some 32 := by
  have hbasic : (Expr.bin .mul (.parens (.bin .add (.id "x")
      (.fcall "f" (.cons (.bin .add (.number 1) (.number 2) false) .nil)) false)) (.number 4)
      false).Basic := ⟨⟨trivial, ⟨trivial, trivial⟩, trivial⟩, trivial⟩
  exact Expr.simplify_eval hbasic rfl le_rfl

end Fsl.Ast
