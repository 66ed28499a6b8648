import Fsl.Compiler.ExprRewrite

/-!
# Rewriting the names of an expression

`ExprRewriteAll` builds a new tree, with copies of the expressions of a map for its names. It copies the
path of an `IdStruct` and the condition of a `CondVal` as they are; everywhere else this is substitution,
up to what simplification does.
-/

namespace Fsl.Ast

open Parse

section Visit

variable (arg : Expr → Option Expr) (σ : String → Option Expr)

mutual

/-- `ExprRewriteAll::apply` of a visitor that replaces names by copies of the expressions of a map. -/
def Expr.applyWith : Expr → Option Expr
  | .id s => ((σ s).getD (.id s)).copyWith arg
  | .idStruct p => (Expr.idStruct p).copyWith arg
  | .idArray s i _ _ => i.applyWith.map fun i' => .idArray s i' false false
  | .fcall s es => es.applyWith.bind fun es' =>
      (es'.mapM fun e => (e.simplifyWith arg).map Prod.fst).map (.fcall s)
  | .parens e => e.applyWith.map .parens
  | .boolean b => (Expr.boolean b).copyWith arg
  | .number n => (Expr.number n).copyWith arg
  | .bin o l r flag => l.applyWith.bind fun l' => r.applyWith.bind fun r' =>
      -- `setLHS` and `setRHS` of a copy
      ((Expr.bin o l r flag).copyWith arg).bind fun _ => (l'.simplifyWith arg).bind fun p =>
        (r'.simplifyWith arg).map fun q => .bin o p.1 q.1 false
  | .condVal c a b => (c.copyWith arg).bind fun c' => a.applyWith.bind fun a' =>
      b.applyWith.map fun b' => .condVal c' a' b'
termination_by structural e => e

def ExprList.applyWith : ExprList → Option ExprList
  | .nil => some .nil
  | .cons e es => e.applyWith.bind fun e' => es.applyWith.map (.cons e')
termination_by structural es => es

end

/-- `ExprRewriteAll::apply` where calls are nested at most `n` deep. -/
def Expr.apply (n : ℕ) (e : Expr) : Option Expr := e.applyWith (argWith n) σ

mutual

/-- The names that the visitor gets to are replaced. -/
def Expr.inject : Expr → Expr
  | .id s => (σ s).getD (.id s)
  | .idStruct p => .idStruct p
  | .idArray s i fixed nofollow => .idArray s i.inject fixed nofollow
  | .fcall s es => .fcall s es.inject
  | .parens e => .parens e.inject
  | .boolean b => .boolean b
  | .number n => .number n
  | .bin o l r flag => .bin o l.inject r.inject flag
  | .condVal c a b => .condVal c a.inject b.inject
termination_by structural e => e

def ExprList.inject : ExprList → ExprList
  | .nil => .nil
  | .cons e es => .cons e.inject es.inject
termination_by structural es => es

end

mutual

/-- Every name of the map is replaced. -/
def Expr.substIds : Expr → Expr
  | .id s => (σ s).getD (.id s)
  | .idStruct p => .idStruct p.substIds
  | .idArray s i fixed nofollow => .idArray s i.substIds fixed nofollow
  | .fcall s es => .fcall s es.substIds
  | .parens e => .parens e.substIds
  | .boolean b => .boolean b
  | .number n => .number n
  | .bin o l r flag => .bin o l.substIds r.substIds flag
  | .condVal c a b => .condVal c.substIds a.substIds b.substIds
termination_by structural e => e

def ExprList.substIds : ExprList → ExprList
  | .nil => .nil
  | .cons e es => .cons e.substIds es.substIds
termination_by structural es => es

def CondExpr.substIds : CondExpr → CondExpr
  | .cmp o l r => .cmp o l.substIds r.substIds
  | .func s es => .func s es.substIds
  | .not c => .not c.substIds
  | .and a b => .and a.substIds b.substIds
  | .or a b => .or a.substIds b.substIds
termination_by structural c => c

end

end Visit

/-! ## Names -/

/-- Where a name is: where the visitor gets to, in a path or a condition, or that of an array or a
function. -/
inductive Place
  | seen
  | hidden
  | head
  deriving DecidableEq, Repr

/-- A name in a path or a condition. -/
def hide (q : Place × String) : Place × String := (if q.1 = .seen then .hidden else q.1, q.2)

mutual

/-- The names in a tree. -/
def Expr.names : Expr → List (Place × String)
  | .id s => [(.seen, s)]
  | .idStruct p => p.names.map hide
  | .idArray s i _ _ => (.head, s) :: i.names
  | .fcall s es => (.head, s) :: es.names
  | .parens e => e.names
  | .boolean _ => []
  | .number _ => []
  | .bin _ l r _ => l.names ++ r.names
  | .condVal c a b => c.names.map hide ++ (a.names ++ b.names)
termination_by structural e => e

def ExprList.names : ExprList → List (Place × String)
  | .nil => []
  | .cons e es => e.names ++ es.names
termination_by structural es => es

def CondExpr.names : CondExpr → List (Place × String)
  | .cmp _ l r => l.names ++ r.names
  | .func _ es => es.names
  | .not c => c.names
  | .and a b => a.names ++ b.names
  | .or a b => a.names ++ b.names
termination_by structural c => c

end

theorem names_foldNumbers (o : Op) (l r : Expr) :
    (foldNumbers o l r).names = l.names ++ r.names := by
  rw [foldNumbers]
  split
  case h_1 a b hnum =>
    obtain ⟨rfl, rfl⟩ := toNumbers_eq_some hnum
    cases o.doOp a.toNat b.toNat <;> rfl
  case h_2 => rfl

mutual

/-- Folding drops no name. -/
theorem Expr.names_norm : ∀ e : Expr, e.norm.names = e.names
  | .id _ => rfl
  | .idStruct p => by rw [Expr.norm, Expr.names, Expr.names, ExprList.names_norm p]
  | .idArray _ i _ _ => by rw [Expr.norm, Expr.names, Expr.names, Expr.names_norm i]
  | .fcall _ es => by rw [Expr.norm, Expr.names, Expr.names, ExprList.names_norm es]
  | .parens e => by rw [Expr.norm, Expr.names, Expr.names, Expr.names_norm e]
  | .boolean _ => rfl
  | .number _ => rfl
  | .bin _ l r _ => by
    rw [Expr.norm, names_foldNumbers, Expr.names, Expr.names_norm l, Expr.names_norm r]
  | .condVal c a b => by
    rw [Expr.norm, Expr.names, Expr.names, CondExpr.names_norm c, Expr.names_norm a,
      Expr.names_norm b]

theorem ExprList.names_norm : ∀ es : ExprList, es.norm.names = es.names
  | .nil => rfl
  | .cons e es => by
    rw [ExprList.norm, ExprList.names, ExprList.names, Expr.names_norm e, ExprList.names_norm es]

theorem CondExpr.names_norm : ∀ c : CondExpr, c.norm.names = c.names
  | .cmp _ l r => by
    rw [CondExpr.norm, CondExpr.names, CondExpr.names, Expr.names_norm l, Expr.names_norm r]
  | .func _ es => by rw [CondExpr.norm, CondExpr.names, CondExpr.names, ExprList.names_norm es]
  | .not c => by rw [CondExpr.norm, CondExpr.names, CondExpr.names, CondExpr.names_norm c]
  | .and a b => by
    rw [CondExpr.norm, CondExpr.names, CondExpr.names, CondExpr.names_norm a,
      CondExpr.names_norm b]
  | .or a b => by
    rw [CondExpr.norm, CondExpr.names, CondExpr.names, CondExpr.names_norm a,
      CondExpr.names_norm b]

end

theorem Expr.names_of_norm {e e' : Expr} (h : e'.norm = e.norm) : e'.names = e.names :=
  (Expr.names_norm e').symm.trans (h ▸ Expr.names_norm e)

/-! ## The visitor substitutes -/

section Norm

variable {arg : Expr → Option Expr} {σ : String → Option Expr}
  (harg : ∀ e e', arg e = some e' → e'.norm = e.norm)

include harg

/-- The constructor of `FCall` simplifies its arguments. -/
theorem norm_simplified (e e' : Expr) (h : (e.simplifyWith arg).map Prod.fst = some e') :
    e'.norm = e.norm := by
  obtain ⟨p, hp, rfl⟩ := Option.map_eq_some_iff.mp h
  exact (Expr.norm_simplifyWith harg hp).1

omit harg

mutual

theorem Expr.norm_applyWith (harg : ∀ e e', arg e = some e' → e'.norm = e.norm) :
    ∀ {e e' : Expr}, e.applyWith arg σ = some e' →
    e'.norm = (e.inject σ).norm
  | .id _, _, h => Expr.norm_copyWith harg h
  | .idStruct _, _, h => Expr.norm_copyWith harg h
  | .idArray s i fixed nofollow, _, h => by
    obtain ⟨i', hi, rfl⟩ := Option.map_eq_some_iff.mp h
    rw [Expr.inject, Expr.norm, Expr.norm, Expr.norm_applyWith harg hi]
  | .fcall s es, _, h => by
    obtain ⟨es', hes, h⟩ := Option.bind_eq_some_iff.mp h
    obtain ⟨es'', hes', rfl⟩ := Option.map_eq_some_iff.mp h
    rw [Expr.inject, Expr.norm, Expr.norm, ExprList.norm_mapM (norm_simplified harg) hes',
      ExprList.norm_applyWith harg hes]
  | .parens e, _, h => by
    obtain ⟨e', he, rfl⟩ := Option.map_eq_some_iff.mp h
    rw [Expr.inject, Expr.norm, Expr.norm, Expr.norm_applyWith harg he]
  | .boolean _, _, h => Expr.norm_copyWith harg h
  | .number _, _, h => Expr.norm_copyWith harg h
  | .bin o l r flag, _, h => by
    obtain ⟨l', hl, h⟩ := Option.bind_eq_some_iff.mp h
    obtain ⟨r', hr, h⟩ := Option.bind_eq_some_iff.mp h
    obtain ⟨c, -, h⟩ := Option.bind_eq_some_iff.mp h
    obtain ⟨p, hp, h⟩ := Option.bind_eq_some_iff.mp h
    obtain ⟨q, hq, rfl⟩ := Option.map_eq_some_iff.mp h
    rw [Expr.inject, Expr.norm, Expr.norm, (Expr.norm_simplifyWith harg hp).1,
      (Expr.norm_simplifyWith harg hq).1, Expr.norm_applyWith harg hl, Expr.norm_applyWith harg hr]
  | .condVal c a b, _, h => by
    obtain ⟨c', hc, h⟩ := Option.bind_eq_some_iff.mp h
    obtain ⟨a', ha, h⟩ := Option.bind_eq_some_iff.mp h
    obtain ⟨b', hb, rfl⟩ := Option.map_eq_some_iff.mp h
    rw [Expr.inject, Expr.norm, Expr.norm, CondExpr.norm_copyWith harg hc, Expr.norm_applyWith harg ha,
      Expr.norm_applyWith harg hb]

theorem ExprList.norm_applyWith (harg : ∀ e e', arg e = some e' → e'.norm = e.norm) :
    ∀ {es es' : ExprList}, es.applyWith arg σ = some es' →
    es'.norm = (es.inject σ).norm
  | .nil, _, h => by
    cases h
    rfl
  | .cons e es, _, h => by
    obtain ⟨e', he, h⟩ := Option.bind_eq_some_iff.mp h
    obtain ⟨es', hes, rfl⟩ := Option.map_eq_some_iff.mp h
    rw [ExprList.inject, ExprList.norm, ExprList.norm, Expr.norm_applyWith harg he,
      ExprList.norm_applyWith harg hes]

end

end Norm

/-! ## The visitor returns -/

section Total

variable {arg : Expr → Option Expr} {σ : String → Option Expr} {n : ℕ} (harg : TotalBelow arg n)

include harg

theorem TotalBelow.simplified : TotalBelow (fun e => (e.simplifyWith arg).map Prod.fst) (n + 1) := by
  refine ⟨fun e hdepth hfolds => ?_, norm_simplified harg.norm⟩
  obtain ⟨p, hp, htame⟩ := Expr.exists_simplifyWith harg (Nat.le_of_lt_succ hdepth) hfolds
  exact ⟨p.1, Option.map_eq_some_iff.mpr ⟨p, hp, rfl⟩, htame⟩

omit harg

mutual

theorem Expr.exists_applyWith (harg : TotalBelow arg n) :
    ∀ {e : Expr}, e.depth ≤ n → e.Folds → (e.inject σ).depth ≤ n →
    (e.inject σ).Folds → ∃ e', e.applyWith arg σ = some e' ∧ e'.Tamer (e.inject σ)
  | .id _, _, _, hdepth, hfolds => Expr.exists_copyWith harg hdepth hfolds
  | .idStruct _, _, _, hdepth, hfolds => Expr.exists_copyWith harg hdepth hfolds
  | .idArray _ i _ _, hdepth, hfolds, hdepth', hfolds' => by
    obtain ⟨i', hi, htame⟩ := Expr.exists_applyWith harg (e := i) hdepth hfolds hdepth' hfolds'
    exact ⟨_, Option.map_eq_some_iff.mpr ⟨i', hi, rfl⟩, htame⟩
  | .fcall _ es, hdepth, hfolds, hdepth', hfolds' => by
    obtain ⟨es', hes, hlt, hfoldss⟩ := ExprList.exists_applyWith harg (l := es)
      ((Nat.le_succ _).trans hdepth) hfolds ((Nat.le_succ _).trans hdepth') hfolds'
    have hdepths : es'.depth < n + 1 :=
      Nat.lt_succ_of_le (hlt.trans ((Nat.le_succ _).trans hdepth'))
    obtain ⟨es'', hes', hlt', hfoldss'⟩ := ExprList.exists_mapM harg.simplified hdepths hfoldss
    exact ⟨_, Option.bind_eq_some_iff.mpr ⟨es', hes, Option.map_eq_some_iff.mpr ⟨es'', hes', rfl⟩⟩,
      Nat.succ_le_succ (hlt'.trans hlt), hfoldss'⟩
  | .parens e, hdepth, hfolds, hdepth', hfolds' => by
    obtain ⟨e', he, htame⟩ := Expr.exists_applyWith harg (e := e) hdepth hfolds hdepth' hfolds'
    exact ⟨_, Option.map_eq_some_iff.mpr ⟨e', he, rfl⟩, htame⟩
  | .boolean _, _, _, hdepth, hfolds => Expr.exists_copyWith harg hdepth hfolds
  | .number _, _, _, hdepth, hfolds => Expr.exists_copyWith harg hdepth hfolds
  | .bin o l r flag, hdepth, hfolds, hdepth', ⟨hfolds', hfoldable⟩ => by
    obtain ⟨hdepthl, hdepthr⟩ := max_le_iff.mp hdepth
    obtain ⟨hdepthl', hdepthr'⟩ := max_le_iff.mp hdepth'
    obtain ⟨c, hc, -⟩ := Expr.exists_copyWith harg hdepth hfolds
    obtain ⟨l', hl, hltl, hfoldsl⟩ :=
      Expr.exists_applyWith harg hdepthl hfolds.1.1 hdepthl' hfolds'.1
    obtain ⟨r', hr, hltr, hfoldsr⟩ :=
      Expr.exists_applyWith harg hdepthr hfolds.1.2 hdepthr' hfolds'.2
    obtain ⟨p, hp, hltp, hfoldsp⟩ := Expr.exists_simplifyWith harg (hltl.trans hdepthl') hfoldsl
    obtain ⟨q, hq, hltq, hfoldsq⟩ := Expr.exists_simplifyWith harg (hltr.trans hdepthr') hfoldsr
    refine ⟨.bin o p.1 q.1 false, ?_, max_le_max (hltp.trans hltl) (hltq.trans hltr),
      ⟨hfoldsp, hfoldsq⟩, ?_⟩
    · rw [Expr.applyWith, hl, Option.bind_some, hr, Option.bind_some, hc, Option.bind_some, hp,
        Option.bind_some, hq]
      rfl
    · rw [(Expr.norm_simplifyWith harg.norm hp).1, (Expr.norm_simplifyWith harg.norm hq).1,
        Expr.norm_applyWith harg.norm hl, Expr.norm_applyWith harg.norm hr]
      exact hfoldable
  | .condVal c a b, hdepth, hfolds, hdepth', hfolds' => by
    obtain ⟨hdepthc, hdepth⟩ := max_le_iff.mp hdepth
    obtain ⟨hdeptha, hdepthb⟩ := max_le_iff.mp hdepth
    obtain ⟨hdeptha', hdepthb'⟩ := max_le_iff.mp (max_le_iff.mp hdepth').2
    obtain ⟨c', hc, hltc, hfoldsc⟩ := CondExpr.exists_copyWith harg hdepthc hfolds.1
    obtain ⟨a', ha, hlta, hfoldsa⟩ :=
      Expr.exists_applyWith harg hdeptha hfolds.2.1 hdeptha' hfolds'.2.1
    obtain ⟨b', hb, hltb, hfoldsb⟩ :=
      Expr.exists_applyWith harg hdepthb hfolds.2.2 hdepthb' hfolds'.2.2
    refine ⟨.condVal c' a' b', ?_, max_le_max hltc (max_le_max hlta hltb), hfoldsc, hfoldsa,
      hfoldsb⟩
    rw [Expr.applyWith, hc, ha, hb]
    rfl

theorem ExprList.exists_applyWith (harg : TotalBelow arg n) : ∀ {l : ExprList}, l.depth ≤ n → l.Folds →
    (l.inject σ).depth ≤ n → (l.inject σ).Folds →
    ∃ l', l.applyWith arg σ = some l' ∧ l'.depth ≤ (l.inject σ).depth ∧ l'.Folds
  | .nil, _, _, _, _ => ⟨.nil, rfl, le_rfl, trivial⟩
  | .cons e es, hdepth, hfolds, hdepth', hfolds' => by
    obtain ⟨hdepthe, hdepths⟩ := max_le_iff.mp hdepth
    obtain ⟨hdepthe', hdepths'⟩ := max_le_iff.mp hdepth'
    obtain ⟨e', he, hlte, hfoldse⟩ := Expr.exists_applyWith harg hdepthe hfolds.1 hdepthe' hfolds'.1
    obtain ⟨es', hes, hlts, hfoldss⟩ :=
      ExprList.exists_applyWith harg hdepths hfolds.2 hdepths' hfolds'.2
    refine ⟨.cons e' es', ?_, max_le_max hlte hlts, hfoldse, hfoldss⟩
    rw [ExprList.applyWith, he, hes]
    rfl

end

end Total

/-! ## Names that are left -/

section Names

variable {σ : String → Option Expr}

/-- What a name becomes. -/
def injectName (σ : String → Option Expr) (q : Place × String) : List (Place × String) :=
  if q.1 = .seen then ((σ q.2).getD (.id q.2)).names else [q]

theorem injectName_hide (q : Place × String) : injectName σ (hide q) = [hide q] := by
  rw [injectName, hide, if_neg]
  split
  · exact Place.noConfusion
  · assumption

/-- Nothing is replaced in a path or a condition. -/
theorem flatMap_hide (xs : List (Place × String)) :
    (xs.map hide).flatMap (injectName σ) = xs.map hide := by
  rw [List.flatMap_map]
  simp only [injectName_hide]
  exact List.flatMap_pure_eq_map hide xs

mutual

theorem Expr.names_inject : ∀ e : Expr, (e.inject σ).names = e.names.flatMap (injectName σ)
  | .id s => (List.append_nil _).symm
  | .idStruct p => (flatMap_hide _).symm
  | .idArray s i _ _ => congrArg ((Place.head, s) :: ·) (Expr.names_inject i)
  | .fcall s es => congrArg ((Place.head, s) :: ·) (ExprList.names_inject es)
  | .parens e => Expr.names_inject e
  | .boolean _ => rfl
  | .number _ => rfl
  | .bin _ l r _ => by
    rw [Expr.inject, Expr.names, Expr.names, List.flatMap_append, Expr.names_inject l,
      Expr.names_inject r]
  | .condVal c a b => by
    rw [Expr.inject, Expr.names, Expr.names, List.flatMap_append, List.flatMap_append,
      flatMap_hide, Expr.names_inject a, Expr.names_inject b]

theorem ExprList.names_inject : ∀ es : ExprList,
    (es.inject σ).names = es.names.flatMap (injectName σ)
  | .nil => rfl
  | .cons e es => by
    rw [ExprList.inject, ExprList.names, ExprList.names, List.flatMap_append,
      Expr.names_inject e, ExprList.names_inject es]

end

/-- A name of the result is one that the visitor did not get to, or comes from one that it got to. -/
theorem Expr.mem_names_inject {e : Expr} {q : Place × String} : q ∈ (e.inject σ).names ↔
    q ∈ e.names ∧ q.1 ≠ .seen ∨ ∃ y, (.seen, y) ∈ e.names ∧ q ∈ ((σ y).getD (.id y)).names := by
  rw [Expr.names_inject, List.mem_flatMap]
  constructor
  · rintro ⟨⟨pl, y⟩, hy, hq⟩
    rw [injectName] at hq
    split at hq
    case isTrue h => exact .inr ⟨y, h ▸ hy, hq⟩
    case isFalse h =>
      obtain rfl := List.mem_singleton.mp hq
      exact .inl ⟨hy, h⟩
  · rintro (⟨hq, hseen⟩ | ⟨y, hy, hq⟩)
    · refine ⟨q, hq, ?_⟩
      rw [injectName, if_neg hseen]
      exact List.mem_singleton_self q
    · exact ⟨(.seen, y), hy, hq⟩

/-- The names that are expressions. -/
def AllIds (P : String → Prop) (xs : List (Place × String)) : Prop :=
  ∀ q ∈ xs, q.1 ≠ .head → P q.2

section AllIds

variable {P : String → Prop}

theorem AllIds.append {xs ys : List (Place × String)} (h : AllIds P (xs ++ ys)) :
    AllIds P xs ∧ AllIds P ys := List.forall_mem_append.mp h

theorem AllIds.tail {q : Place × String} {xs : List (Place × String)} (h : AllIds P (q :: xs)) :
    AllIds P xs := fun q' hq => h q' (List.mem_cons_of_mem q hq)

theorem AllIds.of_hide {xs : List (Place × String)}
    (h : ∀ q ∈ xs.map hide, q.1 = .hidden → P q.2) : AllIds P xs := by
  intro q hq hhead
  refine h (hide q) (List.mem_map_of_mem hq) ?_
  rw [hide]
  obtain ⟨pl, s⟩ := q
  cases pl with
  | seen => rfl
  | hidden => rfl
  | head => exact absurd rfl hhead

theorem AllIds.hidden {xs : List (Place × String)} (h : AllIds P (xs.map hide)) : AllIds P xs := by
  refine AllIds.of_hide fun q hq hhidden => h q hq ?_
  rw [hhidden]
  exact Place.noConfusion

end AllIds

/-- No name that is an expression is in the map. -/
abbrev Unmapped (σ : String → Option Expr) (xs : List (Place × String)) : Prop :=
  AllIds (fun s => σ s = none) xs

mutual

theorem Expr.substIds_unmapped : ∀ {e : Expr}, Unmapped σ e.names → e.substIds σ = e
  | .id s, h => by
    rw [Expr.substIds, h (.seen, s) (List.mem_singleton_self _) Place.noConfusion, Option.getD_none]
  | .idStruct p, h => by rw [Expr.substIds, ExprList.substIds_unmapped h.hidden]
  | .idArray _ i _ _, h => by rw [Expr.substIds, Expr.substIds_unmapped (e := i) h.tail]
  | .fcall _ es, h => by rw [Expr.substIds, ExprList.substIds_unmapped (l := es) h.tail]
  | .parens e, h => by rw [Expr.substIds, Expr.substIds_unmapped (e := e) h]
  | .boolean _, _ => rfl
  | .number _, _ => rfl
  | .bin _ l r _, h => by
    obtain ⟨hl, hr⟩ := h.append
    rw [Expr.substIds, Expr.substIds_unmapped hl, Expr.substIds_unmapped hr]
  | .condVal c a b, h => by
    obtain ⟨hc, h⟩ := h.append
    obtain ⟨ha, hb⟩ := h.append
    rw [Expr.substIds, CondExpr.substIds_unmapped hc.hidden, Expr.substIds_unmapped ha,
      Expr.substIds_unmapped hb]

theorem ExprList.substIds_unmapped : ∀ {l : ExprList}, Unmapped σ l.names → l.substIds σ = l
  | .nil, _ => rfl
  | .cons e es, h => by
    obtain ⟨he, hes⟩ := h.append
    rw [ExprList.substIds, Expr.substIds_unmapped he, ExprList.substIds_unmapped hes]

theorem CondExpr.substIds_unmapped : ∀ {c : CondExpr}, Unmapped σ c.names → c.substIds σ = c
  | .cmp _ l r, h => by
    obtain ⟨hl, hr⟩ := h.append
    rw [CondExpr.substIds, Expr.substIds_unmapped hl, Expr.substIds_unmapped hr]
  | .func _ es, h => by rw [CondExpr.substIds, ExprList.substIds_unmapped (l := es) h]
  | .not c, h => by rw [CondExpr.substIds, CondExpr.substIds_unmapped (c := c) h]
  | .and a b, h => by
    obtain ⟨ha, hb⟩ := h.append
    rw [CondExpr.substIds, CondExpr.substIds_unmapped ha, CondExpr.substIds_unmapped hb]
  | .or a b, h => by
    obtain ⟨ha, hb⟩ := h.append
    rw [CondExpr.substIds, CondExpr.substIds_unmapped ha, CondExpr.substIds_unmapped hb]

end

/-- No name of the map is in a path or a condition. -/
def NoneHidden (σ : String → Option Expr) (xs : List (Place × String)) : Prop :=
  ∀ q ∈ xs, q.1 = .hidden → σ q.2 = none

theorem NoneHidden.append {xs ys : List (Place × String)} (h : NoneHidden σ (xs ++ ys)) :
    NoneHidden σ xs ∧ NoneHidden σ ys := List.forall_mem_append.mp h

theorem NoneHidden.tail {q : Place × String} {xs : List (Place × String)}
    (h : NoneHidden σ (q :: xs)) : NoneHidden σ xs := fun q' hq => h q' (List.mem_cons_of_mem q hq)

mutual

/-- Then every name of the map is replaced. -/
theorem Expr.inject_eq : ∀ {e : Expr}, NoneHidden σ e.names → e.inject σ = e.substIds σ
  | .id _, _ => rfl
  | .idStruct p, h => by rw [Expr.inject, Expr.substIds, ExprList.substIds_unmapped (.of_hide h)]
  | .idArray _ i _ _, h => by rw [Expr.inject, Expr.substIds, Expr.inject_eq (e := i) h.tail]
  | .fcall _ es, h => by rw [Expr.inject, Expr.substIds, ExprList.inject_eq (l := es) h.tail]
  | .parens e, h => by rw [Expr.inject, Expr.substIds, Expr.inject_eq (e := e) h]
  | .boolean _, _ => rfl
  | .number _, _ => rfl
  | .bin _ l r _, h => by
    obtain ⟨hl, hr⟩ := h.append
    rw [Expr.inject, Expr.substIds, Expr.inject_eq hl, Expr.inject_eq hr]
  | .condVal c a b, h => by
    obtain ⟨hc, h⟩ := h.append
    obtain ⟨ha, hb⟩ := h.append
    rw [Expr.inject, Expr.substIds, CondExpr.substIds_unmapped (.of_hide hc), Expr.inject_eq ha,
      Expr.inject_eq hb]

theorem ExprList.inject_eq : ∀ {l : ExprList}, NoneHidden σ l.names →
    l.inject σ = l.substIds σ
  | .nil, _ => rfl
  | .cons e es, h => by
    obtain ⟨he, hes⟩ := h.append
    rw [ExprList.inject, ExprList.substIds, Expr.inject_eq he, ExprList.inject_eq hes]

end

/-- A name of the map is left exactly where one is hidden, if the expressions of the map have none. -/
theorem Expr.unmapped_inject {e : Expr} (hclosed : ∀ s y, σ s = some y → Unmapped σ y.names) :
    Unmapped σ (e.inject σ).names ↔ NoneHidden σ e.names := by
  constructor
  · intro h q hq hhidden
    have hseen : q.1 ≠ .seen := by
      rw [hhidden]
      exact Place.noConfusion
    have hhead : q.1 ≠ .head := by
      rw [hhidden]
      exact Place.noConfusion
    exact h q (Expr.mem_names_inject.mpr (.inl ⟨hq, hseen⟩)) hhead
  · intro h q hq hhead
    rcases Expr.mem_names_inject.mp hq with ⟨hq, hseen⟩ | ⟨y, -, hq⟩
    · refine h q hq ?_
      cases hpl : q.1 with
      | seen => exact absurd hpl hseen
      | hidden => rfl
      | head => exact absurd hpl hhead
    · cases hy : σ y with
      | none =>
        rw [hy, Option.getD_none] at hq
        rw [List.mem_singleton.mp hq, hy]
      | some d =>
        rw [hy, Option.getD_some] at hq
        exact hclosed y d hy q hq hhead

end Names

/-! ## Rewriting and substitution -/

/-- `rewriteReplace` returns the substitution exactly where everything is reached, and then what it
returns has the value of the substitution. So has what the visitor returns where no name of its map is in
a path or in a condition; such a name is left in the result. -/
theorem Expr.rewriting_iff {n : ℕ} {e t r : Expr} {σ : String → Option Expr}
    (hr : r.depth ≤ n ∧ r.Folds) (he : e.depth ≤ n ∧ e.Folds)
    (hinject : (e.inject σ).depth ≤ n ∧ (e.inject σ).Folds) :
    (∃ x obj e', r.simplify n = some (x, obj) ∧ e.rewriteReplace n t r = some e' ∧
      (e' = Expr.subst t x e ↔ Expr.Reached t x e) ∧
      (Expr.Reached t x e → ∀ env, e'.eval env = (Expr.subst t r e).eval env)) ∧
    ∃ e', e.apply σ n = some e' ∧
      (NoneHidden σ e.names → ∀ env, e'.eval env = (e.substIds σ).eval env) ∧
      ((∀ s y, σ s = some y → Unmapped σ y.names) →
        (Unmapped σ e'.names ↔ NoneHidden σ e.names)) := by
  constructor
  · obtain ⟨x, obj, hx⟩ := Expr.exists_simplify hr.1 hr.2
    obtain ⟨e', he', hiff, heval⟩ := Expr.rewriteReplace_spec hx e t
    refine ⟨x, obj, e', hx, he', hiff, fun hreached env => ?_⟩
    rw [hiff.mpr hreached, heval env]
  · obtain ⟨e', happly, -⟩ :=
      Expr.exists_applyWith (totalBelow_argWith n) he.1 he.2 hinject.1 hinject.2
    have hnorm : e'.norm = (e.inject σ).norm := Expr.norm_applyWith norm_argWith happly
    refine ⟨e', happly, fun hhidden env => ?_, fun hclosed => ?_⟩
    · rw [(Expr.eval_of_norm hnorm).1, Expr.inject_eq hhidden]
    · rw [Expr.names_of_norm hnorm]
      exact Expr.unmapped_inject hclosed

/-- `x + f(x)`, with `2 * y` for `x`, and with `3`. -/
theorem Expr.rewriting_iff_call :
    (∃ x obj e', (Expr.bin .mul (.number 2) (.id "y") false).simplify 1 = some (x, obj) ∧
      (Expr.bin .add (.id "x") (.fcall "f" (.cons (.id "x") .nil)) false).rewriteReplace 1 (.id "x")
        (.bin .mul (.number 2) (.id "y") false) = some e' ∧
      (e' = Expr.subst (.id "x") x (.bin .add (.id "x") (.fcall "f" (.cons (.id "x") .nil)) false) ↔
        Expr.Reached (.id "x") x
          (.bin .add (.id "x") (.fcall "f" (.cons (.id "x") .nil)) false)) ∧
      (Expr.Reached (.id "x") x (.bin .add (.id "x") (.fcall "f" (.cons (.id "x") .nil)) false) →
        ∀ env, e'.eval env = (Expr.subst (.id "x") (.bin .mul (.number 2) (.id "y") false)
          (.bin .add (.id "x") (.fcall "f" (.cons (.id "x") .nil)) false)).eval env)) ∧
    ∃ e', (Expr.bin .add (.id "x") (.fcall "f" (.cons (.id "x") .nil)) false).apply
        (fun s => if s = "x" then some (.number 3) else none) 1 = some e' ∧
      ∀ env, e'.eval env = ((Expr.bin .add (.id "x") (.fcall "f" (.cons (.id "x") .nil))
        false).substIds (fun s => if s = "x" then some (.number 3) else none)).eval env := by
  have hr : (Expr.bin .mul (.number 2) (.id "y") false).Folds :=
    ⟨⟨trivial, trivial⟩, fun a b h => by cases h⟩
  have he : (Expr.bin .add (.id "x") (.fcall "f" (.cons (.id "x") .nil)) false).Folds :=
    ⟨⟨trivial, trivial, trivial⟩, fun a b h => by cases h⟩
  have hinject : ((Expr.bin .add (.id "x") (.fcall "f" (.cons (.id "x") .nil)) false).inject
      (fun s => if s = "x" then some (.number 3) else none)).Folds :=
    ⟨⟨trivial, trivial, trivial⟩, fun a b h => by cases h⟩
  obtain ⟨hreplace, e', happly, heval, -⟩ :=
    Expr.rewriting_iff (n := 1) (t := .id "x") ⟨by decide, hr⟩ ⟨by decide, he⟩ ⟨by decide, hinject⟩
  refine ⟨hreplace, e', happly, heval ?_⟩
  unfold NoneHidden
  decide

/-- `x = 1 ? x : 0` -/
def condOnX : Expr := .condVal (.cmp .eq (.id "x") (.number 1)) (.id "x") (.number 0)

/-- Nothing is defined but what `f` returns, its argument increased. -/
def onlyF : Env where
  id := fun _ => none
  array := fun _ _ => none
  call := fun _ vs => vs.head?.map (· + 1)
  test := fun _ _ => none
  path := fun _ => none

/-- With `1` for `x` the conditional is `1`, and so is `(x)` with `1` for `(x)`. `f(f(1))` is `2` with `1`
for `f(1)`. -/
theorem Expr.not_rewriting_condVal :
    (condOnX.rewriteReplace 0 (.id "x") (.number 1)).map (Expr.eval onlyF) = some none ∧
    (Expr.subst (.id "x") (.number 1) condOnX).eval onlyF = some 1 ∧
    (condOnX.apply (fun s => if s = "x" then some (.number 1) else none) 0).map (Expr.eval onlyF) =
      some none ∧
    (condOnX.substIds (fun s => if s = "x" then some (.number 1) else none)).eval onlyF = some 1 ∧
    ((Expr.parens (.id "x")).rewriteReplace 0 (.parens (.id "x")) (.number 1)).map
      (Expr.eval onlyF) = some none ∧
    (Expr.subst (.parens (.id "x")) (.number 1) (.parens (.id "x"))).eval onlyF = some 1 ∧
    ((Expr.fcall "f" (.cons (.fcall "f" (.cons (.number 1) .nil)) .nil)).rewriteReplace 0
      (.fcall "f" (.cons (.number 1) .nil)) (.number 1)).map (Expr.eval onlyF) = some (some 1) ∧
    (Expr.subst (.fcall "f" (.cons (.number 1) .nil)) (.number 1)
      (.fcall "f" (.cons (.fcall "f" (.cons (.number 1) .nil)) .nil))).eval onlyF = some 2 := by
  decide

end Fsl.Ast
