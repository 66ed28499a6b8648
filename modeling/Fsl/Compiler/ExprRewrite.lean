import Fsl.Compiler.ExprFold

/-!
# Rewriting expressions

`Expr::rewrite` goes through a tree in place, the operands first and then the tree itself. This is the
substitution of the target wherever it gets to. It goes neither into the path of an `IdStruct` nor into a
`CondVal`, it never replaces parentheses, and an operand may become the target by what was put into it.
-/

namespace Fsl.Ast

open Parse

/-! ## Equality -/

mutual

/-- `operator==`. The flags of an array and the condition of a `CondVal` are not compared. -/
def Expr.eq : Expr → Expr → Bool
  | .id s, .id s' => s == s'
  | .idStruct p, .idStruct p' => p.eq p'
  | .idArray s i _ _, .idArray s' i' _ _ => s == s' && i.eq i'
  | .fcall s es, .fcall s' es' => s == s' && es.eq es'
  | .parens e, .parens e' => e.eq e'
  | .boolean b, .boolean b' => b == b'
  | .number n, .number n' => n == n'
  | .bin o l r _, .bin o' l' r' _ => o == o' && l.eq l' && r.eq r'
  | .condVal _ t f, .condVal _ t' f' => t.eq t' && f.eq f'
  | _, _ => false
termination_by structural e => e

def ExprList.eq : ExprList → ExprList → Bool
  | .nil, .nil => true
  | .cons e es, .cons e' es' => e.eq e' && es.eq es'
  | _, _ => false
termination_by structural es => es

end

/-! ## `Expr::rewrite` -/

/-- `Expr::rewrite` of the class `Expr`: the expression to put in its place, if any, and the object.
`new` is what the replacement is simplified to. -/
def Expr.rewriteSelf (e t : Expr) (new : Option Expr) : Option (Option Expr × Expr) :=
  if e.eq t then new.map fun x => (some x, e) else some (none, e)

/-- What an operand is after its rewriting. -/
def replaced (p : Option Expr × Expr) : Expr := p.1.getD p.2

section Rewrite

variable (t : Expr) (new : Option Expr)

mutual

/-- `Expr::rewrite` -/
def Expr.rewrite : Expr → Option (Option Expr × Expr)
  | .bin o l r flag => l.rewrite.bind fun p => r.rewrite.bind fun q =>
      (Expr.bin o (replaced p) (replaced q) flag).rewriteSelf t new
  | .fcall s es => es.rewrite.bind fun es' => (Expr.fcall s es').rewriteSelf t new
  | .idArray s i fixed nofollow => i.rewrite.bind fun p =>
      (Expr.idArray s (replaced p) fixed nofollow).rewriteSelf t new
  | .parens e => e.rewrite.map fun p => (none, .parens (replaced p))
  | .id s => (Expr.id s).rewriteSelf t new
  | .idStruct p => (Expr.idStruct p).rewriteSelf t new
  | .boolean b => (Expr.boolean b).rewriteSelf t new
  | .number n => (Expr.number n).rewriteSelf t new
  | .condVal c a b => (Expr.condVal c a b).rewriteSelf t new
termination_by structural e => e

/-- `ExprList::rewrite` -/
def ExprList.rewrite : ExprList → Option ExprList
  | .nil => some .nil
  | .cons e es => e.rewrite.bind fun p => es.rewrite.map (.cons (replaced p))
termination_by structural es => es

end

end Rewrite

/-- `Expr::rewriteReplace` -/
def Expr.rewriteReplace (n : ℕ) (e t r : Expr) : Option Expr :=
  (Expr.rewrite t ((r.simplify n).map Prod.fst) e).map replaced

/-! ## Substitution -/

section Subst

variable (t x : Expr)

mutual

/-- Every occurrence of `t` is replaced by `x`. -/
def Expr.subst : Expr → Expr
  | .id s => if (Expr.id s).eq t then x else .id s
  | .idStruct p => if (Expr.idStruct p).eq t then x else .idStruct p.subst
  | .idArray s i fixed nofollow =>
    if (Expr.idArray s i fixed nofollow).eq t then x else .idArray s i.subst fixed nofollow
  | .fcall s es => if (Expr.fcall s es).eq t then x else .fcall s es.subst
  | .parens e => if (Expr.parens e).eq t then x else .parens e.subst
  | .boolean b => if (Expr.boolean b).eq t then x else .boolean b
  | .number n => if (Expr.number n).eq t then x else .number n
  | .bin o l r flag => if (Expr.bin o l r flag).eq t then x else .bin o l.subst r.subst flag
  | .condVal c a b => if (Expr.condVal c a b).eq t then x else .condVal c.subst a.subst b.subst
termination_by structural e => e

def ExprList.subst : ExprList → ExprList
  | .nil => .nil
  | .cons e es => .cons e.subst es.subst
termination_by structural es => es

def CondExpr.subst : CondExpr → CondExpr
  | .cmp o l r => .cmp o l.subst r.subst
  | .func s es => .func s es.subst
  | .not c => .not c.subst
  | .and a b => .and a.subst b.subst
  | .or a b => .or a.subst b.subst
termination_by structural c => c

end

mutual

/-- There is nothing to replace in the path of an `IdStruct`, in a `CondVal` or at parentheses, and no
operand becomes an occurrence of `t` by what is replaced in it. -/
def Expr.Reached : Expr → Prop
  | .id _ => True
  | .idStruct p => (Expr.idStruct p).eq t = true ∨ p = ExprList.subst t x p
  | .idArray s i fixed nofollow => (Expr.idArray s i fixed nofollow).eq t = true ∨
      i.Reached ∧ (Expr.idArray s (Expr.subst t x i) fixed nofollow).eq t = false
  | .fcall s es => (Expr.fcall s es).eq t = true ∨
      es.Reached ∧ (Expr.fcall s (ExprList.subst t x es)).eq t = false
  | .parens e => if (Expr.parens e).eq t then .parens e = x else e.Reached
  | .boolean _ => True
  | .number _ => True
  | .bin o l r flag => (Expr.bin o l r flag).eq t = true ∨
      (l.Reached ∧ r.Reached) ∧ (Expr.bin o (Expr.subst t x l) (Expr.subst t x r) flag).eq t = false
  | .condVal c a b => (Expr.condVal c a b).eq t = true ∨
      c = CondExpr.subst t x c ∧ a = Expr.subst t x a ∧ b = Expr.subst t x b
termination_by structural e => e

def ExprList.Reached : ExprList → Prop
  | .nil => True
  | .cons e es => e.Reached ∧ es.Reached
termination_by structural es => es

end

end Subst

/-! ## Sizes -/

mutual

/-- The size of a tree without its conditions, which `operator==` does not look at. -/
def Expr.size : Expr → ℕ
  | .id _ => 1
  | .idStruct p => p.size + 1
  | .idArray _ i _ _ => i.size + 1
  | .fcall _ es => es.size + 1
  | .parens e => e.size + 1
  | .boolean _ => 1
  | .number _ => 1
  | .bin _ l r _ => l.size + r.size + 1
  | .condVal _ a b => a.size + b.size + 1
termination_by structural e => e

def ExprList.size : ExprList → ℕ
  | .nil => 0
  | .cons e es => e.size + es.size
termination_by structural es => es

end

mutual

theorem Expr.size_eq : ∀ {e t : Expr}, e.eq t = true → e.size = t.size
  | .id _, .id _, _ => rfl
  | .idStruct p, .idStruct _, h => congrArg (· + 1) (ExprList.size_eq (l := p) h)
  | .idArray _ _ _ _, .idArray _ _ _ _, h =>
    congrArg (· + 1) (Expr.size_eq (Bool.and_eq_true_iff.mp h).2)
  | .fcall _ _, .fcall _ _, h => congrArg (· + 1) (ExprList.size_eq (Bool.and_eq_true_iff.mp h).2)
  | .parens e, .parens _, h => congrArg (· + 1) (Expr.size_eq (e := e) h)
  | .boolean _, .boolean _, _ => rfl
  | .number _, .number _, _ => rfl
  | .bin _ _ _ _, .bin _ _ _ _, h => by
    obtain ⟨h, hr⟩ := Bool.and_eq_true_iff.mp h
    have hl := (Bool.and_eq_true_iff.mp h).2
    rw [Expr.size, Expr.size, Expr.size_eq hl, Expr.size_eq hr]
  | .condVal _ _ _, .condVal _ _ _, h => by
    obtain ⟨ha, hb⟩ := Bool.and_eq_true_iff.mp h
    rw [Expr.size, Expr.size, Expr.size_eq ha, Expr.size_eq hb]

theorem ExprList.size_eq : ∀ {l t : ExprList}, l.eq t = true → l.size = t.size
  | .nil, .nil, _ => rfl
  | .cons _ _, .cons _ _, h => by
    obtain ⟨he, hes⟩ := Bool.and_eq_true_iff.mp h
    rw [ExprList.size, ExprList.size, Expr.size_eq he, ExprList.size_eq hes]

end

section Small

variable {t : Expr} {new : Option Expr}

theorem rewriteSelf_of_ne {e : Expr} (h : e.eq t = false) : e.rewriteSelf t new = some (none, e) := by
  rw [Expr.rewriteSelf, h]
  rfl

theorem rewriteSelf_small {e : Expr} (h : e.size < t.size) : e.rewriteSelf t new = some (none, e) :=
  rewriteSelf_of_ne (Bool.eq_false_iff.mpr fun heq => h.ne (Expr.size_eq heq))

mutual

/-- Nothing happens to a tree that is smaller than the target. -/
theorem Expr.rewrite_small : ∀ {e : Expr}, e.size < t.size → Expr.rewrite t new e = some (none, e)
  | .id _, h => rewriteSelf_small h
  | .idStruct _, h => rewriteSelf_small h
  | .idArray _ i _ _, h => by
    have hi : i.size < t.size := (Nat.lt_succ_self _).trans h
    rw [Expr.rewrite, Expr.rewrite_small hi]
    exact rewriteSelf_small h
  | .fcall _ es, h => by
    have hes : es.size < t.size := (Nat.lt_succ_self _).trans h
    rw [Expr.rewrite, ExprList.rewrite_small hes]
    exact rewriteSelf_small h
  | .parens e, h => by
    have he : e.size < t.size := (Nat.lt_succ_self _).trans h
    rw [Expr.rewrite, Expr.rewrite_small he]
    rfl
  | .boolean _, h => rewriteSelf_small h
  | .number _, h => rewriteSelf_small h
  | .bin o l r flag, h => by
    have hsize : (Expr.bin o l r flag).size = l.size + r.size + 1 := rfl
    have hl : l.size < t.size := by omega
    have hr : r.size < t.size := by omega
    rw [Expr.rewrite, Expr.rewrite_small hl, Option.bind_some, Expr.rewrite_small hr]
    exact rewriteSelf_small h
  | .condVal _ _ _, h => rewriteSelf_small h

theorem ExprList.rewrite_small : ∀ {es : ExprList}, es.size < t.size →
    ExprList.rewrite t new es = some es
  | .nil, _ => rfl
  | .cons e es, h => by
    have hsize : (ExprList.cons e es).size = e.size + es.size := rfl
    have he : e.size < t.size := by omega
    have hes : es.size < t.size := by omega
    rw [ExprList.rewrite, Expr.rewrite_small he, Option.bind_some, ExprList.rewrite_small hes]
    rfl

end

end Small

/-! ## What `rewrite` does -/

section Spec

variable {t x : Expr}

/-- A tree `e` whose operands were rewritten to those of `e'`, where substitution makes `e''` of it. -/
theorem rewriteSelf_spec {e e' e'' : Expr} {R : Prop} (hself : e.eq t = true → e' = e)
    (hsize : e' = e ∨ x.size < e''.size) (hR : e' = e'' ↔ R) :
    ∃ p, e'.rewriteSelf t (some x) = some p ∧
      (p = (none, e) ∨ x.size ≤ (if e.eq t then x else e'').size) ∧
      (replaced p = (if e.eq t then x else e'') ↔ e.eq t = true ∨ R ∧ e''.eq t = false) := by
  cases heq : e.eq t with
  | true =>
    obtain rfl := hself heq
    refine ⟨(some x, e'), ?_, .inr le_rfl, iff_of_true rfl (.inl rfl)⟩
    rw [Expr.rewriteSelf, heq]
    rfl
  | false =>
    cases heq' : e'.eq t with
    | false =>
      refine ⟨(none, e'), rewriteSelf_of_ne heq', ?_, ?_⟩
      · exact hsize.imp (congrArg (Prod.mk none)) le_of_lt
      · constructor
        · intro (h : e' = e'')
          exact .inr ⟨hR.mp h, h ▸ heq'⟩
        · rintro (h | ⟨h, -⟩)
          · exact absurd h Bool.false_ne_true
          · exact hR.mpr h
    | true =>
      -- something was put into an operand, so that `e''` is larger than what was put there
      have hne : e' ≠ e := fun h => Bool.false_ne_true (heq.symm.trans (h ▸ heq'))
      have hlt : x.size < e''.size := hsize.resolve_left hne
      refine ⟨(some x, e'), ?_, .inr hlt.le, iff_of_false ?_ ?_⟩
      · rw [Expr.rewriteSelf, heq']
        rfl
      · exact fun h => hlt.ne (congrArg Expr.size h)
      · rintro (h | ⟨h, hne'⟩)
        · exact absurd h Bool.false_ne_true
        · exact Bool.false_ne_true (hne'.symm.trans (hR.mpr h ▸ heq'))

theorem Expr.replaced_small {e : Expr} {new : Option Expr} {p : Option Expr × Expr}
    (hp : Expr.rewrite t new e = some p) (h : e.size < t.size) : replaced p = e := by
  rw [Expr.rewrite_small h] at hp
  obtain rfl := Option.some.inj hp
  rfl

/-- A tree without operands that are rewritten. -/
theorem rewriteSelf_leaf {e e'' : Expr} {R : Prop} (hR : e = e'' ↔ R) :
    ∃ p, e.rewriteSelf t (some x) = some p ∧
      (p = (none, e) ∨ x.size ≤ (if e.eq t then x else e'').size) ∧
      (replaced p = (if e.eq t then x else e'') ↔ e.eq t = true ∨ R) := by
  obtain ⟨p, hp, hsize, hiff⟩ := rewriteSelf_spec (t := t) (x := x) (fun _ => rfl) (.inl rfl) hR
  refine ⟨p, hp, hsize, hiff.trans ⟨?_, ?_⟩⟩
  · exact Or.imp_right And.left
  · rintro (h | h)
    · exact .inl h
    · cases heq : e.eq t with
      | true => exact .inl rfl
      | false => exact .inr ⟨h, hR.mpr h ▸ heq⟩

mutual

/-- The result is the substitution exactly where everything is reached. Where something changes, the
substituted tree is no smaller than what was put in. -/
theorem Expr.rewrite_spec : ∀ e : Expr, ∃ p, Expr.rewrite t (some x) e = some p ∧
    (p = (none, e) ∨ x.size ≤ (Expr.subst t x e).size) ∧
    (replaced p = Expr.subst t x e ↔ Expr.Reached t x e)
  | .id s => by
    obtain ⟨p, hp, hsize, hR⟩ := rewriteSelf_leaf (t := t) (x := x) (e := .id s) (iff_true_intro rfl)
    exact ⟨p, hp, hsize, hR.trans (iff_true_intro (.inr trivial))⟩
  | .boolean b => by
    obtain ⟨p, hp, hsize, hR⟩ :=
      rewriteSelf_leaf (t := t) (x := x) (e := .boolean b) (iff_true_intro rfl)
    exact ⟨p, hp, hsize, hR.trans (iff_true_intro (.inr trivial))⟩
  | .number n => by
    obtain ⟨p, hp, hsize, hR⟩ :=
      rewriteSelf_leaf (t := t) (x := x) (e := .number n) (iff_true_intro rfl)
    exact ⟨p, hp, hsize, hR.trans (iff_true_intro (.inr trivial))⟩
  | .idStruct p => by
    have hpath : Expr.idStruct p = .idStruct (ExprList.subst t x p) ↔ p = ExprList.subst t x p :=
      ⟨Expr.idStruct.inj, congrArg _⟩
    exact rewriteSelf_leaf hpath
  | .condVal c a b => by
    have hsides : Expr.condVal c a b =
        .condVal (CondExpr.subst t x c) (Expr.subst t x a) (Expr.subst t x b) ↔
        c = CondExpr.subst t x c ∧ a = Expr.subst t x a ∧ b = Expr.subst t x b :=
      (Expr.condVal.injEq _ _ _ _ _ _).to_iff
    exact rewriteSelf_leaf hsides
  | .idArray s i fixed nofollow => by
    obtain ⟨p, hp, hsizei, hi⟩ := Expr.rewrite_spec i
    have hself : (Expr.idArray s i fixed nofollow).eq t = true →
        Expr.idArray s (replaced p) fixed nofollow = .idArray s i fixed nofollow := by
      intro heq
      have hlt : i.size < t.size := Expr.size_eq heq ▸ Nat.lt_succ_self _
      rw [Expr.replaced_small hp hlt]
    have hsize : Expr.idArray s (replaced p) fixed nofollow = .idArray s i fixed nofollow ∨
        x.size < (Expr.idArray s (Expr.subst t x i) fixed nofollow).size :=
      hsizei.imp (fun h => by rw [h, replaced, Option.getD_none]) Nat.lt_succ_of_le
    have hR : Expr.idArray s (replaced p) fixed nofollow =
        .idArray s (Expr.subst t x i) fixed nofollow ↔ Expr.Reached t x i := by
      rw [← hi, Expr.idArray.injEq]
      simp only [true_and, and_true]
    rw [Expr.rewrite, hp]
    exact rewriteSelf_spec hself hsize hR
  | .fcall s es => by
    obtain ⟨es', hp, hsizes, hes⟩ := ExprList.rewrite_spec es
    have hself : (Expr.fcall s es).eq t = true → Expr.fcall s es' = .fcall s es := by
      intro heq
      have hlt : es.size < t.size := Expr.size_eq heq ▸ Nat.lt_succ_self _
      rw [ExprList.rewrite_small hlt] at hp
      rw [Option.some.inj hp]
    have hsize : Expr.fcall s es' = .fcall s es ∨
        x.size < (Expr.fcall s (ExprList.subst t x es)).size :=
      hsizes.imp (congrArg _) Nat.lt_succ_of_le
    have hR : Expr.fcall s es' = .fcall s (ExprList.subst t x es) ↔ ExprList.Reached t x es := by
      rw [← hes, Expr.fcall.injEq]
      simp only [true_and]
    rw [Expr.rewrite, hp]
    exact rewriteSelf_spec hself hsize hR
  | .bin o l r flag => by
    obtain ⟨p, hp, hsizel, hl⟩ := Expr.rewrite_spec l
    obtain ⟨q, hq, hsizer, hr⟩ := Expr.rewrite_spec r
    have hself : (Expr.bin o l r flag).eq t = true →
        Expr.bin o (replaced p) (replaced q) flag = .bin o l r flag := by
      intro heq
      have hsize : l.size + r.size + 1 = t.size := Expr.size_eq heq
      have hltl : l.size < t.size := by omega
      have hltr : r.size < t.size := by omega
      rw [Expr.replaced_small hp hltl, Expr.replaced_small hq hltr]
    have hsize : Expr.bin o (replaced p) (replaced q) flag = .bin o l r flag ∨
        x.size < (Expr.bin o (Expr.subst t x l) (Expr.subst t x r) flag).size := by
      have hsum : (Expr.bin o (Expr.subst t x l) (Expr.subst t x r) flag).size =
        (Expr.subst t x l).size + (Expr.subst t x r).size + 1 := rfl
      obtain rfl | hsizel := hsizel
      · obtain rfl | hsizer := hsizer
        · exact .inl rfl
        · right
          omega
      · right
        omega
    have hR : Expr.bin o (replaced p) (replaced q) flag =
        .bin o (Expr.subst t x l) (Expr.subst t x r) flag ↔
        Expr.Reached t x l ∧ Expr.Reached t x r := by
      rw [← hl, ← hr, Expr.bin.injEq]
      simp only [true_and, and_true]
    rw [Expr.rewrite, hp, Option.bind_some, hq]
    exact rewriteSelf_spec hself hsize hR
  | .parens e => by
    obtain ⟨p, hp, hsize, he⟩ := Expr.rewrite_spec e
    refine ⟨(none, .parens (replaced p)), ?_, ?_, ?_⟩
    · rw [Expr.rewrite, hp]
      rfl
    · rw [Expr.subst]
      split
      · exact .inr le_rfl
      · exact hsize.imp (fun h => by rw [h, replaced, Option.getD_none]) Nat.le_succ_of_le
    · rw [Expr.subst, Expr.Reached]
      show Expr.parens (replaced p) = _ ↔ _
      split
      case isTrue heq =>
        have hlt : e.size < t.size := Expr.size_eq heq ▸ Nat.lt_succ_self _
        rw [Expr.replaced_small hp hlt]
      case isFalse => rw [← he, Expr.parens.injEq]

theorem ExprList.rewrite_spec : ∀ es : ExprList, ∃ es', ExprList.rewrite t (some x) es = some es' ∧
    (es' = es ∨ x.size ≤ (ExprList.subst t x es).size) ∧
    (es' = ExprList.subst t x es ↔ ExprList.Reached t x es)
  | .nil => ⟨.nil, rfl, .inl rfl, iff_true_intro rfl⟩
  | .cons e es => by
    obtain ⟨p, hp, hsize, he⟩ := Expr.rewrite_spec e
    obtain ⟨es', hes, hsizes, hRs⟩ := ExprList.rewrite_spec es
    refine ⟨.cons (replaced p) es', ?_, ?_, ?_⟩
    · rw [ExprList.rewrite, hp, Option.bind_some, hes]
      rfl
    · have hsum : (ExprList.subst t x (.cons e es)).size =
        (Expr.subst t x e).size + (ExprList.subst t x es).size := rfl
      obtain rfl | hsize := hsize
      · obtain rfl | hsizes := hsizes
        · exact .inl rfl
        · right
          omega
      · right
        omega
    · rw [ExprList.subst, ExprList.Reached, ← he, ← hRs, ExprList.cons.injEq]

end

end Spec

/-! ## The value -/

section Value

variable {env : Env} {t x r : Expr}

variable (heval : x.eval env = r.eval env) (hkey : x.key env = r.key env)

include heval hkey

/-- One of the two trees for `e` and `e'`, the same in both. -/
theorem subst_self {e e' : Expr} {b : Bool}
    (h : e.eval env = e'.eval env ∧ e.key env = e'.key env) :
    (if b then x else e).eval env = (if b then r else e').eval env ∧
      (if b then x else e).key env = (if b then r else e').key env := by
  cases b with
  | true => exact ⟨heval, hkey⟩
  | false => exact h

omit heval hkey

mutual

/-- The value depends on the value of what is put in, and not on how that is written. -/
theorem Expr.eval_subst (heval : x.eval env = r.eval env) (hkey : x.key env = r.key env) : ∀ e : Expr,
    (Expr.subst t x e).eval env = (Expr.subst t r e).eval env ∧
      (Expr.subst t x e).key env = (Expr.subst t r e).key env
  | .id _ => subst_self heval hkey ⟨rfl, rfl⟩
  | .idStruct p => by
    obtain ⟨-, hkeys⟩ := ExprList.eval_subst heval hkey p
    refine subst_self heval hkey ⟨?_, rfl⟩
    rw [Expr.eval, Expr.eval, hkeys]
  | .idArray s i fixed nofollow => by
    obtain ⟨hi, -⟩ := Expr.eval_subst heval hkey i
    refine subst_self heval hkey ⟨?_, ?_⟩
    · rw [Expr.eval, Expr.eval, hi]
    · rw [Expr.key, Expr.key, hi]
  | .fcall s es => by
    obtain ⟨hes, -⟩ := ExprList.eval_subst heval hkey es
    refine subst_self heval hkey ⟨?_, ?_⟩
    · rw [Expr.eval, Expr.eval, hes]
    · rw [Expr.key, Expr.key, hes]
  | .parens e => by
    obtain ⟨he, -⟩ := Expr.eval_subst heval hkey e
    exact subst_self heval hkey ⟨he, rfl⟩
  | .boolean _ => subst_self heval hkey ⟨rfl, rfl⟩
  | .number _ => subst_self heval hkey ⟨rfl, rfl⟩
  | .bin o l r' flag => by
    obtain ⟨hl, -⟩ := Expr.eval_subst heval hkey l
    obtain ⟨hr, -⟩ := Expr.eval_subst heval hkey r'
    refine subst_self heval hkey ⟨?_, rfl⟩
    rw [Expr.eval, Expr.eval, hl, hr]
  | .condVal c a b => by
    have hc := CondExpr.eval_subst heval hkey c
    obtain ⟨ha, -⟩ := Expr.eval_subst heval hkey a
    obtain ⟨hb, -⟩ := Expr.eval_subst heval hkey b
    refine subst_self heval hkey ⟨?_, rfl⟩
    rw [Expr.eval, Expr.eval, hc, ha, hb]

theorem ExprList.eval_subst (heval : x.eval env = r.eval env) (hkey : x.key env = r.key env) :
    ∀ es : ExprList,
    (ExprList.subst t x es).eval env = (ExprList.subst t r es).eval env ∧
      (ExprList.subst t x es).keys env = (ExprList.subst t r es).keys env
  | .nil => ⟨rfl, rfl⟩
  | .cons e es => by
    obtain ⟨he, hk⟩ := Expr.eval_subst heval hkey e
    obtain ⟨hes, hks⟩ := ExprList.eval_subst heval hkey es
    constructor
    · rw [ExprList.subst, ExprList.subst, ExprList.eval, ExprList.eval, he, hes]
    · rw [ExprList.subst, ExprList.subst, ExprList.keys, ExprList.keys, hk, hks]

theorem CondExpr.eval_subst (heval : x.eval env = r.eval env) (hkey : x.key env = r.key env) :
    ∀ c : CondExpr,
    (CondExpr.subst t x c).eval env = (CondExpr.subst t r c).eval env
  | .cmp o l r' => by
    rw [CondExpr.subst, CondExpr.subst, CondExpr.eval, CondExpr.eval, (Expr.eval_subst heval hkey l).1,
      (Expr.eval_subst heval hkey r').1]
  | .func s es => by
    rw [CondExpr.subst, CondExpr.subst, CondExpr.eval, CondExpr.eval, (ExprList.eval_subst heval hkey es).1]
  | .not c => by
    rw [CondExpr.subst, CondExpr.subst, CondExpr.eval, CondExpr.eval, CondExpr.eval_subst heval hkey c]
  | .and a b => by
    rw [CondExpr.subst, CondExpr.subst, CondExpr.eval, CondExpr.eval, CondExpr.eval_subst heval hkey a,
      CondExpr.eval_subst heval hkey b]
  | .or a b => by
    rw [CondExpr.subst, CondExpr.subst, CondExpr.eval, CondExpr.eval, CondExpr.eval_subst heval hkey a,
      CondExpr.eval_subst heval hkey b]

end

end Value

/-- `rewriteReplace` returns the substitution of the simplified replacement, which has the value of that
of the replacement, exactly where everything is reached. -/
theorem Expr.rewriteReplace_spec {n : ℕ} {r x obj : Expr} (hr : r.simplify n = some (x, obj))
    (e t : Expr) : ∃ e', e.rewriteReplace n t r = some e' ∧
      (e' = Expr.subst t x e ↔ Expr.Reached t x e) ∧
      ∀ env, (Expr.subst t x e).eval env = (Expr.subst t r e).eval env := by
  obtain ⟨p, hp, -, hR⟩ := Expr.rewrite_spec (t := t) (x := x) e
  refine ⟨replaced p, ?_, hR, fun env => ?_⟩
  · rw [Expr.rewriteReplace, hr, Option.map_some, hp]
    rfl
  · have hnorm : x.norm = r.norm := (Expr.norm_simplify hr).1
    exact (Expr.eval_subst (Expr.eval_of_norm hnorm).1 (Expr.eval_of_norm hnorm).2 e).1

end Fsl.Ast
