import Fsl.Compiler.ExprVisit

/-!
# What the visitor does not change

Where the visitor changes nothing but what folding does, each name that it gets to is mapped to itself.
Where names have the values of the expressions they are mapped to, it does not change the value.
-/

namespace Fsl.Ast

open Parse

/-! ## Trees without conditions -/

mutual

/-- A tree that the parser builds: it has no `CondVal`. -/
def Expr.Plain : Expr → Prop
  | .id _ => True
  | .idStruct p => p.Plain
  | .idArray _ i _ _ => i.Plain
  | .fcall _ es => es.Plain
  | .parens e => e.Plain
  | .boolean _ => True
  | .number _ => True
  | .bin _ l r _ => l.Plain ∧ r.Plain
  | .condVal _ _ _ => False
termination_by structural e => e

def ExprList.Plain : ExprList → Prop
  | .nil => True
  | .cons e es => e.Plain ∧ es.Plain
termination_by structural es => es

end

theorem foldNumbers_cases (o : Op) (l r : Expr) : foldNumbers o l r = .bin o l r false ∨
    ∃ n a b, foldNumbers o l r = .number n ∧ l = .number a ∧ r = .number b := by
  rw [foldNumbers]
  split
  case h_1 a b hnum =>
    obtain ⟨rfl, rfl⟩ := toNumbers_eq_some hnum
    cases o.doOp a.toNat b.toNat with
    | none => exact .inl rfl
    | some n => exact .inr ⟨.ofNat n, a, b, rfl, rfl, rfl⟩
  case h_2 => exact .inl rfl

theorem plain_foldNumbers (o : Op) (l r : Expr) :
    (foldNumbers o l r).Plain ↔ l.Plain ∧ r.Plain := by
  obtain h | ⟨n, a, b, h, rfl, rfl⟩ := foldNumbers_cases o l r
  · rw [h]
    rfl
  · rw [h]
    exact iff_of_true trivial ⟨trivial, trivial⟩

mutual

theorem Expr.plain_norm : ∀ e : Expr, e.norm.Plain ↔ e.Plain
  | .id _ => .rfl
  | .idStruct p => ExprList.plain_norm p
  | .idArray _ i _ _ => Expr.plain_norm i
  | .fcall _ es => ExprList.plain_norm es
  | .parens e => Expr.plain_norm e
  | .boolean _ => .rfl
  | .number _ => .rfl
  | .bin _ l r _ =>
    (plain_foldNumbers _ _ _).trans (and_congr (Expr.plain_norm l) (Expr.plain_norm r))
  | .condVal _ _ _ => .rfl

theorem ExprList.plain_norm : ∀ es : ExprList, es.norm.Plain ↔ es.Plain
  | .nil => .rfl
  | .cons e es => and_congr (Expr.plain_norm e) (ExprList.plain_norm es)

end

theorem Expr.plain_of_norm {e e' : Expr} (h : e'.norm = e.norm) (he : e.Plain) : e'.Plain :=
  (Expr.plain_norm e').mp (h ▸ (Expr.plain_norm e).mpr he)

mutual

/-- Equal trees without conditions are the same, up to flags. -/
theorem Expr.norm_of_eq : ∀ {e t : Expr}, e.Plain → e.eq t = true → e.norm = t.norm
  | .id _, .id _, _, h => congrArg Expr.id (eq_of_beq h)
  | .idStruct p, .idStruct _, hplain, h =>
    congrArg Expr.idStruct (ExprList.norm_of_eq (l := p) hplain h)
  | .idArray _ i _ _, .idArray _ _ _ _, hplain, h => by
    obtain ⟨hs, hi⟩ := Bool.and_eq_true_iff.mp h
    rw [Expr.norm, Expr.norm, eq_of_beq hs, Expr.norm_of_eq (e := i) hplain hi]
  | .fcall _ es, .fcall _ _, hplain, h => by
    obtain ⟨hs, hes⟩ := Bool.and_eq_true_iff.mp h
    rw [Expr.norm, Expr.norm, eq_of_beq hs, ExprList.norm_of_eq (l := es) hplain hes]
  | .parens e, .parens _, hplain, h => congrArg Expr.parens (Expr.norm_of_eq (e := e) hplain h)
  | .boolean _, .boolean _, _, h => congrArg Expr.boolean (eq_of_beq h)
  | .number _, .number _, _, h => congrArg Expr.number (eq_of_beq h)
  | .bin _ l r _, .bin _ _ _ _, hplain, h => by
    obtain ⟨h, hr⟩ := Bool.and_eq_true_iff.mp h
    obtain ⟨ho, hl⟩ := Bool.and_eq_true_iff.mp h
    rw [Expr.norm, Expr.norm, eq_of_beq ho, Expr.norm_of_eq (e := l) hplain.1 hl,
      Expr.norm_of_eq (e := r) hplain.2 hr]

theorem ExprList.norm_of_eq : ∀ {l t : ExprList}, l.Plain → l.eq t = true → l.norm = t.norm
  | .nil, .nil, _, _ => rfl
  | .cons e es, .cons _ _, hplain, h => by
    obtain ⟨he, hes⟩ := Bool.and_eq_true_iff.mp h
    rw [ExprList.norm, ExprList.norm, Expr.norm_of_eq (e := e) hplain.1 he,
      ExprList.norm_of_eq (l := es) hplain.2 hes]

end

section Inject

variable {σ : String → Option Expr}

theorem plain_getD (hσ : ∀ s e, σ s = some e → e.Plain) (s : String) :
    ((σ s).getD (.id s)).Plain := by
  cases h : σ s with
  | none => trivial
  | some e => exact hσ s e h

mutual

theorem Expr.plain_inject (hσ : ∀ s e, σ s = some e → e.Plain) :
    ∀ {e : Expr}, e.Plain → (e.inject σ).Plain
  | .id s, _ => plain_getD hσ s
  | .idStruct _, h => h
  | .idArray _ i _ _, h => Expr.plain_inject hσ (e := i) h
  | .fcall _ es, h => ExprList.plain_inject hσ (l := es) h
  | .parens e, h => Expr.plain_inject hσ (e := e) h
  | .boolean _, _ => trivial
  | .number _, _ => trivial
  | .bin _ _ _ _, h => ⟨Expr.plain_inject hσ h.1, Expr.plain_inject hσ h.2⟩

theorem ExprList.plain_inject (hσ : ∀ s e, σ s = some e → e.Plain) :
    ∀ {l : ExprList}, l.Plain → (l.inject σ).Plain
  | .nil, _ => trivial
  | .cons _ _, h => ⟨Expr.plain_inject hσ h.1, ExprList.plain_inject hσ h.2⟩

end

/-! ## Fixed points -/

theorem norm_eq_id {e : Expr} {s : String} (h : e.norm = .id s) : e = .id s := by
  cases e with
  | id => exact h
  | bin o l r flag =>
    obtain hcase | ⟨n, a, b, hcase, -, -⟩ := foldNumbers_cases o l.norm r.norm
    · exact Expr.noConfusion (hcase.symm.trans h)
    · exact Expr.noConfusion (hcase.symm.trans h)
  | idStruct => exact Expr.noConfusion h
  | idArray => exact Expr.noConfusion h
  | fcall => exact Expr.noConfusion h
  | parens => exact Expr.noConfusion h
  | boolean => exact Expr.noConfusion h
  | number => exact Expr.noConfusion h
  | condVal => exact Expr.noConfusion h

/-- Only a name becomes a name. -/
theorem inject_eq_id {e : Expr} {z : String} (h : (e.inject σ).norm = .id z) :
    ∃ y, e = .id y ∧ (σ y).getD (.id y) = .id z := by
  have hid := norm_eq_id h
  cases e with
  | id y => exact ⟨y, rfl, hid⟩
  | idStruct => exact Expr.noConfusion hid
  | idArray => exact Expr.noConfusion hid
  | fcall => exact Expr.noConfusion hid
  | parens => exact Expr.noConfusion hid
  | boolean => exact Expr.noConfusion hid
  | number => exact Expr.noConfusion hid
  | bin => exact Expr.noConfusion hid
  | condVal => exact Expr.noConfusion hid

/-- Folding can be undone where there are names. -/
theorem foldNumbers_inj {o : Op} {l r l' r' : Expr} (h : foldNumbers o l' r' = foldNumbers o l r)
    (hnames : l.names ++ r.names ≠ []) : l' = l ∧ r' = r := by
  obtain hcase | ⟨n, a, b, -, rfl, rfl⟩ := foldNumbers_cases o l r
  · rw [hcase] at h
    obtain hcase' | ⟨n, a, b, hcase', -, -⟩ := foldNumbers_cases o l' r'
    · rw [hcase'] at h
      obtain ⟨-, hl, hr, -⟩ := Expr.bin.inj h
      exact ⟨hl, hr⟩
    · exact Expr.noConfusion (hcase'.symm.trans h)
  · exact absurd rfl hnames

/-- Nothing that the visitor gets to is in a path or a condition. -/
theorem not_mem_hide {y : String} (xs : List (Place × String)) : (Place.seen, y) ∉ xs.map hide := by
  intro h
  obtain ⟨q, -, hq⟩ := List.mem_map.mp h
  have hpl : (if q.1 = .seen then .hidden else q.1) = Place.seen := congrArg Prod.fst hq
  split at hpl
  · exact Place.noConfusion hpl
  · exact absurd hpl ‹_›

theorem mem_of_cons_head {y s : String} {xs : List (Place × String)}
    (h : (Place.seen, y) ∈ (Place.head, s) :: xs) : (Place.seen, y) ∈ xs := by
  obtain h | h := List.mem_cons.mp h
  · exact Place.noConfusion (congrArg Prod.fst h)
  · exact h

mutual

/-- A name in a tree that is not changed but for folding is mapped to itself. -/
theorem Expr.inject_fixed {y : String} : ∀ {e : Expr}, (e.inject σ).norm = e.norm →
    (.seen, y) ∈ e.names → ((σ y).getD (.id y)).norm = .id y
  | .id s, h, hy => by
    obtain rfl : y = s := congrArg Prod.snd (List.mem_singleton.mp hy)
    exact h
  | .idStruct p, _, hy => absurd hy (not_mem_hide _)
  | .idArray _ i _ _, h, hy =>
    Expr.inject_fixed (e := i) (Expr.idArray.inj h).2.1 (mem_of_cons_head hy)
  | .fcall _ es, h, hy =>
    ExprList.inject_fixed (l := es) (Expr.fcall.inj h).2 (mem_of_cons_head hy)
  | .parens e, h, hy => Expr.inject_fixed (e := e) (Expr.parens.inj h) hy
  | .boolean _, _, hy => absurd hy List.not_mem_nil
  | .number _, _, hy => absurd hy List.not_mem_nil
  | .bin o l r _, h, hy => by
    have hnames : l.norm.names ++ r.norm.names ≠ [] := by
      rw [Expr.names_norm, Expr.names_norm]
      exact List.ne_nil_of_mem hy
    obtain ⟨hl, hr⟩ := foldNumbers_inj h hnames
    obtain hy | hy := List.mem_append.mp hy
    · exact Expr.inject_fixed hl hy
    · exact Expr.inject_fixed hr hy
  | .condVal c a b, h, hy => by
    obtain ⟨-, ha, hb⟩ := Expr.condVal.inj h
    obtain hy | hy := List.mem_append.mp hy
    · exact absurd hy (not_mem_hide _)
    · obtain hy | hy := List.mem_append.mp hy
      · exact Expr.inject_fixed ha hy
      · exact Expr.inject_fixed hb hy

theorem ExprList.inject_fixed {y : String} : ∀ {l : ExprList}, (l.inject σ).norm = l.norm →
    (.seen, y) ∈ l.names → ((σ y).getD (.id y)).norm = .id y
  | .nil, _, hy => absurd hy List.not_mem_nil
  | .cons e es, h, hy => by
    obtain ⟨he, hes⟩ := ExprList.cons.inj h
    obtain hy | hy := List.mem_append.mp hy
    · exact Expr.inject_fixed he hy
    · exact ExprList.inject_fixed hes hy

end

/-! ## Values -/

section Eval

variable {env : Env}

/-- The names that the visitor gets to have the values of what they are mapped to. -/
def Solved (σ : String → Option Expr) (env : Env) (xs : List (Place × String)) : Prop :=
  ∀ y, (.seen, y) ∈ xs → ((σ y).getD (.id y)).eval env = env.id y

theorem Solved.append {xs ys : List (Place × String)} (h : Solved σ env (xs ++ ys)) :
    Solved σ env xs ∧ Solved σ env ys :=
  ⟨fun y hy => h y (List.mem_append_left ys hy), fun y hy => h y (List.mem_append_right xs hy)⟩

theorem Solved.tail {q : Place × String} {xs : List (Place × String)}
    (h : Solved σ env (q :: xs)) : Solved σ env xs := fun y hy => h y (List.mem_cons_of_mem q hy)

mutual

theorem Expr.eval_inject : ∀ {e : Expr}, Solved σ env e.names → (e.inject σ).eval env = e.eval env
  | .id s, h => h s (List.mem_singleton_self _)
  | .idStruct _, _ => rfl
  | .idArray _ i _ _, h => by
    rw [Expr.inject, Expr.eval, Expr.eval, Expr.eval_inject (e := i) h.tail]
  | .fcall _ es, h => by
    rw [Expr.inject, Expr.eval, Expr.eval, ExprList.eval_inject (l := es) h.tail]
  | .parens e, h => Expr.eval_inject (e := e) h
  | .boolean _, _ => rfl
  | .number _, _ => rfl
  | .bin _ l r _, h => by
    obtain ⟨hl, hr⟩ := h.append
    rw [Expr.inject, Expr.eval, Expr.eval, Expr.eval_inject hl, Expr.eval_inject hr]
  | .condVal c a b, h => by
    obtain ⟨-, h⟩ := h.append
    obtain ⟨ha, hb⟩ := h.append
    rw [Expr.inject, Expr.eval, Expr.eval, Expr.eval_inject ha, Expr.eval_inject hb]

theorem ExprList.eval_inject : ∀ {l : ExprList}, Solved σ env l.names →
    (l.inject σ).eval env = l.eval env
  | .nil, _ => rfl
  | .cons e es, h => by
    obtain ⟨he, hes⟩ := h.append
    rw [ExprList.inject, ExprList.eval, ExprList.eval, Expr.eval_inject he,
      ExprList.eval_inject hes]

end

variable {ρ : String → Option UInt64}

mutual

/-- The value depends on the values of the names that are expressions. -/
theorem Expr.eval_congr : ∀ {e : Expr}, AllIds (fun s => ρ s = env.id s) e.names →
    e.eval { env with id := ρ } = e.eval env ∧ e.key { env with id := ρ } = e.key env
  | .id s, h => ⟨h (.seen, s) (List.mem_singleton_self _) Place.noConfusion, rfl⟩
  | .idStruct p, h => by
    obtain ⟨-, hp⟩ := ExprList.eval_congr (l := p) h.hidden
    exact ⟨by rw [Expr.eval, Expr.eval, hp], rfl⟩
  | .idArray _ i _ _, h => by
    obtain ⟨hi, -⟩ := Expr.eval_congr (e := i) h.tail
    exact ⟨by rw [Expr.eval, Expr.eval, hi], by rw [Expr.key, Expr.key, hi]⟩
  | .fcall _ es, h => by
    obtain ⟨hes, -⟩ := ExprList.eval_congr (l := es) h.tail
    exact ⟨by rw [Expr.eval, Expr.eval, hes], by rw [Expr.key, Expr.key, hes]⟩
  | .parens e, h => ⟨(Expr.eval_congr (e := e) h).1, rfl⟩
  | .boolean _, _ => ⟨rfl, rfl⟩
  | .number _, _ => ⟨rfl, rfl⟩
  | .bin _ l r _, h => by
    obtain ⟨hl, hr⟩ := h.append
    exact ⟨by rw [Expr.eval, Expr.eval, (Expr.eval_congr hl).1, (Expr.eval_congr hr).1], rfl⟩
  | .condVal c a b, h => by
    obtain ⟨hc, h⟩ := h.append
    obtain ⟨ha, hb⟩ := h.append
    exact ⟨by rw [Expr.eval, Expr.eval, CondExpr.eval_congr hc.hidden, (Expr.eval_congr ha).1,
      (Expr.eval_congr hb).1], rfl⟩

theorem ExprList.eval_congr : ∀ {l : ExprList}, AllIds (fun s => ρ s = env.id s) l.names →
    l.eval { env with id := ρ } = l.eval env ∧ l.keys { env with id := ρ } = l.keys env
  | .nil, _ => ⟨rfl, rfl⟩
  | .cons e es, h => by
    obtain ⟨he, hes⟩ := h.append
    obtain ⟨heval, hkey⟩ := Expr.eval_congr he
    obtain ⟨hevals, hkeys⟩ := ExprList.eval_congr hes
    exact ⟨by rw [ExprList.eval, ExprList.eval, heval, hevals],
      by rw [ExprList.keys, ExprList.keys, hkey, hkeys]⟩

theorem CondExpr.eval_congr : ∀ {c : CondExpr}, AllIds (fun s => ρ s = env.id s) c.names →
    c.eval { env with id := ρ } = c.eval env
  | .cmp _ l r, h => by
    obtain ⟨hl, hr⟩ := h.append
    rw [CondExpr.eval, CondExpr.eval, (Expr.eval_congr hl).1, (Expr.eval_congr hr).1]
  | .func _ es, h => by
    rw [CondExpr.eval, CondExpr.eval, (ExprList.eval_congr (l := es) h).1]
  | .not c, h => by rw [CondExpr.eval, CondExpr.eval, CondExpr.eval_congr (c := c) h]
  | .and a b, h => by
    obtain ⟨ha, hb⟩ := h.append
    rw [CondExpr.eval, CondExpr.eval, CondExpr.eval_congr ha, CondExpr.eval_congr hb]
  | .or a b, h => by
    obtain ⟨ha, hb⟩ := h.append
    rw [CondExpr.eval, CondExpr.eval, CondExpr.eval_congr ha, CondExpr.eval_congr hb]

end

end Eval

end Inject

end Fsl.Ast
