import Mathlib

/-!
# Operator sequences and their trees

A sequence of operands with a binary operator between each two can be grouped in many ways. `climb`
is the conventional one: an operator of higher precedence binds tighter, and equal ones group to the
left. `rightNest` groups everything to the right. The two trees have the same value when every
operator either binds looser than all that follow it or can be regrouped with the next one.
-/

/-- Binary operators over operands. -/
inductive OpTree (O α : Type*)
  | leaf (a : α)
  | node (o : O) (l r : OpTree O α)
  deriving DecidableEq, Repr

namespace OpTree

variable {O α W : Type*}

section Defs

variable (prec : O → ℕ) (comb : O → W → W → W) (ρ : α → W)

def eval : OpTree O α → W
  | leaf a => ρ a
  | node o l r => comb o l.eval r.eval

/-- Everything grouped to the right. -/
def rightNest : α → List (O × α) → OpTree O α
  | a, [] => leaf a
  | a, (o, b) :: s => node o (leaf a) (rightNest b s)

/-- Append an operator and its right operand: it takes the last operand from the operators that bind
looser. -/
def push : OpTree O α → O × α → OpTree O α
  | leaf a, (o, b) => node o (leaf a) (leaf b)
  | node p l r, (o, b) => if prec p < prec o then node p l (r.push (o, b)) else
    node o (node p l r) (leaf b)

/-- Precedence with left associativity. -/
def climb (a : α) (s : List (O × α)) : OpTree O α := s.foldl (push prec) (leaf a)

/-- The operators can be regrouped. -/
def Regroups (o p : O) : Prop := ∀ x y z, comb p (comb o x y) z = comb o x (comb p y z)

/-- Each operator binds looser than all that follow, or regroups with the next one. -/
def Groups : List O → Prop
  | [] => True
  | [_] => True
  | o :: p :: s => Groups (p :: s) ∧
      ((∀ q ∈ p :: s, prec o < prec q) ∨ prec p ≤ prec o ∧ Regroups comb o p)

end Defs

variable {prec : O → ℕ} {comb : O → W → W → W} {ρ : α → W}

theorem foldl_push_node {o : O} {l r : OpTree O α} {s : List (O × α)}
    (h : ∀ q ∈ s.map Prod.fst, prec o < prec q) :
    s.foldl (push prec) (node o l r) = node o l (s.foldl (push prec) r) := by
  induction s generalizing r with
  | nil => rfl
  | cons p s ih =>
    have hp : prec o < prec p.1 := h p.1 (by simp)
    rw [List.foldl_cons, List.foldl_cons, push, if_pos hp]
    exact ih fun q hq => h q (List.mem_cons_of_mem _ hq)

theorem climb_concat (a : α) (s : List (O × α)) (y : O × α) :
    climb prec a (s ++ [y]) = (climb prec a s).push prec y := by
  rw [climb, List.foldl_append]
  rfl

theorem root_of_push {t l r : OpTree O α} {y : O × α} {p : O} (h : t.push prec y = node p l r) :
    p = y.1 ∨ ∃ l' r', t = node p l' r' := by
  cases t with
  | leaf a =>
    cases h
    exact .inl rfl
  | node q l' r' =>
    rw [push] at h
    split at h
    · cases h
      exact .inr ⟨_, _, rfl⟩
    · cases h
      exact .inl rfl

theorem root_mem_of_climb {a : α} {s : List (O × α)} {p : O} {l r : OpTree O α}
    (h : climb prec a s = node p l r) : p ∈ s.map Prod.fst := by
  induction s using List.reverseRecOn generalizing l r with
  | nil => cases h
  | append_singleton s y ih =>
    rw [climb_concat] at h
    rw [List.map_append, List.mem_append]
    rcases root_of_push h with rfl | ⟨l', r', h'⟩
    · exact .inr List.mem_cons_self
    · exact .inl (ih h')

/-- An operator that binds no tighter than those before it and looser than those after it is the root. -/
theorem climb_node {o : O} {a x : α} {s t : List (O × α)}
    (hs : ∀ p ∈ s.map Prod.fst, prec o ≤ prec p) (ht : ∀ q ∈ t.map Prod.fst, prec o < prec q) :
    climb prec a (s ++ (o, x) :: t) = node o (climb prec a s) (climb prec x t) := by
  have hroot : ∀ u : OpTree O α, (∀ p l r, u = node p l r → prec o ≤ prec p) →
      u.push prec (o, x) = node o u (leaf x) := by
    intro u hu
    cases u with
    | leaf a => rfl
    | node p l r => exact if_neg (not_lt.mpr (hu p l r rfl))
  have hloose : ∀ p l r, climb prec a s = node p l r → prec o ≤ prec p :=
    fun p l r h => hs p (root_mem_of_climb h)
  rw [climb, List.foldl_append, List.foldl_cons, ← climb, hroot _ hloose, foldl_push_node ht]
  rfl

theorem eval_rightNest_congr {ρ' : α → W} {a : α} {s : List (O × α)}
    (h : ∀ b ∈ a :: s.map Prod.snd, ρ b = ρ' b) :
    eval comb ρ (rightNest a s) = eval comb ρ' (rightNest a s) := by
  induction s generalizing a with
  | nil => exact h a (by simp)
  | cons p s ih =>
    rw [rightNest, eval, eval, ih fun b hb => h b (List.mem_cons_of_mem _ hb)]
    exact congrArg (comb p.1 · _) (h a List.mem_cons_self)

/-- The first operator of a sequence that groups can be taken to be the root. -/
theorem eval_foldl_push_node {o : O} {s : List (O × α)}
    (h : Groups prec comb (o :: s.map Prod.fst)) (l : OpTree O α) (b : α) :
    eval comb ρ (s.foldl (push prec) (node o l (leaf b))) =
      eval comb ρ (node o l (s.foldl (push prec) (leaf b))) := by
  induction s generalizing o l b with
  | nil => rfl
  | cons p s ih =>
    obtain ⟨hs, hlt | ⟨hle, hre⟩⟩ := h
    · rw [foldl_push_node hlt]
    · -- `p` binds no tighter: it becomes the root, and is regrouped below `o` again
      have hpush : push prec (node o l (leaf b)) p = node p.1 (node o l (leaf b)) (leaf p.2) :=
        if_neg (not_lt.mpr hle)
      calc
        _ = eval comb ρ (s.foldl (push prec) (node p.1 (node o l (leaf b)) (leaf p.2))) := by
          rw [List.foldl_cons, hpush]
        _ = comb p.1 (comb o (eval comb ρ l) (ρ b))
              (eval comb ρ (s.foldl (push prec) (leaf p.2))) := ih hs _ _
        _ = comb o (eval comb ρ l)
              (comb p.1 (ρ b) (eval comb ρ (s.foldl (push prec) (leaf p.2)))) := hre _ _ _
        _ = comb o (eval comb ρ l)
              (eval comb ρ (s.foldl (push prec) (node p.1 (leaf b) (leaf p.2)))) := by
          rw [ih hs (leaf b) p.2]
          rfl

theorem eval_climb_eq_rightNest {a : α} {s : List (O × α)}
    (h : Groups prec comb (s.map Prod.fst)) :
    eval comb ρ (climb prec a s) = eval comb ρ (rightNest a s) := by
  induction s generalizing a with
  | nil => rfl
  | cons p s ih =>
    have hs : Groups prec comb (s.map Prod.fst) := by
      cases s with
      | nil => trivial
      | cons q s => exact h.1
    have hroot : eval comb ρ (climb prec a (p :: s)) =
        comb p.1 (ρ a) (eval comb ρ (climb prec p.2 s)) :=
      eval_foldl_push_node h (leaf a) p.2
    rw [hroot, ih hs]
    rfl

/-! ## Other names for the operators -/

section Map

variable {P : Type*} (f : O → P)

def mapOp : OpTree O α → OpTree P α
  | leaf a => leaf a
  | node o l r => node (f o) l.mapOp r.mapOp

variable {f} {prec' : P → ℕ} {comb' : P → W → W → W}

theorem push_mapOp (hf : ∀ o p, prec' (f o) < prec' (f p) ↔ prec o < prec p) (t : OpTree O α)
    (x : O × α) : (t.mapOp f).push prec' (x.map f id) = (t.push prec x).mapOp f := by
  obtain ⟨o, a⟩ := x
  induction t with
  | leaf b => rfl
  | node p l r _ ih =>
    change (node (f p) (l.mapOp f) (r.mapOp f)).push prec' (f o, a) = _
    rw [push, push]
    by_cases hlt : prec p < prec o
    · rw [if_pos ((hf p o).mpr hlt), if_pos hlt]
      exact congrArg (node (f p) (l.mapOp f)) ih
    · rw [if_neg (mt (hf p o).mp hlt), if_neg hlt]
      rfl

/-- Names with the same precedences give the same tree. -/
theorem climb_map (hf : ∀ o p, prec' (f o) < prec' (f p) ↔ prec o < prec p) (a : α)
    (s : List (O × α)) : climb prec' a (s.map (Prod.map f id)) = (climb prec a s).mapOp f := by
  induction s using List.reverseRecOn with
  | nil => rfl
  | append_singleton s x ih =>
    rw [List.map_append, List.map_singleton, climb_concat, climb_concat, ih]
    exact push_mapOp hf _ x

theorem eval_mapOp (hc : ∀ o, comb' (f o) = comb o) (t : OpTree O α) :
    eval comb' ρ (t.mapOp f) = eval comb ρ t := by
  induction t with
  | leaf a => rfl
  | node o l r hl hr => rw [mapOp, eval, eval, hl, hr, hc]

end Map

/-! ## Operands that change nothing -/

/-- The subtree that `push` takes as the left operand. -/
def spot (prec : O → ℕ) : OpTree O α → O → OpTree O α
  | leaf a, _ => leaf a
  | node p l r, o => if prec p < prec o then r.spot prec o else node p l r

theorem push_leaf (a : α) (x : O × α) : (leaf a).push prec x = node x.1 (leaf a) (leaf x.2) := rfl

theorem push_node (p : O) (l r : OpTree O α) (x : O × α) :
    (node p l r).push prec x =
      if prec p < prec x.1 then node p l (r.push prec x) else node x.1 (node p l r) (leaf x.2) := rfl

theorem spot_leaf (a : α) (o : O) : (leaf a : OpTree O α).spot prec o = leaf a := rfl

theorem spot_node (p : O) (l r : OpTree O α) (o : O) :
    (node p l r).spot prec o = if prec p < prec o then r.spot prec o else node p l r := rfl

/-- An operand on the right that its operator ignores. -/
theorem eval_push_of_neutral {t : OpTree O α} {o : O} {z : α}
    (h : comb o (eval comb ρ (t.spot prec o)) (ρ z) = eval comb ρ (t.spot prec o)) :
    eval comb ρ (t.push prec (o, z)) = eval comb ρ t := by
  induction t with
  | leaf a => exact h
  | node p l r _ ih =>
    by_cases hlt : prec p < prec o
    · rw [spot_node, if_pos hlt] at h
      rw [push_node, if_pos hlt, eval, eval, ih h]
    · rw [spot_node, if_neg hlt] at h
      rw [push_node, if_neg hlt]
      exact h

theorem eval_spot_push_of_neutral {t : OpTree O α} {o q : O} {z : α}
    (h : comb o (eval comb ρ (t.spot prec o)) (ρ z) = eval comb ρ (t.spot prec o))
    (hq : prec q ≤ prec o) :
    eval comb ρ ((t.push prec (o, z)).spot prec q) = eval comb ρ (t.spot prec q) := by
  induction t with
  | leaf a =>
    rw [push_leaf, spot_node, if_neg (not_lt.mpr hq)]
    exact h
  | node p l r _ ih =>
    by_cases hlt : prec p < prec o
    · rw [spot_node, if_pos hlt] at h
      rw [push_node, if_pos hlt, spot_node, spot_node]
      split
      · exact ih h
      · rw [eval, eval, eval_push_of_neutral h]
    · rw [spot_node, if_neg hlt] at h
      rw [push_node, if_neg hlt, spot_node, if_neg (not_lt.mpr hq), spot_node,
        if_neg (not_lt.mpr (hq.trans (not_lt.mp hlt)))]
      exact h

theorem spot_push_of_lt {t : OpTree O α} {o q : O} (z : α) (hq : prec o < prec q) :
    (t.push prec (o, z)).spot prec q = leaf z := by
  induction t with
  | leaf a => rw [push_leaf, spot_node, if_pos hq, spot_leaf]
  | node p l r _ ih =>
    rw [push_node]
    split
    · next hlt => rw [spot_node, if_pos (hlt.trans hq), ih]
    · rw [spot_node, if_pos hq, spot_leaf]

/-- The first tree is the second with an operator `p` and a left operand `n` added on the right edge,
or differs from it only to the left of that edge. -/
inductive Grafts (prec : O → ℕ) (comb : O → W → W → W) (ρ : α → W) (p : O) (n : α) :
    OpTree O α → OpTree O α → Prop
  | leaf (a : α) : Grafts prec comb ρ p n (node p (leaf n) (leaf a)) (leaf a)
  | node {q : O} (l r : OpTree O α) (h : prec p < prec q) :
      Grafts prec comb ρ p n (node p (.leaf n) (.node q l r)) (.node q l r)
  | right {o : O} (l : OpTree O α) {r r' : OpTree O α} (h : prec o < prec p)
      (hr : Grafts prec comb ρ p n r r') : Grafts prec comb ρ p n (.node o l r) (.node o l r')
  | left (o : O) {l l' : OpTree O α} (r : OpTree O α) (h : eval comb ρ l = eval comb ρ l') :
      Grafts prec comb ρ p n (.node o l r) (.node o l' r)

namespace Grafts

variable {p : O} {n : α} (hn : ∀ x, comb p (ρ n) x = x)
include hn

theorem eval_eq {t t' : OpTree O α} (h : Grafts prec comb ρ p n t t') :
    eval comb ρ t = eval comb ρ t' := by
  induction h with
  | leaf a => exact hn _
  | node l r _ => exact hn _
  | right l _ _ ih => rw [eval, eval, ih]
  | left o r h => rw [eval, eval, h]

theorem eval_spot_eq {t t' : OpTree O α} (h : Grafts prec comb ρ p n t t') (q : O) :
    eval comb ρ (t.spot prec q) = eval comb ρ (t'.spot prec q) := by
  induction h with
  | leaf a =>
    rw [spot_node]
    split
    · rfl
    · exact hn _
  | @node q' l r hlt =>
    rw [spot_node]
    split
    · rfl
    · rw [spot_node, if_neg (by omega)]
      exact hn _
  | @right o l r r' hlt hr ih =>
    rw [spot_node, spot_node]
    split
    · exact ih
    · exact (right l hlt hr).eval_eq hn
  | left o r h =>
    rw [spot_node, spot_node]
    split
    · rfl
    · rw [eval, eval, h]

theorem push {t t' : OpTree O α} (h : Grafts prec comb ρ p n t t') (x : O × α) :
    Grafts prec comb ρ p n (t.push prec x) (t'.push prec x) := by
  obtain ⟨q, z⟩ := x
  induction h with
  | leaf a =>
    rw [push_node]
    split
    · next hlt => exact node _ _ hlt
    · exact left q _ (hn _)
  | @node q' l r hlt =>
    rw [push_node]
    split
    · next hpq =>
      rw [push_node]
      split
      · exact node _ _ hlt
      · exact node _ _ hpq
    · next hpq =>
      rw [push_node, if_neg (by dsimp only at hpq ⊢; omega)]
      exact left q _ (hn _)
  | @right o l r r' hlt hr ih =>
    rw [push_node, push_node]
    split
    · exact right l hlt ih
    · exact left q _ ((right l hlt hr).eval_eq hn)
  | @left o l l' r h =>
    rw [push_node, push_node]
    split
    · exact left o _ h
    · exact left q _ (by rw [eval, eval, h])

theorem foldl {t t' : OpTree O α} (h : Grafts prec comb ρ p n t t') (s : List (O × α)) :
    Grafts prec comb ρ p n (s.foldl (OpTree.push prec) t) (s.foldl (OpTree.push prec) t') := by
  induction s generalizing t t' with
  | nil => exact h
  | cons x s ih => exact ih (h.push hn x)

end Grafts

/-- An operator with a left operand of its own, put after one that binds looser. -/
theorem grafts_push_push {o p : O} (h : prec o < prec p) (t : OpTree O α) (n x : α) :
    Grafts prec comb ρ p n ((t.push prec (o, n)).push prec (p, x)) (t.push prec (o, x)) := by
  induction t with
  | leaf a =>
    rw [push_leaf, push_leaf, push_node, if_pos h, push_leaf]
    exact .right _ h (.leaf x)
  | node q l r _ ih =>
    by_cases hq : prec q < prec o
    · rw [push_node, push_node, if_pos hq, if_pos hq, push_node, if_pos (hq.trans h)]
      exact .right _ (hq.trans h) ih
    · rw [push_node, push_node, if_neg hq, if_neg hq, push_node, if_pos h, push_leaf]
      exact .right _ h (.leaf x)

/-! ## The last operand of the right-nested tree -/

def last : α → List (O × α) → α
  | a, [] => a
  | _, (_, b) :: s => last b s

/-- The value of the right-nested tree with another value in the place of the last operand. -/
def rightWith (comb : O → W → W → W) (ρ : α → W) : α → List (O × α) → W → W
  | _, [], w => w
  | a, (o, b) :: s, w => comb o (ρ a) (rightWith comb ρ b s w)

theorem eval_rightNest (a : α) (s : List (O × α)) :
    eval comb ρ (rightNest a s) = rightWith comb ρ a s (ρ (last a s)) := by
  induction s generalizing a with
  | nil => rfl
  | cons p s ih =>
    rw [rightNest, eval, ih]
    rfl

theorem eval_rightNest_append_singleton (a : α) (s : List (O × α)) (o : O) (z : α) :
    eval comb ρ (rightNest a (s ++ [(o, z)])) =
      rightWith comb ρ a s (comb o (ρ (last a s)) (ρ z)) := by
  induction s generalizing a with
  | nil => rfl
  | cons p s ih =>
    rw [List.cons_append, rightNest, eval, ih]
    rfl

theorem eval_rightNest_append_congr {s s' : List (O × α)}
    (h : ∀ b, eval comb ρ (rightNest b s) = eval comb ρ (rightNest b s')) (a : α)
    (s₀ : List (O × α)) :
    eval comb ρ (rightNest a (s₀ ++ s)) = eval comb ρ (rightNest a (s₀ ++ s')) := by
  induction s₀ generalizing a with
  | nil => exact h a
  | cons p s₀ ih => exact congrArg (comb p.1 (ρ a)) (ih p.2)

theorem last_append_cons (a : α) (s : List (O × α)) (o : O) (x : α) (s' : List (O × α)) :
    last a (s ++ (o, x) :: s') = last x s' := by
  induction s generalizing a with
  | nil => rfl
  | cons p s ih => exact ih p.2

end OpTree
