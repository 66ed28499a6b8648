import Fsl.Lib.OpTree

/-!
# Grouping of expressions

The grammar of FSL expressions is ambiguous and declares no precedence. At `expr op expr` with
another operator ahead, bison shifts; so nothing is reduced before the last operand, and every
operator groups to the right. This compares the tree with the one that C gives.
-/

namespace Fsl.Parse

/-! ## The parser -/

section Parser

variable {O α : Type*}

/-- The stack of the parser, with the `expr op` that wait for their right operand, and the input. -/
structure Config (O α : Type*) where
  stack : List (OpTree O α × O)
  top : OpTree O α
  input : List (O × α)

/-- One action: shift an operator with its operand, also where a reduction is possible; reduce where
the input is at its end; `none` is to accept. -/
def Config.step : Config O α → Option (Config O α)
  | ⟨stack, e, (o, a) :: input⟩ => some ⟨(e, o) :: stack, .leaf a, input⟩
  | ⟨(l, o) :: stack, e, []⟩ => some ⟨stack, .node o l e, []⟩
  | ⟨[], _, []⟩ => none

def Config.run : ℕ → Config O α → Config O α
  | 0, c => c
  | n + 1, c =>
    match c.step with
    | some c => c.run n
    | none => c

/-- Each operator is shifted once and reduced once. -/
def parse (a : α) (s : List (O × α)) : OpTree O α :=
  (Config.run (2 * s.length) ⟨[], .leaf a, s⟩).top

/-- What the waiting operators make of a tree. -/
def unwind (stack : List (OpTree O α × O)) (e : OpTree O α) : OpTree O α :=
  stack.foldl (fun e p => .node p.2 p.1 e) e

theorem run_reduce (stack : List (OpTree O α × O)) (e : OpTree O α) :
    Config.run stack.length ⟨stack, e, []⟩ = ⟨[], unwind stack e, []⟩ := by
  induction stack generalizing e with
  | nil => rfl
  | cons p stack ih => exact ih _

theorem run_shift (stack : List (OpTree O α × O)) (a : α) (s : List (O × α)) :
    Config.run (2 * s.length + stack.length) ⟨stack, .leaf a, s⟩ =
      ⟨[], unwind stack (.rightNest a s), []⟩ := by
  induction s generalizing stack a with
  | nil =>
    rw [List.length_nil, Nat.mul_zero, Nat.zero_add]
    exact run_reduce stack (.leaf a)
  | cons p s ih =>
    have hlen : 2 * (p :: s).length + stack.length =
        2 * s.length + ((OpTree.leaf a, p.1) :: stack).length + 1 := by
      simp only [List.length_cons]
      omega
    rw [hlen]
    exact ih ((.leaf a, p.1) :: stack) p.2

theorem parse_eq_rightNest (a : α) (s : List (O × α)) : parse a s = .rightNest a s := by
  have h := run_shift [] a s
  rw [List.length_nil, Nat.add_zero] at h
  rw [parse, h]
  rfl

end Parser

/-! ## Arithmetic -/

inductive Op
  | bitor
  | bitand
  | add
  | sub
  | div
  | mul
  | lshift
  | rshift
  | mod
  deriving DecidableEq, Repr

namespace Op

/-- The precedence in C. -/
def prec : Op → ℕ
  | bitor => 0
  | bitand => 1
  | lshift | rshift => 2
  | add | sub => 3
  | mul | div | mod => 4

/-- The instruction an operator is compiled to. A division by zero and a shift by the width or more
have no value. -/
def apply : Op → UInt64 → UInt64 → Option UInt64
  | bitor, a, b => some (a ||| b)
  | bitand, a, b => some (a &&& b)
  | add, a, b => some (a + b)
  | sub, a, b => some (a - b)
  | mul, a, b => some (a * b)
  | div, a, b => if b = 0 then none else some (a / b)
  | mod, a, b => if b = 0 then none else some (a % b)
  | lshift, a, b => if b < 64 then some (a <<< b) else none
  | rshift, a, b => if b < 64 then some (a >>> b) else none

def comb (o : Op) (x y : Option UInt64) : Option UInt64 :=
  x.bind fun a => y.bind fun b => o.apply a b

/-- `(a o b) p c` is `a o (b p c)`. -/
def regroups : Op → Op → Bool
  | add, add | add, sub | mul, mul | bitand, bitand | bitor, bitor | mul, lshift => true
  | _, _ => false

end Op

/-- The value of a tree whose leaves are the values of the operands. -/
def value (t : OpTree Op UInt64) : Option UInt64 := t.eval Op.comb some

/-- Each operator binds looser in C than all that follow, or can be regrouped with the next one. -/
def groups : List Op → Bool
  | [] => true
  | [_] => true
  | o :: p :: s => groups (p :: s) && ((p :: s).all (fun q => o.prec < q.prec) || o.regroups p)

theorem mul_shiftLeft (x y z : UInt64) : (x * y) <<< z = x * (y <<< z) := by
  apply UInt64.toBitVec_inj.mp
  rw [UInt64.toBitVec_shiftLeft, UInt64.toBitVec_mul, UInt64.toBitVec_mul,
    UInt64.toBitVec_shiftLeft, BitVec.shiftLeft_eq', BitVec.shiftLeft_eq',
    BitVec.shiftLeft_eq_mul_twoPow, BitVec.shiftLeft_eq_mul_twoPow, BitVec.mul_assoc]

theorem Op.comb_some (o : Op) (a b : UInt64) : o.comb (some a) (some b) = o.apply a b := rfl

theorem Op.regroups_spec {o p : Op} (h : o.regroups p) : OpTree.Regroups Op.comb o p := by
  rintro (_ | x) (_ | y) (_ | z)
  case some.some.some =>
    cases o <;> cases p <;> first
      | exact absurd h (by decide)
      | skip
    all_goals simp only [Op.comb, Op.apply, Option.bind_some, Option.some.injEq]
    · exact UInt64.or_assoc x y z
    · exact UInt64.and_assoc x y z
    · exact UInt64.add_assoc x y z
    · grind
    · exact UInt64.mul_assoc x y z
    · split
      · rw [mul_shiftLeft]
        rfl
      · rfl
  all_goals simp [Op.comb]

theorem Op.prec_le_of_regroups {o p : Op} (h : o.regroups p) : p.prec ≤ o.prec := by
  cases o <;> cases p <;> first
    | exact absurd h (by decide)
    | decide

theorem groups_spec {ops : List Op} (h : groups ops) : OpTree.Groups Op.prec Op.comb ops := by
  induction ops with
  | nil => trivial
  | cons o ops ih =>
    cases ops with
    | nil => trivial
    | cons p s =>
      rw [groups, Bool.and_eq_true, Bool.or_eq_true] at h
      refine ⟨ih h.1, h.2.imp (fun hlt => ?_) fun hre => ?_⟩
      · simpa using hlt
      · exact ⟨Op.prec_le_of_regroups hre, Op.regroups_spec hre⟩

/-- The two trees have the same value where the operators group. -/
theorem value_parse_of_groups {a : UInt64} {s : List (Op × UInt64)}
    (h : groups (s.map Prod.fst)) : value (parse a s) = value (.climb Op.prec a s) := by
  rw [parse_eq_rightNest, value, value, OpTree.eval_climb_eq_rightNest (groups_spec h)]

/-! ## Conditions -/

inductive LogOp
  | logand
  | logor
  deriving DecidableEq, Repr

namespace LogOp

def prec : LogOp → ℕ
  | logor => 0
  | logand => 1

/-- The right side is evaluated only where the left one does not decide. -/
def comb : LogOp → Option Bool → Option Bool → Option Bool
  | logand, x, y => x.bind fun b => if b then y else some false
  | logor, x, y => x.bind fun b => if b then some true else y

end LogOp

inductive CmpOp
  | eq
  | ne
  | le
  | ge
  | lt
  | gt
  deriving DecidableEq, Repr

def CmpOp.test : CmpOp → UInt64 → UInt64 → Bool
  | eq, a, b => a == b
  | ne, a, b => a != b
  | le, a, b => a ≤ b
  | ge, a, b => b ≤ a
  | lt, a, b => a < b
  | gt, a, b => b < a

/-- A comparison of two arithmetic expressions, or a call. The grammar takes every arithmetic operator
to one of the sides. -/
inductive Cmp
  | cmp (o : CmpOp) (a : UInt64) (s : List (Op × UInt64)) (b : UInt64) (t : List (Op × UInt64))
  | call (v : Bool)

/-- The truth of a comparison as it is parsed. -/
def Cmp.truth : Cmp → Option Bool
  | cmp o a s b t =>
    (value (parse a s)).bind fun x => (value (parse b t)).bind fun y => some (o.test x y)
  | call v => some v

/-- An operator between the operands of a comparison in C. -/
inductive COp
  | arith (o : Op)
  | cmp (o : CmpOp)

namespace COp

/-- The precedence in C, where `|` and `&` bind looser than the comparisons. -/
def prec : COp → ℕ
  | arith o => if o.prec < 2 then o.prec else o.prec + 2
  | cmp .eq | cmp .ne => 2
  | cmp _ => 3

/-- In C the result of a comparison is a number. -/
def comb : COp → Option UInt64 → Option UInt64 → Option UInt64
  | arith o, x, y => o.comb x y
  | cmp o, x, y => x.bind fun a => y.bind fun b => some (if o.test a b then 1 else 0)

end COp

/-- The operators and operands of a comparison in a row. -/
def CmpOp.row (o : CmpOp) (s : List (Op × UInt64)) (b : UInt64) (t : List (Op × UInt64)) :
    List (COp × UInt64) :=
  s.map (Prod.map .arith id) ++ (.cmp o, b) :: t.map (Prod.map .arith id)

/-- The truth of a comparison as C groups it. -/
def Cmp.truthC : Cmp → Option Bool
  | cmp o a s b t => ((OpTree.climb COp.prec a (o.row s b t)).eval COp.comb some).map (· != 0)
  | call v => some v

/-- There is no `|` and no `&`. -/
def plain (ops : List Op) : Bool := ops.all fun o => 2 ≤ o.prec

/-- The operators of both sides group, and none binds looser than the comparison. -/
def Cmp.groups : Cmp → Bool
  | cmp _ _ s _ t =>
    Parse.groups (s.map Prod.fst) && Parse.groups (t.map Prod.fst) &&
      (plain (s.map Prod.fst) && plain (t.map Prod.fst))
  | call _ => true

/-- The truth of a condition as it is parsed. -/
def condParsed (c : Cmp) (s : List (LogOp × Cmp)) : Option Bool :=
  (parse c s).eval LogOp.comb Cmp.truth

/-- The truth of a condition as C groups it: `&&` and `||` bind looser than all other operators. -/
def condC (c : Cmp) (s : List (LogOp × Cmp)) : Option Bool :=
  (OpTree.climb LogOp.prec c s).eval LogOp.comb Cmp.truthC

/-- No `||` follows an `&&`. -/
def logGroups (ops : List LogOp) : Prop := ops.Pairwise fun o p => ¬ (o = .logand ∧ p = .logor)

theorem LogOp.regroups_self (o : LogOp) : OpTree.Regroups LogOp.comb o o := by
  intro x y z
  cases o <;> rcases x with _ | _ | _ <;> rfl

theorem logGroups_spec {ops : List LogOp} (h : logGroups ops) :
    OpTree.Groups LogOp.prec LogOp.comb ops := by
  induction ops with
  | nil => trivial
  | cons o ops ih =>
    rw [logGroups, List.pairwise_cons] at h
    cases ops with
    | nil => trivial
    | cons p s =>
      refine ⟨ih h.2, ?_⟩
      by_cases heq : o = p
      · exact .inr ⟨heq ▸ le_rfl, heq ▸ o.regroups_self⟩
      · -- `o` is `||` and `p` is `&&`, so `&&` is all that follows
        cases o with
        | logand => cases p with
          | logand => exact absurd rfl heq
          | logor => exact absurd ⟨rfl, rfl⟩ (h.1 .logor List.mem_cons_self)
        | logor => cases p with
          | logor => exact absurd rfl heq
          | logand =>
            left
            intro q hq
            cases q with
            | logand => decide
            | logor =>
              rcases List.mem_cons.mp hq with hq | hq
              · cases hq
              · exact absurd ⟨rfl, rfl⟩ ((List.pairwise_cons.mp h.2).1 _ hq)

theorem prec_arith_lt_iff (o p : Op) : (COp.arith o).prec < (COp.arith p).prec ↔ o.prec < p.prec := by
  cases o <;> cases p <;> decide

/-- Operators of arithmetic have the tree they have without a comparison. -/
theorem eval_climb_arith (a : UInt64) (s : List (Op × UInt64)) :
    (OpTree.climb COp.prec a (s.map (Prod.map .arith id))).eval COp.comb some =
      value (.climb Op.prec a s) := by
  rw [OpTree.climb_map prec_arith_lt_iff, OpTree.eval_mapOp fun _ => rfl]
  rfl

theorem CmpOp.prec_le (o : CmpOp) : (COp.cmp o).prec ≤ 3 := by
  cases o <;> decide

theorem prec_of_plain {ops : List Op} (h : plain ops) {o : Op} (ho : o ∈ ops) :
    4 ≤ (COp.arith o).prec := by
  have hle : 2 ≤ o.prec := by simpa using List.all_eq_true.mp h o ho
  rw [COp.prec, if_neg (by omega)]
  omega

theorem map_fst_arith (s : List (Op × UInt64)) :
    (s.map (Prod.map COp.arith id)).map Prod.fst = (s.map Prod.fst).map .arith := by
  simp [Function.comp_def]

/-- Without `|` and `&` the comparison is the root in C. -/
theorem climb_row {o : CmpOp} {s t : List (Op × UInt64)} (hs : plain (s.map Prod.fst))
    (ht : plain (t.map Prod.fst)) (a b : UInt64) :
    OpTree.climb COp.prec a (o.row s b t) =
      .node (.cmp o) (.climb COp.prec a (s.map (Prod.map .arith id)))
        (.climb COp.prec b (t.map (Prod.map .arith id))) := by
  have hle := o.prec_le
  refine OpTree.climb_node (fun p hp => ?_) fun q hq => ?_
  · rw [map_fst_arith, List.mem_map] at hp
    obtain ⟨p, hp, rfl⟩ := hp
    have := prec_of_plain hs hp
    omega
  · rw [map_fst_arith, List.mem_map] at hq
    obtain ⟨q, hq, rfl⟩ := hq
    have := prec_of_plain ht hq
    omega

theorem truth_of_number (x y : Option UInt64) (o : CmpOp) :
    ((COp.cmp o).comb x y).map (· != 0) = x.bind fun a => y.bind fun b => some (o.test a b) := by
  cases x with
  | none => rfl
  | some x =>
    cases y with
    | none => rfl
    | some y =>
      simp only [COp.comb, Option.bind_some, Option.map_some]
      cases o.test x y <;> rfl

theorem Cmp.truth_eq_truthC {c : Cmp} (h : c.groups) : c.truth = c.truthC := by
  cases c with
  | cmp o a s b t =>
    simp only [Cmp.groups, Bool.and_eq_true] at h
    obtain ⟨⟨hs, ht⟩, hs', ht'⟩ := h
    rw [Cmp.truth, Cmp.truthC, climb_row hs' ht', OpTree.eval, truth_of_number, eval_climb_arith,
      eval_climb_arith, value_parse_of_groups hs, value_parse_of_groups ht]
  | call v => rfl

/-- A condition that groups is parsed as in C. -/
theorem condParsed_of_groups {c : Cmp} {s : List (LogOp × Cmp)} (h : logGroups (s.map Prod.fst))
    (hcmp : ∀ x ∈ c :: s.map Prod.snd, x.groups) : condParsed c s = condC c s := by
  rw [condParsed, condC, OpTree.eval_climb_eq_rightNest (logGroups_spec h), parse_eq_rightNest]
  exact OpTree.eval_rightNest_congr fun x hx => Cmp.truth_eq_truthC (hcmp x hx)

/-! ## Where conditions go wrong -/

theorem exists_last_of_mem {l : List LogOp} (h : LogOp.logor ∈ l) :
    ∃ l₂ l₃, l = l₂ ++ .logor :: l₃ ∧ ∀ o ∈ l₃, o = .logand := by
  obtain ⟨as, bs, heq, hnot⟩ := List.eq_append_cons_of_mem (List.mem_reverse.mpr h)
  refine ⟨bs.reverse, as.reverse, ?_, fun o ho => ?_⟩
  · rw [← List.reverse_reverse l, heq]
    simp
  · cases o with
    | logand => rfl
    | logor => exact absurd (List.mem_reverse.mp ho) hnot

/-- The first `&&` with a `||` somewhere after it, and the last such `||`. -/
theorem exists_logand_logor {ops : List LogOp} (h : ¬ logGroups ops) :
    ∃ l₁ l₂ l₃, ops = l₁ ++ .logand :: (l₂ ++ .logor :: l₃) ∧ (∀ o ∈ l₁, o = .logor) ∧
      ∀ o ∈ l₃, o = .logand := by
  induction ops with
  | nil => exact absurd List.Pairwise.nil h
  | cons o ops ih =>
    rw [logGroups, List.pairwise_cons, not_and_or] at h
    cases o with
    | logor =>
      obtain ⟨l₁, l₂, l₃, rfl, h₁, h₃⟩ := ih (h.resolve_left (by simp))
      refine ⟨.logor :: l₁, l₂, l₃, rfl, ?_, h₃⟩
      simpa using h₁
    | logand =>
      have hmem : LogOp.logor ∈ ops := by
        by_contra hnot
        refine h.elim (fun h' => h' ?_) (fun h' => h' ?_)
        · rintro p hp ⟨-, rfl⟩
          exact hnot hp
        · refine List.pairwise_of_forall_mem_list fun p _ q hq => ?_
          rintro ⟨-, rfl⟩
          exact hnot hq
      obtain ⟨l₂, l₃, rfl, h₃⟩ := exists_last_of_mem hmem
      exact ⟨[], l₂, l₃, rfl, by simp, h₃⟩

/-- Calls with one result after the operators. -/
def calls (v : Bool) (ops : List LogOp) : List (LogOp × Cmp) := ops.map fun o => (o, .call v)

@[simp] theorem map_fst_calls (v : Bool) (ops : List LogOp) : (calls v ops).map Prod.fst = ops := by
  simp [calls, Function.comp_def]

theorem groups_of_mem_calls {v : Bool} {ops : List LogOp} {x : Cmp}
    (h : x ∈ (calls v ops).map Prod.snd) : x.groups := by
  simp only [calls, List.map_map, List.mem_map, Function.comp_def] at h
  obtain ⟨-, -, rfl⟩ := h
  rfl

/-- Calls that are all true, joined by `&&`. -/
theorem eval_climb_logand {ρ : Cmp → Option Bool} (hρ : ∀ v, ρ (.call v) = some v)
    {ops : List LogOp} (h : ∀ o ∈ ops, o = .logand) :
    (OpTree.climb LogOp.prec (.call true) (calls true ops)).eval LogOp.comb ρ = some true := by
  have hgroups : logGroups ((calls true ops).map Prod.fst) := by
    rw [map_fst_calls]
    refine List.pairwise_of_forall_mem_list fun p _ q hq => ?_
    rw [h q hq]
    simp
  rw [OpTree.eval_climb_eq_rightNest (logGroups_spec hgroups)]
  clear hgroups
  induction ops with
  | nil => exact hρ true
  | cons o ops ih =>
    obtain rfl : o = .logand := h o List.mem_cons_self
    rw [calls, List.map_cons, OpTree.rightNest, OpTree.eval, OpTree.eval, hρ, ← calls,
      ih fun p hp => h p (List.mem_cons_of_mem _ hp)]
    rfl

/-- A false call before the first `&&`, with nothing true before it. -/
theorem eval_rightNest_logor {ρ : Cmp → Option Bool} (hρ : ∀ v, ρ (.call v) = some v)
    {ops : List LogOp} (h : ∀ o ∈ ops, o = .logor) (x : Cmp) (s : List (LogOp × Cmp)) :
    (OpTree.rightNest (.call false)
      (calls false ops ++ (.logand, x) :: s)).eval LogOp.comb ρ = some false := by
  induction ops with
  | nil =>
    rw [calls, List.map_nil, List.nil_append, OpTree.rightNest, OpTree.eval, OpTree.eval, hρ]
    rfl
  | cons o ops ih =>
    obtain rfl : o = .logor := h o List.mem_cons_self
    rw [calls, List.map_cons, List.cons_append, OpTree.rightNest, OpTree.eval, OpTree.eval, hρ,
      ← calls, ih fun p hp => h p (List.mem_cons_of_mem _ hp)]
    rfl

/-- Nothing is true up to the first `&&`, and everything after it is. -/
def falseThenTrue (l₁ l₂ l₃ : List LogOp) : List (LogOp × Cmp) :=
  calls false l₁ ++ (.logand, .call true) ::
    (calls true l₂ ++ (.logor, .call true) :: calls true l₃)

theorem condParsed_falseThenTrue {l₁ : List LogOp} (h : ∀ o ∈ l₁, o = .logor)
    (l₂ l₃ : List LogOp) : condParsed (.call false) (falseThenTrue l₁ l₂ l₃) = some false := by
  rw [condParsed, parse_eq_rightNest]
  exact eval_rightNest_logor (fun _ => rfl) h _ _

theorem condC_falseThenTrue {l₃ : List LogOp} (h : ∀ o ∈ l₃, o = .logand) (l₁ l₂ : List LogOp) :
    condC (.call false) (falseThenTrue l₁ l₂ l₃) ≠ some false := by
  have hρ : ∀ v, Cmp.truthC (.call v) = some v := fun _ => rfl
  have hsplit : falseThenTrue l₁ l₂ l₃ =
      (calls false l₁ ++ (.logand, .call true) :: calls true l₂) ++
        (.logor, .call true) :: calls true l₃ := by
    rw [falseThenTrue, List.append_assoc, List.cons_append]
  -- the last `||` is the root in C
  have hafter : ∀ q ∈ (calls true l₃).map Prod.fst, LogOp.logor.prec < q.prec := by
    intro q hq
    rw [map_fst_calls] at hq
    rw [h q hq]
    decide
  have hroot : OpTree.climb LogOp.prec (.call false)
      ((calls false l₁ ++ (.logand, .call true) :: calls true l₂) ++
        (.logor, .call true) :: calls true l₃) =
        .node .logor (.climb LogOp.prec (.call false)
          (calls false l₁ ++ (.logand, .call true) :: calls true l₂))
          (.climb LogOp.prec (.call true) (calls true l₃)) :=
    OpTree.climb_node (fun _ _ => Nat.zero_le _) hafter
  rw [condC, hsplit, hroot, OpTree.eval, eval_climb_logand hρ h]
  cases OpTree.eval LogOp.comb Cmp.truthC
      (.climb LogOp.prec (.call false) (calls false l₁ ++ (.logand, .call true) :: calls true l₂)) with
  | none => simp [LogOp.comb]
  | some b => cases b <;> simp [LogOp.comb]

/-- Whatever comparisons stand between them, the operators are grouped as in C. -/
def CondAgrees (ops : List LogOp) : Prop :=
  ∀ (c : Cmp) (s : List (LogOp × Cmp)), s.map Prod.fst = ops →
    (∀ x ∈ c :: s.map Prod.snd, x.groups) → condParsed c s = condC c s

theorem condAgrees_iff (ops : List LogOp) : CondAgrees ops ↔ logGroups ops := by
  constructor
  · intro h
    by_contra hnot
    obtain ⟨l₁, l₂, l₃, rfl, h₁, h₃⟩ := exists_logand_logor hnot
    have hs : ∀ x ∈ Cmp.call false :: (falseThenTrue l₁ l₂ l₃).map Prod.snd, x.groups := by
      simp only [falseThenTrue, List.map_append, List.map_cons, List.mem_cons, List.mem_append]
      rintro x (rfl | hx | rfl | hx | rfl | hx)
      · rfl
      · exact groups_of_mem_calls hx
      · rfl
      · exact groups_of_mem_calls hx
      · rfl
      · exact groups_of_mem_calls hx
    have heq := h (.call false) (falseThenTrue l₁ l₂ l₃) (by simp [falseThenTrue]) hs
    rw [condParsed_falseThenTrue h₁] at heq
    exact condC_falseThenTrue h₃ l₁ l₂ heq.symm
  · rintro h c s rfl hcmp
    exact condParsed_of_groups h hcmp

end Fsl.Parse
