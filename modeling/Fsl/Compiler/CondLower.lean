import Fsl.Compiler.CondRun
import Fsl.Compiler.Precedence

/-!
# Conditions and the blocks of their code

A condition compares arithmetic expressions without sign or calls a function that returns a boolean.
Its code has a block where the two ways of each `&&` and `||` meet; the instruction there that takes
the value of the way the run comes from names the blocks before it. These are the blocks that jump to
it and no others, although the right operand may end in another block than the one it began in.
-/

namespace Fsl.Parse

/-! ## Comparisons -/

/-- `llvm::CmpInst::Predicate`: those in use. -/
inductive Predicate
  | icmpEq
  | icmpNe
  | icmpUle
  | icmpUlt
  | icmpUgt
  | icmpUge
  deriving DecidableEq, Repr

/-- The predicate in `CmpOp::codeGen`. -/
def CmpOp.pred : CmpOp → Predicate
  | eq => .icmpEq
  | ne => .icmpNe
  | le => .icmpUle
  | lt => .icmpUlt
  | gt => .icmpUgt
  | ge => .icmpUge

/-- What a comparison of two words returns. -/
def Predicate.icmp : Predicate → BitVec 64 → BitVec 64 → Bool
  | icmpEq, a, b => a == b
  | icmpNe, a, b => !(a == b)
  | icmpUle, a, b => a.ule b
  | icmpUlt, a, b => a.ult b
  | icmpUgt, a, b => b.ult a
  | icmpUge, a, b => b.ule a

/-- What the operator says about two numbers. -/
def CmpOp.holds : CmpOp → ℕ → ℕ → Bool
  | eq, a, b => decide (a = b)
  | ne, a, b => decide (a ≠ b)
  | le, a, b => decide (a ≤ b)
  | lt, a, b => decide (a < b)
  | gt, a, b => decide (a > b)
  | ge, a, b => decide (a ≥ b)

theorem CmpOp.icmp_pred (o : CmpOp) (a b : UInt64) :
    o.pred.icmp a.toBitVec b.toBitVec = o.holds a.toNat b.toNat := by
  have heq : a.toBitVec = b.toBitVec ↔ a.toNat = b.toNat := by
    rw [UInt64.toBitVec_inj, UInt64.toNat_inj]
  cases o with
  | eq => exact (beq_eq_decide _ _).trans (decide_eq_decide.mpr heq)
  | ne =>
    show (!(a.toBitVec == b.toBitVec)) = decide (¬ a.toNat = b.toNat)
    rw [decide_not, beq_eq_decide, decide_eq_decide.mpr heq]
  | le => rfl
  | lt => rfl
  | gt => rfl
  | ge => rfl

end Fsl.Parse

namespace Fsl.Func

open BasicBlocks Runs Parse

/-! ## Conditions -/

/-- `CondExpr` -/
inductive CondExpr
  | cmp (o : CmpOp) (lhs rhs : Expr)
  /-- `FuncCond`: a call of a function that returns a boolean. -/
  | func (fc : Ctx → Env → Option Bool)
  | not (cexpr : CondExpr)
  | and (lhs rhs : CondExpr)
  | or (lhs rhs : CondExpr)

namespace CondExpr

/-- `CmpOp::codeGen`: both operands and the comparison. -/
def icmp (o : CmpOp) (lhs rhs : Expr) (ctx : Ctx) (env : Env) : Option Bool :=
  (lhs ctx env).bind fun a => (rhs ctx env).map fun b => o.pred.icmp a.toBitVec b.toBitVec

/-- The conditions whose code is generated: a comparison and a call are one instruction. -/
def toCond : CondExpr → Cond
  | cmp o lhs rhs => .test (icmp o lhs rhs)
  | func fc => .test fc
  | not c => .not c.toCond
  | and a b => .and a.toCond b.toCond
  | or a b => .or a.toCond b.toCond

/-- `CondExpr::codeGen` -/
def codeGen (c : CondExpr) (β : Builder) : Builder × Val := c.toCond.codeGen β

/-- The truth value of a condition under the comparison of unsigned numbers; of the right operand
only where it matters. -/
def truth (ctx : Ctx) (env : Env) : CondExpr → Option Bool
  | cmp o lhs rhs => (lhs ctx env).bind fun a => (rhs ctx env).map fun b =>
      o.holds a.toNat b.toNat
  | func fc => fc ctx env
  | not c => (c.truth ctx env).map (!·)
  | and a b => (a.truth ctx env).bind fun x => if x then b.truth ctx env else some false
  | or a b => (a.truth ctx env).bind fun x => if x then some true else b.truth ctx env

/-- The comparisons and calls that are to be evaluated, in order: those of the right operand of `&&`
exactly when the left one is true, those of the right operand of `||` exactly when it is false. -/
def evaluated (ctx : Ctx) (env : Env) : CondExpr → List (Ctx → Env → Option Bool)
  | cmp o lhs rhs => [icmp o lhs rhs]
  | func fc => [fc]
  | not c => c.evaluated ctx env
  | and a b => a.evaluated ctx env ++
      if a.truth ctx env = some true then b.evaluated ctx env else []
  | or a b => a.evaluated ctx env ++
      if a.truth ctx env = some false then b.evaluated ctx env else []

end CondExpr

/-- The comparison without sign is the one the operators mean. -/
theorem CondExpr.eval_toCond (c : CondExpr) (ctx : Ctx) (env : Env) :
    c.toCond.eval ctx env = c.truth ctx env := by
  induction c with
  | cmp o lhs rhs =>
    show (lhs ctx env).bind _ = (lhs ctx env).bind _
    apply congrArg
    funext a
    apply congrArg fun f => Option.map f (rhs ctx env)
    funext b
    exact o.icmp_pred a b
  | func fc => rfl
  | not c ih => rw [toCond, Cond.eval, ih, truth]
  | and a b iha ihb => rw [toCond, Cond.eval, iha, ihb, truth]
  | or a b iha ihb => rw [toCond, Cond.eval, iha, ihb, truth]

theorem CondExpr.tests_toCond (c : CondExpr) (ctx : Ctx) (env : Env) :
    c.toCond.tests ctx env = c.evaluated ctx env := by
  induction c with
  | cmp o lhs rhs => rfl
  | func fc => rfl
  | not c ih => rw [toCond, Cond.tests, ih, evaluated]
  | and a b iha ihb => rw [toCond, Cond.tests, iha, ihb, a.eval_toCond, evaluated]
  | or a b iha ihb => rw [toCond, Cond.tests, iha, ihb, a.eval_toCond, evaluated]

/-! ## Where the ways meet -/

/-- The blocks an instruction may go to. -/
def Instr.targets : Instr → List ℕ
  | .br b => [b]
  | .condBr _ b₁ b₂ => [b₁, b₂]
  | _ => []

/-- `isa<PHINode>` -/
def Instr.isPhi : Instr → Bool
  | .phi _ _ _ _ => true
  | _ => false

/-- The blocks that a `phi` of block `b` names are the ones that jump to `b`. -/
def PhiExact (β : Builder) (b : ℕ) : Prop :=
  ∀ v₁ b₁ v₂ b₂, .phi v₁ b₁ v₂ b₂ ∈ β.blocks b →
    ∀ p, β.Jumps Instr.targets p b ↔ p = b₁ ∨ p = b₂

/-- Code that was added jumps to its own blocks only and has exact `phi`s in these only. -/
structure Lowered (β β' : Builder) : Prop where
  jumps : ∀ p, ∀ b < β.next, β'.Jumps Instr.targets p b ↔ β.Jumps Instr.targets p b
  phi : ∀ i, i.isPhi = true → ∀ b < β.next, i ∈ β'.blocks b ↔ i ∈ β.blocks b
  exact : ∀ b, β.next ≤ b → PhiExact β' b

section Lower

variable {β β' : Builder}

theorem mem_emit_phi {i j : Instr} (hi : i.isPhi = false) (hj : j.isPhi = true) {b : ℕ} :
    j ∈ (β.emit i).blocks b ↔ j ∈ β.blocks b := by
  rw [Code.mem_emit, or_iff_left]
  rintro ⟨-, rfl⟩
  rw [hi] at hj
  cases hj

theorem jumps_emit_of {i : Instr} (hi : i.targets = []) {p b : ℕ} :
    (β.emit i).Jumps Instr.targets p b ↔ β.Jumps Instr.targets p b := by
  rw [Code.jumps_emit, hi, or_iff_left]
  rintro ⟨-, hb⟩
  exact List.not_mem_nil hb

/-- An instruction without jumps that is no `phi`. -/
theorem Lowered.plain {i : Instr} (h : Lowered β β') (hphi : i.isPhi = false)
    (htargets : i.targets = []) : Lowered β (β'.emit i) := by
  refine ⟨fun p b hb => ?_, fun j hj b hb => ?_, fun b hb v₁ b₁ v₂ b₂ hmem p => ?_⟩
  · rw [jumps_emit_of htargets]
    exact h.jumps p b hb
  · rw [mem_emit_phi hphi hj]
    exact h.phi j hj b hb
  · rw [jumps_emit_of htargets]
    exact h.exact b hb v₁ b₁ v₂ b₂ ((mem_emit_phi hphi rfl).mp hmem) p

theorem Lowered.refl (hv : β.Valid) : Lowered β β := by
  refine ⟨fun p b hb => Iff.rfl, fun j hj b hb => Iff.rfl, fun b hb v₁ b₁ v₂ b₂ hmem => ?_⟩
  rw [hv.nil b hb] at hmem
  exact absurd hmem List.not_mem_nil

/-- Two operands and the block where their ways meet, the last of three that were created before. `X`
are the jumps between the operands, `Y` those behind the right one. -/
theorem Lowered.meet {βa βx βb : Builder} {X Y : ℕ → ℕ → Prop} {v₁ v₂ : Val} {b₁ b₂ : ℕ}
    (hv : β.Valid) (hbound : β.Bounded Instr.targets) (ha : Lowered (β.alloc 3) βa)
    (hb : Lowered βx βb) (hnext : β.next + 3 ≤ βx.next)
    (hjx : ∀ p b, βx.Jumps Instr.targets p b ↔ βa.Jumps Instr.targets p b ∨ X p b)
    (hx : ∀ p b, X p b → β.next ≤ b ∧ b < β.next + 3)
    (hpx : ∀ i, i.isPhi = true → ∀ b, i ∈ βx.blocks b ↔ i ∈ βa.blocks b)
    (hjy : ∀ p b, β'.Jumps Instr.targets p b ↔ βb.Jumps Instr.targets p b ∨ Y p b)
    (hy : ∀ p b, Y p b → b = β.next + 2)
    (hpy : ∀ i, i.isPhi = true → ∀ b, i ∈ β'.blocks b ↔
      i ∈ βb.blocks b ∨ b = β.next + 2 ∧ i = .phi v₁ b₁ v₂ b₂)
    (hmeet : ∀ p, X p (β.next + 2) ∨ Y p (β.next + 2) ↔ p = b₁ ∨ p = b₂) : Lowered β β' := by
  -- the three blocks have no `phi`s after the right operand, and only the jumps `X`
  have hnone : ∀ i, i.isPhi = true → ∀ b, β.next ≤ b → b < β.next + 3 → ¬ i ∈ βb.blocks b := by
    intro i hi b hle hlt hmem
    rw [hb.phi i hi b (by omega), hpx i hi, ha.phi i hi b hlt] at hmem
    change i ∈ β.blocks b at hmem
    rw [hv.nil b hle] at hmem
    exact List.not_mem_nil hmem
  have hmerge : ∀ p, βb.Jumps Instr.targets p (β.next + 2) ↔ X p (β.next + 2) := by
    intro p
    rw [hb.jumps p _ (by omega), hjx, ha.jumps p _ (by simp), Code.jumps_alloc, or_iff_right]
    intro hold
    have hlt := hbound p _ hold
    omega
  refine ⟨fun p b hlt => ?_, fun i hi b hlt => ?_, fun b hle w₁ c₁ w₂ c₂ hmem p => ?_⟩
  · have hX : ¬ X p b := fun h => absurd (hx p b h).1 (by omega)
    have hY : ¬ Y p b := fun h => absurd (hy p b h) (by omega)
    rw [hjy, or_iff_left hY, hb.jumps p b (by omega), hjx, or_iff_left hX,
      ha.jumps p b (by simp; omega), Code.jumps_alloc]
  · rw [hpy i hi, hb.phi i hi b (by omega), hpx i hi, ha.phi i hi b (by simp; omega), or_iff_left]
    · rfl
    · rintro ⟨heq, -⟩
      omega
  · rcases (hpy _ rfl b).mp hmem with hmem | ⟨rfl, hphi⟩
    · -- a `phi` of one of the operands
      have hge : β.next + 3 ≤ b := by
        by_contra hlt
        exact hnone _ rfl b hle (by omega) hmem
      have hY : ¬ Y p b := fun h => absurd (hy p b h) (by omega)
      rw [hjy, or_iff_left hY]
      by_cases hlt : b < βx.next
      · have hX : ¬ X p b := fun h => absurd (hx p b h).2 (by omega)
        rw [hb.phi _ rfl b hlt, hpx _ rfl] at hmem
        rw [hb.jumps p b hlt, hjx, or_iff_left hX]
        exact ha.exact b hge w₁ c₁ w₂ c₂ hmem p
      · exact hb.exact b (not_lt.mp hlt) w₁ c₁ w₂ c₂ hmem p
    · cases hphi
      rw [hjy, hmerge]
      exact hmeet p

/-- The jump after the left operand. -/
theorem jumps_branchOn (c : Cond) (p b : ℕ) :
    (branchOn c 3 β).Jumps Instr.targets p b ↔ (c.codeGen (β.alloc 3)).1.Jumps Instr.targets p b ∨
      p = (c.codeGen (β.alloc 3)).1.cur ∧ (b = β.next ∨ b = β.next + 1) := by
  rw [branchOn, Code.jumps_setInsertPoint, Code.jumps_emit]
  simp [Instr.targets]

theorem mem_branchOn_phi (c : Cond) {i : Instr} (hi : i.isPhi = true) (b : ℕ) :
    i ∈ (branchOn c 3 β).blocks b ↔ i ∈ (c.codeGen (β.alloc 3)).1.blocks b := by
  rw [branchOn, Code.blocks_setInsertPoint, mem_emit_phi rfl hi]

theorem bounded_branchOn {c : Cond} (hv : β.Valid)
    (h : (c.codeGen (β.alloc 3)).1.Bounded Instr.targets) :
    (branchOn c 3 β).Bounded Instr.targets := by
  have hnext : β.next + 3 ≤ (c.codeGen (β.alloc 3)).1.next := (c.codeGen_grows (hv.alloc 3)).next_le
  apply (h.emit _).setInsertPoint
  intro b hb
  simp only [Instr.targets, List.mem_cons, List.not_mem_nil, or_false] at hb
  omega

/-- The code of a condition, added to code without jumps to blocks that are still to be created. -/
theorem Cond.codeGen_lowered (c : Cond) (hv : β.Valid) (hbound : β.Bounded Instr.targets) :
    Lowered β (c.codeGen β).1 ∧ (c.codeGen β).1.Bounded Instr.targets := by
  induction c generalizing β with
  | test k =>
    refine ⟨(Lowered.refl hv).plain rfl rfl, hbound.emit fun b hb => ?_⟩
    exact absurd hb List.not_mem_nil
  | not a ih =>
    obtain ⟨ha, hbounda⟩ := ih hv hbound
    refine ⟨ha.plain rfl rfl, hbounda.emit fun b hb => ?_⟩
    exact absurd hb List.not_mem_nil
  | and a b iha ihb =>
    obtain ⟨ha, hbounda⟩ := iha (hv.alloc 3) (hbound.alloc 3)
    obtain ⟨hgrows, hnext⟩ := branchOn_grows a (k := 3) hv (by omega)
    obtain ⟨hb, hboundb⟩ := ihb hgrows.after (bounded_branchOn hv hbounda)
    have hnextb : (branchOn a 3 β).next ≤ (b.codeGen (branchOn a 3 β)).1.next :=
      (b.codeGen_grows hgrows.after).next_le
    rw [codeGen_and]
    constructor
    · apply Lowered.meet hv hbound ha hb hnext (jumps_branchOn a)
        (Y := fun p b' => (p = (b.codeGen (branchOn a 3 β)).1.cur ∨ p = β.next + 1) ∧ b' = β.next + 2)
      · rintro p b' ⟨-, rfl | rfl⟩ <;> omega
      · exact fun i hi b' => mem_branchOn_phi a hi b'
      · intro p b'
        rw [jumps_emit_of rfl, andMerge, andElse, Code.jumps_setInsertPoint, Code.jumps_emit,
          Code.jumps_setInsertPoint, Code.jumps_emit]
        simp only [Instr.targets, List.mem_singleton, Code.cur_setInsertPoint, or_assoc, or_and_right]
      · exact fun p b' h => h.2
      · intro i hi b'
        rw [Code.mem_emit, andMerge, andElse, Code.blocks_setInsertPoint, mem_emit_phi rfl hi,
          Code.blocks_setInsertPoint, mem_emit_phi rfl hi]
        rfl
      · intro p
        simp
    · have h₁ : (andElse a b β).Bounded Instr.targets :=
        (hboundb.emit fun b' hb' => by rw [List.mem_singleton.mp hb']; omega).setInsertPoint _
      have h₂ : (andMerge a b β).Bounded Instr.targets :=
        (h₁.emit fun b' hb' => by
          rw [List.mem_singleton.mp hb']
          exact Nat.lt_of_lt_of_le (by omega) hnextb).setInsertPoint _
      exact h₂.emit fun b' hb' => absurd hb' List.not_mem_nil
  | or a b iha ihb =>
    obtain ⟨ha, hbounda⟩ := iha (hv.alloc 3) (hbound.alloc 3)
    obtain ⟨hgrows, hnext⟩ := branchOn_grows a (k := 3) hv (by omega)
    have hboundx : (branchOn a 3 β).Bounded Instr.targets := bounded_branchOn hv hbounda
    have hboundy : (orElse a β).Bounded Instr.targets :=
      (hboundx.emit fun b' hb' => by rw [List.mem_singleton.mp hb']; omega).setInsertPoint _
    have hvy : (orElse a β).Valid :=
      (hgrows.after.emit _).setInsertPoint (Nat.lt_of_lt_of_le (by omega) hnext)
    obtain ⟨hb, hboundb⟩ := ihb hvy hboundy
    have hnextb : (branchOn a 3 β).next ≤ (b.codeGen (orElse a β)).1.next :=
      (b.codeGen_grows hvy).next_le
    rw [codeGen_or]
    constructor
    · apply Lowered.meet hv hbound ha hb hnext
        (X := fun p b' => p = (a.codeGen (β.alloc 3)).1.cur ∧ (b' = β.next ∨ b' = β.next + 1) ∨
          p = β.next ∧ b' = β.next + 2)
        (Y := fun p b' => p = (b.codeGen (orElse a β)).1.cur ∧ b' = β.next + 2)
      · intro p b'
        rw [orElse, Code.jumps_setInsertPoint, Code.jumps_emit, jumps_branchOn, or_assoc]
        simp only [Instr.targets, List.mem_singleton]
        rfl
      · rintro p b' (⟨-, rfl | rfl⟩ | ⟨-, rfl⟩) <;> omega
      · intro i hi b'
        rw [orElse, Code.blocks_setInsertPoint, mem_emit_phi rfl hi, mem_branchOn_phi a hi]
      · intro p b'
        rw [jumps_emit_of rfl, orMerge, Code.jumps_setInsertPoint, Code.jumps_emit]
        simp only [Instr.targets, List.mem_singleton]
      · exact fun p b' h => h.2
      · intro i hi b'
        rw [Code.mem_emit, orMerge, Code.blocks_setInsertPoint, mem_emit_phi rfl hi]
        rfl
      · intro p
        simp
    · have h₁ : (orMerge a b β).Bounded Instr.targets :=
        (hboundb.emit fun b' hb' => by rw [List.mem_singleton.mp hb']; omega).setInsertPoint _
      exact h₁.emit fun b' hb' => absurd hb' List.not_mem_nil

end Lower

/-! ## Short circuits -/

/-- The code of a condition, inside of the code `F` of any function, has the truth value of the
condition and evaluates what is to be evaluated; where that fails, the run is stuck there. Each block it
leaves has exactly one terminator, and each `phi` names the blocks that jump to its own. -/
structure ShortCircuits (c : CondExpr) (β : Builder) : Prop where
  value : ∀ F, Below (c.codeGen β).1 F → ∀ ctx env pred regs,
    Gives F ctx (.at β pred regs env) (c.codeGen β) env (c.truth ctx env) (c.evaluated ctx env)
  closed : ∀ b < (c.codeGen β).1.next, b = β.cur ∨ β.next ≤ b → b ≠ (c.codeGen β).1.cur →
    Closed Instr.isTerminator ((c.codeGen β).1.blocks b)
  phi : ∀ b, β.next ≤ b → PhiExact (c.codeGen β).1 b

/-- At any place of a function that is being generated where an instruction can be added. -/
theorem CondExpr.shortCircuits (c : CondExpr) {β : Builder} {pend : List ℕ}
    (h : Shape Instr.isTerminator pend β) (ho : Open Instr.isTerminator β.here)
    (hbound : β.Bounded Instr.targets) : ShortCircuits c β := by
  refine ⟨fun F hF ctx env pred regs => ?_, fun b hlt hb hcur => ?_, ?_⟩
  · rw [← c.eval_toCond, ← c.tests_toCond]
    exact c.toCond.codeGen_gives h ho hF pred regs
  · obtain ⟨hshape, -⟩ := c.toCond.codeGen_shape h ho
    apply hshape.closed b hlt hcur
    intro hpend
    rcases hb with rfl | hle
    · exact h.cur hpend
    · exact absurd (h.nil b hpend).1 (not_lt.mpr hle)
  · exact (c.toCond.codeGen_lowered h.valid hbound).1.exact

/-- The parameters of a function become variables without a jump. -/
theorem bounded_entryBuilder (fn : Fn) (params : List String) :
    (entryBuilder fn params).Bounded Instr.targets := by
  rintro p b ⟨i, hi, hb⟩
  have hmem : i ∈ loadArgs fn params := by
    by_cases hp : p = 0
    · rw [hp] at hi
      exact hi
    · rw [(shape_entryBuilder fn params).valid.nil p (Nat.one_le_iff_ne_zero.mpr hp)] at hi
      exact absurd hi List.not_mem_nil
  rcases List.mem_append.mp hmem with hmem | hmem
  · obtain ⟨q, -, hq⟩ := List.mem_flatMap.mp hmem
    simp only [List.mem_cons, List.not_mem_nil, or_false] at hq
    rcases hq with rfl | rfl <;> exact absurd hb List.not_mem_nil
  · obtain ⟨x, -, rfl⟩ := List.mem_map.mp hmem
    exact absurd hb List.not_mem_nil

/-- `x < 3 && (!even(x) || x >= 1)` at the beginning of a function of `x`. -/
theorem CondExpr.shortCircuits_nested :
    ShortCircuits (.and (.cmp .lt (fun _ env => (env "x").bind Value.int?) fun _ _ => some 3)
      (.or (.not (.func fun _ env => ((env "x").bind Value.int?).map fun x => x % 2 == 0))
        (.cmp .ge (fun _ env => (env "x").bind Value.int?) fun _ _ => some 1)))
      (entryBuilder plainFn ["x"]) := by
  apply CondExpr.shortCircuits _ (shape_entryBuilder plainFn ["x"]) _
    (bounded_entryBuilder plainFn ["x"])
  rw [here_entryBuilder]
  exact open_loadArgs plainFn ["x"]

end Fsl.Func
