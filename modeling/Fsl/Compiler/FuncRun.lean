import Fsl.Compiler.CondRun

/-!
# The code of a function returns what its body returns

The code generated for a statement, inside of the code of the whole function, is run from the place the
builder was at before it to the place the builder is at after it, as that of a condition is. Together
with the converse, that a run which returns has evaluated every condition and ended every loop on its
way, this gives both directions.
-/

namespace Fsl.Func

open BasicBlocks Runs

variable {fn : Fn} {F : ℕ → List Instr} {ctx : Ctx} {β : Builder} {pend : List ℕ} {env : Env}

/-! ## Conditions -/

/-- A run that returns has evaluated the condition it starts with. -/
theorem Cond.eval_of_run {c : Cond} (h : Shape Instr.isTerminator pend β)
    (ho : Open Instr.isTerminator β.here) (hF : Below (c.codeGen β).1 F) {pred k : ℕ}
    {regs : ℕ → ℕ → Bool} {v : Value}
    (hrun : run (step F ctx) k (.at β pred regs env) = some v) : ∃ x, c.eval ctx env = some x := by
  induction c generalizing β pend pred regs k with
  | test f =>
    have hget : (F β.cur)[β.here.length]? = some (.test f) := hF.getElem?
    obtain ⟨k', -, hstep⟩ := exists_step hrun
    cases hf : f ctx env with
    | some x => exact ⟨x, hf⟩
    | none => simp [step, Config.at, hget, hf] at hstep
  | not a ih =>
    obtain ⟨x, hx⟩ := ih h ho (hF.of_le ((Code.Le.refl _).emit _)) hrun
    exact ⟨!x, by rw [Cond.eval, hx]; rfl⟩
  | and a b iha ihb =>
    obtain ⟨hX, hXnil⟩ := branchOn_shape a 2 h ho
    obtain ⟨hF₁, hF₂, -⟩ := hF.and h.valid
    obtain ⟨x, hx⟩ := iha (h.alloc 3) ho (hF₁.of_le ((Code.Le.refl _).emit _)) hrun
    cases x with
    | false => exact ⟨false, by rw [Cond.eval, hx]; rfl⟩
    | true =>
      obtain ⟨pred₁, regs₁, hjump⟩ := branchOn_steps h ho hF₁ hx hXnil rfl pred regs
      obtain ⟨k', -, hrun'⟩ := hjump.run_rest hrun
      obtain ⟨y, hy⟩ := ihb hX (.of_nil hXnil)
        (hF₂.of_le ((Code.Le.refl _).emit _)) hrun'
      exact ⟨y, by rw [Cond.eval, hx]; exact hy⟩
  | or a b iha ihb =>
    obtain ⟨hY, hYnil⟩ := orElse_shape a h ho
    obtain ⟨hF₁, -, hF₃⟩ := hF.or hY.valid
    obtain ⟨x, hx⟩ := iha (h.alloc 3) ho (hF₁.of_le ((Code.Le.refl _).emit _)) hrun
    cases x with
    | true => exact ⟨true, by rw [Cond.eval, hx]; rfl⟩
    | false =>
      obtain ⟨pred₁, regs₁, hjump⟩ := branchOn_steps h ho hF₁ hx hYnil rfl pred regs
      obtain ⟨k', -, hrun'⟩ := hjump.run_rest hrun
      obtain ⟨y, hy⟩ := ihb hY (.of_nil hYnil)
        (hF₃.of_le ((Code.Le.refl _).emit _)) hrun'
      exact ⟨y, by rw [Cond.eval, hx]; exact hy⟩

/-! ## Statements -/

/-- The run gets to the end of the code of a statement, or to the return of a value. -/
def Arrives (fn : Fn) (F : ℕ → List Instr) (ctx : Ctx) (start : Config) (β : Builder) : Out → Prop
  | .next env => ∃ pred regs, Steps (step F ctx) start (.at β pred regs env)
  | .ret v => ∃ c, Steps (step F ctx) start c ∧ step F ctx c = (fn.result v).map .inr

theorem Arrives.after {start c : Config} {out : Out} (hsteps : Steps (step F ctx) start c)
    (h : Arrives fn F ctx c β out) : Arrives fn F ctx start β out := by
  cases out with
  | next env =>
    obtain ⟨pred, regs, hs⟩ := h
    exact ⟨pred, regs, hsteps.trans hs⟩
  | ret v =>
    obtain ⟨c', hs, hret⟩ := h
    exact ⟨c', hsteps.trans hs, hret⟩

/-- A statement that ends in a return does not fall through. -/
theorem not_next_of_ret {s : Stmt} (hs : s.last = some .ret) {env' : Env} :
    ¬ Exec fn ctx s env (.next env') := by
  induction s generalizing env env' with
  | skip => cases hs
  | seq a b iha ihb =>
    intro h
    cases h with
    | seqNext ha hb =>
      cases hlast : b.last with
      | none =>
        rw [Stmt.last, hlast, Option.none_or] at hs
        exact iha hs ha
      | some k =>
        rw [Stmt.last, hlast, Option.some_or] at hs
        exact ihb (hlast.trans hs) hb
  | block s ih =>
    intro h
    cases h with
    | block hexec => exact ih hs hexec
  | decl ty x => cases hs
  | assign x e names => cases hs
  | ret e names =>
    intro h
    cases h
  | ifThen c names t => cases hs
  | ifElse c names t e => cases hs
  | «while» c names s => cases hs

/-- An assignment at the end of the code so far. -/
theorem step_assignInstr {x : String} {e : ValueExpr} (h : Below (β.emit (assignInstr x e)) F)
    (pred : ℕ) (regs : ℕ → ℕ → Bool) (env : Env) :
    step F ctx (.at β pred regs env) = (e ctx env).map fun v =>
      .inl (.at (β.emit (assignInstr x e)) pred regs (assigned x v env)) := by
  have hget := h.getElem?
  simp only [assignInstr, assigned] at hget ⊢
  split at hget <;> simp_all [step, Config.at]

/-- A return at the end of the code so far. -/
theorem step_retInstr {e : ValueExpr} (h : Below (β.emit (fn.retInstr e)) F) (pred : ℕ)
    (regs : ℕ → ℕ → Bool) (env : Env) :
    step F ctx (.at β pred regs env) = ((e ctx env).bind fn.result).map .inr := by
  have hget : (F (Config.at β pred regs env).block)[(Config.at β pred regs env).idx]? =
      some (fn.retInstr e) := h.getElem?
  rw [step, hget]
  rfl

/-- The end of a branch and the jump behind it. -/
theorem Arrives.branch {t : Stmt} {βx : Builder} {m : ℕ} {start : Config} {out : Out}
    (hends : Ends t βx (t.emit fn βx)) (hbranch : ¬ (t.splits = true ∧ t.last = some .plain))
    (hF : Below (closeBranch (t.emit fn βx) βx.cur m) F) (hexec : Exec fn ctx t env out)
    (h : Arrives fn F ctx start (t.emit fn βx) out) {β' : Builder} (hcur : β'.cur = m)
    (hnil : β'.here = []) : Arrives fn F ctx start β' out := by
  cases out with
  | ret v => exact h
  | next env' =>
    have hret : t.last ≠ some .ret := fun hret => not_next_of_ret hret hexec
    rw [closeBranch_of_next hends hret hbranch] at hF
    obtain ⟨pred, regs, hsteps⟩ := h
    have hat : Config.at β' (t.emit fn βx).cur regs env' =
        ⟨m, 0, (t.emit fn βx).cur, regs, env'⟩ := by
      rw [Config.at_of_nil hnil, hcur]
    refine ⟨(t.emit fn βx).cur, regs, ?_⟩
    rw [hat]
    exact hsteps.tail (steps_br hF pred regs env')

/-- The parts of the code of a conditional without `else`. -/
theorem Below.ifThen {c : Cond} {names : List String} {t : Stmt} (hv : β.Valid)
    (h : Below ((Stmt.ifThen c names t).emit fn β) F) :
    Below (branchOn c 2 β) F ∧ Below (t.emit fn (branchOn c 2 β)) F ∧
      Below (closeBranch (t.emit fn (branchOn c 2 β)) β.next (β.next + 1)) F := by
  have h₂ : Below (closeBranch (t.emit fn (branchOn c 2 β)) β.next (β.next + 1)) F := h
  have h₁ : Below (t.emit fn (branchOn c 2 β)) F := h₂.of_le (closeBranch_le (.refl _) _ _)
  exact ⟨h₁.of_le (t.emit_grows fn (branchOn_grows c hv (by omega)).1.after).le, h₁, h₂⟩

/-- The builder at the beginning of the second branch. -/
def elseHead (fn : Fn) (c : Cond) (t : Stmt) (β : Builder) : Builder :=
  (closeBranch (t.emit fn (branchOn c 3 β)) β.next (β.next + 2)).setInsertPoint (β.next + 1)

/-- The parts of the code of a conditional. -/
theorem Below.ifElse {c : Cond} {names : List String} {t e : Stmt} (hv : β.Valid)
    (h : Below ((Stmt.ifElse c names t e).emit fn β) F) :
    (Below (branchOn c 3 β) F ∧ Below (t.emit fn (branchOn c 3 β)) F ∧
      Below (closeBranch (t.emit fn (branchOn c 3 β)) β.next (β.next + 2)) F) ∧
      Below (e.emit fn (elseHead fn c t β)) F ∧
      Below (closeBranch (e.emit fn (elseHead fn c t β)) (β.next + 1) (β.next + 2)) F := by
  have h₄ : Below (closeBranch (e.emit fn (elseHead fn c t β)) (β.next + 1) (β.next + 2)) F := h
  have h₃ : Below (e.emit fn (elseHead fn c t β)) F := h₄.of_le (closeBranch_le (.refl _) _ _)
  have h₂ : Below (closeBranch (t.emit fn (branchOn c 3 β)) β.next (β.next + 2)) F :=
    h₃.of_le (e.emit_grows fn (elseBranch_valid fn c t hv)).le
  have h₁ : Below (t.emit fn (branchOn c 3 β)) F := h₂.of_le (closeBranch_le (.refl _) _ _)
  exact ⟨⟨h₁.of_le (t.emit_grows fn (branchOn_grows c hv (by omega)).1.after).le, h₁, h₂⟩, h₃, h₄⟩

/-- The parts of the code of a loop. -/
theorem Below.while {c : Cond} {names : List String} {s : Stmt} (hv : β.Valid)
    (h : Below ((Stmt.while c names s).emit fn β) F) :
    Below (loopHead β) F ∧ Below (loopBody c β) F ∧ Below (s.emit fn (loopBody c β)) F := by
  have h₃ : Below (s.emit fn (loopBody c β)) F := by
    refine h.of_le ?_
    rw [emit_while]
    split
    · exact (Code.Le.refl (s.emit fn (loopBody c β))).emit _
    · exact Code.Le.refl (s.emit fn (loopBody c β))
  have h₂ : Below (loopBody c β) F := h₃.of_le (s.emit_grows fn (loopBody_grows c hv).1.after).le
  have hcond : Code.Le (loopHead β) (loopBody c β) :=
    (c.codeGen_grows (loopHead_grows hv).after).le.emit _
  exact ⟨h₂.of_le hcond, h₂, h₃⟩

/-- The jump back at the end of a loop whose body may fall through. -/
theorem Below.back {c : Cond} {names : List String} {s : Stmt}
    (h : Below ((Stmt.while c names s).emit fn β) F)
    (ho : Open Instr.isTerminator (s.emit fn (loopBody c β)).here) :
    Below ((s.emit fn (loopBody c β)).emit (.br β.next)) F := by
  rw [emit_while, if_pos (needsBr_of_open ho)] at h
  exact h

theorem loopHead_shape (h : Shape Instr.isTerminator pend β) (ho : Open Instr.isTerminator β.here) :
    Shape Instr.isTerminator ((β.next + 1) :: (β.next + 2) :: pend) (loopHead β) ∧
      (loopHead β).here = [] :=
  (h.alloc 3).close ho rfl

section Loop

variable {c : Cond} {names : List String} {s : Stmt} (h : Shape Instr.isTerminator pend β)
variable (ho : Open Instr.isTerminator β.here) (hF : Below ((Stmt.while c names s).emit fn β) F)

include h hF

/-- The jump to the condition of a loop. -/
theorem loop_enters (pred : ℕ) (regs : ℕ → ℕ → Bool) :
    step F ctx (.at β pred regs env) = some (.inl ⟨β.next, 0, β.cur, regs, env⟩) := by
  have hbr : Below ((β.alloc 3).emit (.br β.next)) F := (hF.while h.valid).1
  exact steps_br hbr pred regs env

include ho

/-- The condition and the jump of a loop, to the block that `β'` begins. -/
theorem loopBody_steps {x : Bool} {β' : Builder} (hx : c.eval ctx env = some x) (hnil : β'.here = [])
    (hcur : β'.cur = if x then β.next + 1 else β.next + 2) (pred : ℕ) (regs : ℕ → ℕ → Bool) :
    ∃ pred' regs', Steps (step F ctx) ⟨β.next, 0, pred, regs, env⟩ (.at β' pred' regs' env) := by
  obtain ⟨h₀, hnil₀⟩ := loopHead_shape h ho
  obtain ⟨-, hbody, -⟩ := hF.while h.valid
  have hcond : Below (c.codeGen (loopHead β)).1 F := hbody.of_le ((Code.Le.refl _).emit _)
  obtain ⟨pred₁, regs₁, hsteps, hval⟩ :=
    c.codeGen_steps h₀ (.of_nil hnil₀) hcond hx pred regs
  rw [Config.at_of_nil hnil₀] at hsteps
  have hjump : Below ((c.codeGen (loopHead β)).1.emit
    (.condBr (c.codeGen (loopHead β)).2 (β.next + 1) (β.next + 2))) F := hbody
  refine ⟨(c.codeGen (loopHead β)).1.cur, regs₁, ?_⟩
  rw [Config.at_of_nil hnil, hcur]
  exact hsteps.tail (steps_condBr hjump pred₁ regs₁ env hval)

theorem loop_eval_of_run {pred k : ℕ} {regs : ℕ → ℕ → Bool} {v : Value}
    (hrun : run (step F ctx) k ⟨β.next, 0, pred, regs, env⟩ = some v) :
    ∃ x, c.eval ctx env = some x := by
  obtain ⟨h₀, hnil₀⟩ := loopHead_shape h ho
  obtain ⟨-, hbody, -⟩ := hF.while h.valid
  have hat : Config.at (loopHead β) pred regs env = ⟨β.next, 0, pred, regs, env⟩ :=
    Config.at_of_nil hnil₀ pred regs env
  rw [← hat] at hrun
  exact c.eval_of_run h₀ (.of_nil hnil₀)
    (hbody.of_le ((Code.Le.refl _).emit _)) hrun

variable (hs : s.Lowers)

include hs

omit hF in
theorem loop_shape : Shape Instr.isTerminator ((β.next + 2) :: pend) (s.emit fn (loopBody c β)) ∧
    Ends s (loopBody c β) (s.emit fn (loopBody c β)) := by
  obtain ⟨hx, hxnil⟩ := loopBody_shape c h ho
  exact s.emit_shape fn hs hx (.of_nil hxnil)

/-- A body that falls through is followed by the condition again. -/
theorem loop_back {env' : Env} (hexec : Exec fn ctx s env (.next env')) (pred : ℕ)
    (regs : ℕ → ℕ → Bool) :
    step F ctx (.at (s.emit fn (loopBody c β)) pred regs env') =
      some (.inl ⟨β.next, 0, (s.emit fn (loopBody c β)).cur, regs, env'⟩) := by
  obtain ⟨-, hends⟩ := loop_shape h ho hs
  have hret : s.last ≠ some .ret := fun hret => not_next_of_ret hret hexec
  exact steps_br (hF.back (hends.open' hret)) pred regs env'

variable (hbody : ∀ {env : Env} {out : Out}, Exec fn ctx s env out → ∀ pred regs,
  Arrives fn F ctx (.at (loopBody c β) pred regs env) (s.emit fn (loopBody c β)) out)

include hbody

omit hs in
/-- The condition of a loop holds, and the body is run. -/
theorem loop_arrives {out : Out} (hx : c.eval ctx env = some true) (hexec : Exec fn ctx s env out)
    (pred : ℕ) (regs : ℕ → ℕ → Bool) :
    Arrives fn F ctx ⟨β.next, 0, pred, regs, env⟩ (s.emit fn (loopBody c β)) out := by
  obtain ⟨-, hnil⟩ := loopBody_shape c h ho
  obtain ⟨pred₁, regs₁, hsteps⟩ := loopBody_steps h ho hF hx hnil rfl pred regs
  exact Arrives.after hsteps (hbody hexec pred₁ regs₁)

/-- A loop runs from its condition to its end; by induction on the turns it takes. -/
theorem loop_steps {out : Out} (hexec : Exec fn ctx (.while c names s) env out) (pred : ℕ)
    (regs : ℕ → ℕ → Bool) :
    Arrives fn F ctx ⟨β.next, 0, pred, regs, env⟩ ((Stmt.while c names s).emit fn β) out := by
  generalize hw : Stmt.while c names s = w at hexec
  induction hexec generalizing pred regs with
  | whileNext hx hfirst _ _ ih =>
    cases hw
    obtain ⟨pred₁, regs₁, hsteps⟩ := loop_arrives h ho hF hbody hx hfirst pred regs
    exact Arrives.after (hsteps.tail (loop_back h ho hF hs hfirst pred₁ regs₁)) (ih _ _ rfl)
  | whileRet hx hfirst _ =>
    cases hw
    exact loop_arrives h ho hF hbody hx hfirst pred regs
  | whileFalse hx =>
    cases hw
    obtain ⟨-, hends⟩ := Stmt.emit_shape fn (s := .while c names s) hs h ho
    exact loopBody_steps h ho hF hx (hends.branch rfl) rfl pred regs
  | _ => cases hw

/-- A run of a loop that returns has ended the loop; every turn takes a step, the jump back at
least. -/
theorem loop_exec_of_run (hexec : ∀ {env : Env} {pred k : ℕ} {regs : ℕ → ℕ → Bool} {v : Value},
    run (step F ctx) k (.at (loopBody c β) pred regs env) = some v → ∃ out, Exec fn ctx s env out)
    {pred k : ℕ} {regs : ℕ → ℕ → Bool} {v : Value}
    (hrun : run (step F ctx) k ⟨β.next, 0, pred, regs, env⟩ = some v) :
    ∃ out, Exec fn ctx (.while c names s) env out := by
  induction k using Nat.strong_induction_on generalizing pred regs env with
  | _ k ih =>
    obtain ⟨x, hc⟩ := loop_eval_of_run h ho hF hrun
    cases x with
    | false => exact ⟨_, .whileFalse hc⟩
    | true =>
      obtain ⟨-, hnil⟩ := loopBody_shape c h ho
      obtain ⟨pred₁, regs₁, hsteps₁⟩ := loopBody_steps h ho hF hc hnil rfl pred regs
      obtain ⟨k₁, hk₁, hrun₁⟩ := hsteps₁.run_rest hrun
      obtain ⟨out, hfirst⟩ := hexec hrun₁
      cases out with
      | ret w => exact ⟨_, .whileRet hc hfirst⟩
      | next env' =>
        obtain ⟨pred₂, regs₂, hsteps₂⟩ := hbody hfirst pred₁ regs₁
        obtain ⟨k₂, hk₂, hrun₂⟩ := hsteps₂.run_rest hrun₁
        have hback := loop_back h ho hF hs hfirst pred₂ regs₂
        obtain ⟨k₃, rfl, hret | ⟨c', hc', hrun₃⟩⟩ := exists_step hrun₂
        · rw [hback] at hret
          cases hret
        · rw [hback] at hc'
          cases hc'
          obtain ⟨out, hrest⟩ := ih k₃ (by omega) hrun₃
          exact ⟨out, .whileNext hc hfirst hrest⟩

end Loop

/-- The code of a statement runs to its end. -/
theorem Stmt.emit_steps {s : Stmt} (hs : s.Lowers) (h : Shape Instr.isTerminator pend β)
    (ho : Open Instr.isTerminator β.here) (hF : Below (s.emit fn β) F) {out : Out}
    (hexec : Exec fn ctx s env out) (pred : ℕ) (regs : ℕ → ℕ → Bool) :
    Arrives fn F ctx (.at β pred regs env) (s.emit fn β) out := by
  induction s generalizing β pend env out pred regs with
  | skip =>
    cases hexec
    exact ⟨pred, regs, .refl _⟩
  | seq a b iha ihb =>
    obtain ⟨hla, hlb, -⟩ := hs
    obtain ⟨h₁, hends₁⟩ := a.emit_shape fn hla h ho
    have hFa : Below (a.emit fn β) F := hF.of_le (b.emit_grows fn h₁.valid).le
    cases hexec with
    | seqRet ha => exact iha hla h ho hFa ha pred regs
    | seqNext ha hb =>
      have ho₁ := hends₁.open' fun hret => not_next_of_ret hret ha
      obtain ⟨pred₁, regs₁, hsteps⟩ := iha hla h ho hFa ha pred regs
      exact Arrives.after hsteps (ihb hlb h₁ ho₁ hF hb pred₁ regs₁)
  | block s ih =>
    cases hexec with
    | block hexec => exact ih hs h ho hF hexec pred regs
  | decl ty x =>
    cases hexec
    have hget := Below.getElem? hF
    refine ⟨pred, regs, .single ?_⟩
    simp [step, Config.at, Stmt.emit, hget]
  | assign x e names =>
    cases hexec with
    | assign hv =>
      refine ⟨pred, regs, .single ?_⟩
      rw [step_assignInstr hF, hv]
      rfl
  | ret e names =>
    cases hexec with
    | ret hv =>
      refine ⟨_, .refl _, ?_⟩
      rw [step_retInstr hF, hv, Option.bind_some]
  | ifThen c names t iht =>
    obtain ⟨hx, hxnil⟩ := branchOn_shape c 1 h ho
    have hxo : Open Instr.isTerminator (branchOn c 2 β).here := .of_nil hxnil
    obtain ⟨hFx, hFt, hFm⟩ := hF.ifThen h.valid
    obtain ⟨-, hends⟩ := t.emit_shape fn hs.1 hx hxo
    obtain ⟨-, hends'⟩ := Stmt.emit_shape fn (s := .ifThen c names t) hs h ho
    have hnil := hends'.branch rfl
    cases hexec with
    | thenTrue hc ht =>
      obtain ⟨pred₁, regs₁, hjump⟩ := branchOn_steps h ho hFx hc hxnil rfl pred regs
      refine Arrives.after hjump ?_
      exact (iht hs.1 hx hxo hFt ht pred₁ regs₁).branch hends hs.2 hFm ht rfl hnil
    | thenFalse hc => exact branchOn_steps h ho hFx hc hnil rfl pred regs
  | ifElse c names t e iht ihe =>
    obtain ⟨hx, hxnil⟩ := branchOn_shape c 2 h ho
    have hxo : Open Instr.isTerminator (branchOn c 3 β).here := .of_nil hxnil
    obtain ⟨⟨hFx, hFt, hFt'⟩, hFe, hFe'⟩ := hF.ifElse h.valid
    obtain ⟨h₂, hends⟩ := t.emit_shape fn hs.1.1 hx hxo
    obtain ⟨hy, hynil⟩ := branch_shape (m := β.next + 2) hx h₂ hends hs.1.2
    have hyo : Open Instr.isTerminator (elseHead fn c t β).here := .of_nil hynil
    obtain ⟨-, hends₄⟩ := e.emit_shape fn hs.2.1 hy hyo
    obtain ⟨-, hends'⟩ := Stmt.emit_shape fn (s := .ifElse c names t e) hs h ho
    have hnil := hends'.branch rfl
    cases hexec with
    | elseTrue hc ht =>
      obtain ⟨pred₁, regs₁, hjump⟩ := branchOn_steps h ho hFx hc hxnil rfl pred regs
      refine Arrives.after hjump ?_
      exact (iht hs.1.1 hx hxo hFt ht pred₁ regs₁).branch hends hs.1.2 hFt' ht rfl hnil
    | elseFalse hc he =>
      obtain ⟨pred₁, regs₁, hjump⟩ := branchOn_steps h ho hFx hc hynil rfl pred regs
      refine Arrives.after hjump ?_
      exact (ihe hs.2.1 hy hyo hFe he pred₁ regs₁).branch hends₄ hs.2.2 hFe' he rfl hnil
  | «while» c names s ih =>
    obtain ⟨hx, hxnil⟩ := loopBody_shape c h ho
    obtain ⟨-, -, hFs⟩ := hF.while h.valid
    refine Arrives.after (.single (loop_enters h hF pred regs)) ?_
    refine loop_steps h ho hF hs ?_ hexec β.cur regs
    intro env out hexec pred regs
    exact ih hs hx (.of_nil hxnil) hFs hexec pred regs

/-- A run that returns has ended the statement it starts with. -/
theorem Stmt.exec_of_run {s : Stmt} (hs : s.Lowers) (h : Shape Instr.isTerminator pend β)
    (ho : Open Instr.isTerminator β.here) (hF : Below (s.emit fn β) F) {pred k : ℕ}
    {regs : ℕ → ℕ → Bool} {v : Value}
    (hrun : run (step F ctx) k (.at β pred regs env) = some v) : ∃ out, Exec fn ctx s env out := by
  induction s generalizing β pend env pred regs k v with
  | skip => exact ⟨_, .skip⟩
  | seq a b iha ihb =>
    obtain ⟨hla, hlb, -⟩ := hs
    obtain ⟨h₁, hends₁⟩ := a.emit_shape fn hla h ho
    have hFa : Below (a.emit fn β) F := hF.of_le (b.emit_grows fn h₁.valid).le
    obtain ⟨out, ha⟩ := iha hla h ho hFa hrun
    cases out with
    | ret w => exact ⟨_, .seqRet ha⟩
    | next env' =>
      have ho₁ := hends₁.open' fun hret => not_next_of_ret hret ha
      obtain ⟨pred₁, regs₁, hsteps⟩ := Stmt.emit_steps hla h ho hFa ha pred regs
      obtain ⟨k', -, hrun'⟩ := hsteps.run_rest hrun
      obtain ⟨out, hb⟩ := ihb hlb h₁ ho₁ hF hrun'
      exact ⟨out, .seqNext ha hb⟩
  | block s ih =>
    obtain ⟨out, hexec⟩ := ih hs h ho hF hrun
    exact ⟨out, .block hexec⟩
  | decl ty x => exact ⟨_, .decl⟩
  | assign x e names =>
    obtain ⟨k', -, hstep⟩ := exists_step hrun
    rw [step_assignInstr hF] at hstep
    cases he : e ctx env with
    | some w => exact ⟨_, .assign he⟩
    | none => simp [he] at hstep
  | ret e names =>
    obtain ⟨k', -, hstep⟩ := exists_step hrun
    rw [step_retInstr hF] at hstep
    cases he : e ctx env with
    | some w => exact ⟨_, .ret he⟩
    | none => simp [he] at hstep
  | ifThen c names t iht =>
    obtain ⟨hx, hxnil⟩ := branchOn_shape c 1 h ho
    obtain ⟨hFx, hFt, -⟩ := hF.ifThen h.valid
    obtain ⟨x, hc⟩ := c.eval_of_run (h.alloc 2) ho (hFx.of_le ((Code.Le.refl _).emit _)) hrun
    cases x with
    | false => exact ⟨_, .thenFalse hc⟩
    | true =>
      obtain ⟨pred₁, regs₁, hjump⟩ := branchOn_steps h ho hFx hc hxnil rfl pred regs
      obtain ⟨k', -, hrun'⟩ := hjump.run_rest hrun
      obtain ⟨out, ht⟩ := iht hs.1 hx (.of_nil hxnil) hFt hrun'
      exact ⟨out, .thenTrue hc ht⟩
  | ifElse c names t e iht ihe =>
    obtain ⟨hx, hxnil⟩ := branchOn_shape c 2 h ho
    have hxo : Open Instr.isTerminator (branchOn c 3 β).here := .of_nil hxnil
    obtain ⟨⟨hFx, hFt, -⟩, hFe, -⟩ := hF.ifElse h.valid
    obtain ⟨x, hc⟩ := c.eval_of_run (h.alloc 3) ho (hFx.of_le ((Code.Le.refl _).emit _)) hrun
    cases x with
    | true =>
      obtain ⟨pred₁, regs₁, hjump⟩ := branchOn_steps h ho hFx hc hxnil rfl pred regs
      obtain ⟨k', -, hrun'⟩ := hjump.run_rest hrun
      obtain ⟨out, ht⟩ := iht hs.1.1 hx hxo hFt hrun'
      exact ⟨out, .elseTrue hc ht⟩
    | false =>
      obtain ⟨h₂, hends⟩ := t.emit_shape fn hs.1.1 hx hxo
      obtain ⟨hy, hynil⟩ := branch_shape (m := β.next + 2) hx h₂ hends hs.1.2
      obtain ⟨pred₁, regs₁, hjump⟩ := branchOn_steps h ho hFx hc hynil rfl pred regs
      obtain ⟨k', -, hrun'⟩ := hjump.run_rest hrun
      obtain ⟨out, he⟩ := ihe hs.2.1 hy (.of_nil hynil) hFe hrun'
      exact ⟨out, .elseFalse hc he⟩
  | «while» c names s ih =>
    obtain ⟨hx, hxnil⟩ := loopBody_shape c h ho
    have hxo : Open Instr.isTerminator (loopBody c β).here := .of_nil hxnil
    obtain ⟨-, -, hFs⟩ := hF.while h.valid
    obtain ⟨k', -, hrun'⟩ := Steps.run_rest (.single (loop_enters h hF pred regs)) hrun
    refine loop_exec_of_run h ho hF hs ?_ ?_ hrun'
    · intro env out hexec pred regs
      exact Stmt.emit_steps (s := s) hs hx hxo hFs hexec pred regs
    · intro env pred k regs v hrun
      exact ih hs hx hxo hFs hrun

/-! ## Functions -/

/-- The arguments become variables, one after the other; `pre` is the code before. -/
theorem loadParams_steps {params : List String} {i : ℕ} {pre suf : List Instr}
    (hF : F 0 = pre ++ loadParams params i ++ suf) (hargs : i + params.length ≤ ctx.args.length)
    (regs : ℕ → ℕ → Bool) (env : Env) :
    Steps (step F ctx) ⟨0, pre.length, 0, regs, env⟩
      ⟨0, pre.length + 2 * params.length, 0, regs, (params.zip (ctx.args.drop i)).foldl
        (fun env p => Function.update env p.1 (some p.2)) env⟩ := by
  induction params generalizing i pre env with
  | nil => exact .refl _
  | cons x xs ih =>
    rw [List.length_cons] at hargs
    have hlt : i < ctx.args.length := by omega
    have hpre : F 0 = (pre ++ [.alloca x fun _ => none, .store x fun ctx _ => ctx.args[i]?]) ++
        loadParams xs (i + 1) ++ suf := by
      simp [hF, loadParams]
    have hget₁ : (F 0)[pre.length]? = some (.alloca x fun _ => none) := by simp [hpre]
    have hget₂ : (F 0)[pre.length + 1]? = some (.store x fun ctx _ => ctx.args[i]?) := by
      simp [hpre]
    have hstep₁ : step F ctx ⟨0, pre.length, 0, regs, env⟩ =
        some (.inl ⟨0, pre.length + 1, 0, regs, Function.update env x none⟩) := by
      simp [step, hget₁]
    have hstep₂ : step F ctx ⟨0, pre.length + 1, 0, regs, Function.update env x none⟩ =
        some (.inl ⟨0, pre.length + 2, 0, regs, Function.update env x (some ctx.args[i])⟩) := by
      simp [step, hget₂, hlt]
    refine Steps.head hstep₁ (Steps.head hstep₂ ?_)
    have hrest := ih hpre (by omega) (Function.update env x (some ctx.args[i]))
    rw [List.length_append, List.length_cons, List.length_cons, List.length_nil] at hrest
    rw [List.drop_eq_getElem_cons hlt, List.zip_cons_cons, List.foldl_cons, List.length_cons,
      show pre.length + 2 * (xs.length + 1) = pre.length + 2 + 2 * xs.length by omega]
    exact hrest

theorem length_loadParams (params : List String) (i : ℕ) :
    (loadParams params i).length = 2 * params.length := by
  simp [loadParams, List.length_flatMap, Nat.mul_comm]

theorem foldl_update_of_not_mem {x : String} {ps : List (String × Value)}
    (hx : x ∉ ps.map Prod.fst) (env : Env) :
    ps.foldl (fun (env : Env) p => Function.update env p.1 (some p.2)) env x = env x := by
  induction ps generalizing env with
  | nil => rfl
  | cons p ps ih =>
    rw [List.map_cons, List.mem_cons, not_or] at hx
    rw [List.foldl_cons, ih hx.2, Function.update_of_ne hx.1]

theorem entry_of_not_mem {params : List String} {x : String} (hx : x ∉ params) :
    entry params ctx x = none := by
  apply foldl_update_of_not_mem
  intro hmem
  obtain ⟨p, hp, rfl⟩ := List.mem_map.mp hmem
  exact hx (List.of_mem_zip hp).1

/-- The variable for the place of the result. -/
theorem retArg_steps {params : List String} {pre suf : List Instr}
    (hF : F 0 = pre ++ fn.retArg.map (fun x => Instr.alloca x fun _ => none) ++ suf)
    (hapart : ∀ x ∈ fn.retArg, x ∉ params) (regs : ℕ → ℕ → Bool) :
    Steps (step F ctx) ⟨0, pre.length, 0, regs, entry params ctx⟩
      ⟨0, pre.length + fn.retArg.length, 0, regs, entry params ctx⟩ := by
  rw [Fn.retArg] at hF hapart ⊢
  cases hret : fn.ret with
  | user ty =>
    rw [hret] at hF hapart
    have hget : (F 0)[pre.length]? = some (.alloca retClosure fun _ => none) := by simp [hF]
    have henv : Function.update (entry params ctx) retClosure none = entry params ctx := by
      rw [show (none : Option Value) = entry params ctx retClosure from
        (entry_of_not_mem (hapart _ List.mem_cons_self)).symm, Function.update_eq_self]
    refine .single ?_
    simp only [step, hget, Option.bind_some, henv]
    rfl
  | int => exact .refl _
  | bool => exact .refl _

/-- A function starts with its parameters. -/
theorem start_steps {params : List String} (hF : Below (entryBuilder fn params) F)
    (hapart : ∀ x ∈ fn.retArg, x ∉ params) (hargs : ctx.args.length = params.length) :
    ∃ regs, Steps (step F ctx) .start (.at (entryBuilder fn params) 0 regs (entry params ctx)) := by
  obtain ⟨suf, hsuf⟩ := hF 0
  have hload := here_entryBuilder fn params
  rw [Code.here, show (entryBuilder fn params).cur = 0 from rfl] at hload
  rw [hload, loadArgs] at hsuf
  have hparams : F 0 = [] ++ loadParams params 0 ++
      (fn.retArg.map (fun x => Instr.alloca x fun _ => none) ++ suf) := by
    rw [← hsuf, List.nil_append, List.append_assoc]
  have hsteps := loadParams_steps hparams (by omega : 0 + params.length ≤ ctx.args.length)
    (fun _ _ => false) fun _ => none
  rw [List.length_nil, Nat.zero_add, List.drop_zero] at hsteps
  have hrest : Steps (step F ctx) _ _ := retArg_steps hsuf.symm hapart fun _ _ => false
  rw [length_loadParams] at hrest
  refine ⟨fun _ _ => false, hsteps.trans ?_⟩
  rw [Config.at, here_entryBuilder, loadArgs, List.length_append, length_loadParams, List.length_map]
  exact hrest

/-- A body of the accepted kind that ends in a return gives back what the function makes of the value
it returns. -/
theorem exists_run_iff {params : List String} {body : Stmt} (hs : body.Lowers)
    (hret : body.last = some .ret) (hapart : ∀ x ∈ fn.retArg, x ∉ params)
    (hargs : ctx.args.length = params.length) (v : Value) :
    (∃ k, run (step (body.emit fn (entryBuilder fn params)).blocks ctx) k .start = some v) ↔
      ∃ w, Exec fn ctx body (entry params ctx) (.ret w) ∧ fn.result w = some v := by
  have hshape := shape_entryBuilder fn params
  have ho : Open Instr.isTerminator (entryBuilder fn params).here := by
    rw [here_entryBuilder]
    exact open_loadArgs fn params
  have hF : Below (body.emit fn (entryBuilder fn params))
      (body.emit fn (entryBuilder fn params)).blocks := fun _ => List.prefix_rfl
  obtain ⟨regs, hstart⟩ :=
    start_steps (hF.of_le (body.emit_grows fn hshape.valid).le) hapart hargs
  constructor
  · rintro ⟨k, hrun⟩
    obtain ⟨k', -, hrun'⟩ := hstart.run_rest hrun
    obtain ⟨out, hexec⟩ := body.exec_of_run hs hshape ho hF hrun'
    cases out with
    | next env => exact absurd hexec (not_next_of_ret hret)
    | ret w =>
      obtain ⟨c, hsteps, hlast⟩ := body.emit_steps hs hshape ho hF hexec 0 regs
      obtain ⟨k₁, -, hrun₁⟩ := hsteps.run_rest hrun'
      obtain ⟨k₂, -, hv | ⟨c', hc', -⟩⟩ := exists_step hrun₁
      · rw [hlast, Option.map_eq_some_iff] at hv
        obtain ⟨u, hu, hinr⟩ := hv
        exact ⟨w, hexec, hu.trans (congrArg some (Sum.inr.inj hinr))⟩
      · rw [hlast, Option.map_eq_some_iff] at hc'
        obtain ⟨u, -, hinr⟩ := hc'
        cases hinr
  · rintro ⟨w, hexec, hw⟩
    obtain ⟨c, hsteps, hlast⟩ := body.emit_steps hs hshape ho hF hexec 0 regs
    rw [hw, Option.map_some] at hlast
    exact (hstart.trans hsteps).exists_run (k := 1) (run_inr hlast)

/-- A function whose names resolve. -/
structure FuncDef (fn : Fn) where
  params : List String
  body : Stmt
  inScope : body.Scoped fn (entryScope fn params)
  /-- The place of the result is no parameter. -/
  apart : ∀ x ∈ fn.retArg, x ∉ params

/-- What the body returns is of the type of the function: in a function that returns a truth value, 0
or 1. -/
def Stmt.ReturnsFit (fn : Fn) (params : List String) (body : Stmt) : Prop :=
  ∀ ctx : Ctx, ctx.args.length = params.length → ∀ v,
    Exec fn ctx body (entry params ctx) (.ret v) → fn.result v = some v

/-- The code of a body of the accepted kind that ends in a return returns what the body returns, if that
is of the type of the function. -/
theorem preserves_iff_of_lowers {params : List String} {body : Stmt} (hs : body.Lowers)
    (hret : body.last = some .ret) (hapart : ∀ x ∈ fn.retArg, x ∉ params) :
    Preserves fn params body (body.emit fn (entryBuilder fn params)) ↔ body.ReturnsFit fn params := by
  constructor
  · intro h ctx hargs v hexec
    obtain ⟨k, hrun⟩ := (h ctx hargs v).mpr hexec
    obtain ⟨w, hw, hres⟩ := (exists_run_iff hs hret hapart hargs v).mp ⟨k, hrun⟩
    -- the code returns what it makes of `w`, which the body returns as well
    obtain ⟨k', hrun'⟩ := (h ctx hargs w).mpr hw
    rwa [run_unique hrun hrun'] at hres ⊢
  · intro h ctx hargs v
    rw [exists_run_iff hs hret hapart hargs]
    constructor
    · rintro ⟨w, hexec, hw⟩
      rw [h ctx hargs w hexec] at hw
      rwa [← Option.some.inj hw]
    · exact fun hexec => ⟨v, hexec, h ctx hargs v hexec⟩

/-- There is a return on every path. -/
def Stmt.returns : Stmt → Bool
  | .ret _ _ => true
  | .seq a b => a.returns || b.returns
  | .block s => s.returns
  | .ifElse _ _ t e => t.returns && e.returns
  | _ => false

/-- There is code for a function, its blocks are well formed and return what the body returns exactly if
no plain variable has a name that is taken, the body ends in a return, nothing follows a return, no
branch of a conditional that contains a conditional or a loop ends in a declaration or an assignment,
and the values that the body returns are of the type of the function. -/
theorem genCode_correct_iff {fn : Fn} (f : FuncDef fn) :
    (∃ β, genCode fn f.params f.body = some β ∧ WellFormed β ∧ Preserves fn f.params f.body β) ↔
      f.body.NamesFree fn (entryScope fn f.params) ∧ (f.body.Lowers ∧ f.body.last = some .ret) ∧
        f.body.ReturnsFit fn f.params := by
  by_cases hfree : f.body.NamesFree fn (entryScope fn f.params)
  · have hcode : genCode fn f.params f.body = some (f.body.emit fn (entryBuilder fn f.params)) := by
      rw [genCode, Stmt.codeGen_eq f.inScope hfree, Option.map_some]
    rw [hcode, and_iff_right hfree]
    constructor
    · rintro ⟨β, hβ, hwf, hpre⟩
      obtain rfl := Option.some.inj hβ
      have hlow := (wellFormed_iff_lowers fn f.params f.body).mp hwf
      exact ⟨hlow, (preserves_iff_of_lowers hlow.1 hlow.2 f.apart).mp hpre⟩
    · rintro ⟨hlow, hfit⟩
      exact ⟨_, rfl, (wellFormed_iff_lowers fn f.params f.body).mpr hlow,
        (preserves_iff_of_lowers hlow.1 hlow.2 f.apart).mpr hfit⟩
  · have hcode : genCode fn f.params f.body = none := by
      rw [genCode, Stmt.codeGen_eq_none f.inScope hfree, Option.map_none]
    rw [hcode]
    constructor
    · rintro ⟨β, hβ, -⟩
      cases hβ
    · exact fun h => absurd h.1 hfree

/-- `if (c) return 1; else return 2;` -/
def bothReturn : Stmt :=
  .ifElse (.test fun ctx _ => some ctx.args.isEmpty) [] (.ret (fun _ _ => some (.scalar 1)) [])
    (.ret (fun _ _ => some (.scalar 2)) [])

/-- The block where the branches meet stays empty. -/
theorem genCode_not_correct_both_return :
    bothReturn.returns = true ∧ bothReturn.Scoped plainFn (entryScope plainFn []) ∧
      ¬ ∃ β, genCode plainFn [] bothReturn = some β ∧ WellFormed β ∧
        Preserves plainFn [] bothReturn β := by
  have hscoped : bothReturn.Scoped plainFn (entryScope plainFn []) := ⟨trivial, trivial⟩
  have hfree : bothReturn.NamesFree plainFn (entryScope plainFn []) := ⟨trivial, trivial⟩
  refine ⟨rfl, hscoped, ?_⟩
  rintro ⟨β, hβ, hwf, -⟩
  have hcode : genCode plainFn [] bothReturn =
      some (bothReturn.emit plainFn (entryBuilder plainFn [])) := by
    rw [genCode, Stmt.codeGen_eq hscoped hfree, Option.map_some]
  obtain rfl := Option.some.inj (hcode.symm.trans hβ)
  obtain ⟨-, hlast⟩ := (wellFormed_iff_lowers plainFn [] bothReturn).mp hwf
  exact absurd hlast (by decide)

/-- A variable of a block that has ended still has its name. -/
example : (genCode plainFn [] (.seq (.block (.decl "u64" "t")) (.seq (.block (.decl "u64" "t"))
    (.ret (fun _ _ => some (.scalar 0)) [])))).isNone = true := by
  decide

end Fsl.Func
