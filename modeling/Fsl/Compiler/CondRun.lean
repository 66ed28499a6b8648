import Fsl.Compiler.FuncShape

/-!
# Running the code of a condition

The code generated for a condition, inside of the code of a whole function, is run from the place the
builder was at before it to the place the builder is at after it. On its way the run goes through the
tests the condition evaluates, and through no others.
-/

namespace Fsl.Func

open BasicBlocks Runs

/-- The code so far is the beginning of the code `F`. -/
def Below (β : Builder) (F : ℕ → List Instr) : Prop := ∀ b, β.blocks b <+: F b

theorem Below.of_le {β β' : Builder} {F : ℕ → List Instr} (h : Below β' F) (hle : Code.Le β β') :
    Below β F := fun b => (hle b).trans (h b)

/-- The place at the end of the code so far. -/
def Config.at (β : Builder) (pred : ℕ) (regs : ℕ → ℕ → Bool) (env : Env) : Config :=
  ⟨β.cur, β.here.length, pred, regs, env⟩

variable {F : ℕ → List Instr} {ctx : Ctx} {β : Builder} {pend : List ℕ} {env : Env}

theorem Below.getElem? {i : Instr} (h : Below (β.emit i) F) :
    (F β.cur)[β.here.length]? = some i := by
  have hcur := h β.cur
  rw [Code.blocks_emit_cur] at hcur
  obtain ⟨l, hl⟩ := hcur
  rw [← hl]
  simp

theorem Config.at_of_nil (h : β.here = []) (pred : ℕ) (regs : ℕ → ℕ → Bool) (env : Env) :
    Config.at β pred regs env = ⟨β.cur, 0, pred, regs, env⟩ := by
  rw [Config.at, h]
  rfl

/-- A jump at the end of the code so far. -/
theorem steps_br {b : ℕ} (h : Below (β.emit (.br b)) F) (pred : ℕ) (regs : ℕ → ℕ → Bool)
    (env : Env) :
    step F ctx (.at β pred regs env) = some (.inl ⟨b, 0, β.cur, regs, env⟩) := by
  simp [step, Config.at, h.getElem?, Config.jump]

theorem steps_condBr {v : Val} {b₁ b₂ : ℕ} (h : Below (β.emit (.condBr v b₁ b₂)) F) (pred : ℕ)
    (regs : ℕ → ℕ → Bool) (env : Env) {x : Bool} (hx : (Config.at β pred regs env).val v = x) :
    step F ctx (.at β pred regs env) =
      some (.inl ⟨if x then b₁ else b₂, 0, β.cur, regs, env⟩) := by
  rw [← hx]
  simp [step, Config.at, h.getElem?, Config.jump]

/-! ## Conditions -/

/-- The test of an instruction. -/
def Instr.test? : Instr → Option (Ctx → Env → Option Bool)
  | .test k => some k
  | _ => none

/-- The test the run is about to evaluate. -/
def Config.testing (F : ℕ → List Instr) (c : Config) : Option (Ctx → Env → Option Bool) :=
  ((F c.block)[c.idx]?).bind Instr.test?

/-- The tests a condition evaluates, in order: those of the right operand only where its value
matters. -/
def Cond.tests (ctx : Ctx) (env : Env) : Cond → List (Ctx → Env → Option Bool)
  | .test k => [k]
  | .not a => a.tests ctx env
  | .and a b => a.tests ctx env ++ if a.eval ctx env = some true then b.tests ctx env else []
  | .or a b => a.tests ctx env ++ if a.eval ctx env = some false then b.tests ctx env else []

/-- The run goes through the tests `l`. It gets to the end of the code of a condition, and its operand
has the value `o`; without a value it is stuck at the last one of the tests. -/
def Gives (F : ℕ → List Instr) (ctx : Ctx) (start : Config) (r : Builder × Val) (env : Env)
    (o : Option Bool) (l : List (Ctx → Env → Option Bool)) : Prop :=
  match o with
  | some x => ∃ pred regs,
      Traced (step F ctx) (Config.testing F) start l (.at r.1 pred regs env) ∧
        (Config.at r.1 pred regs env).val r.2 = x
  | none => ∃ l' c, Traced (step F ctx) (Config.testing F) start l' c ∧ step F ctx c = none ∧
      l = l' ++ (c.testing F).toList

/-- The run gets to the end of the code of a condition, and its operand has the value. -/
def Evaluates (F : ℕ → List Instr) (ctx : Ctx) (start : Config) (r : Builder × Val) (env : Env)
    (x : Bool) : Prop :=
  ∃ pred regs, Steps (step F ctx) start (.at r.1 pred regs env) ∧
    (Config.at r.1 pred regs env).val r.2 = x

theorem testing_at {i : Instr} (h : Below (β.emit i) F) (pred : ℕ) (regs : ℕ → ℕ → Bool) (env : Env) :
    (Config.at β pred regs env).testing F = i.test? := by
  have hget : (F (Config.at β pred regs env).block)[(Config.at β pred regs env).idx]? = some i :=
    h.getElem?
  rw [Config.testing, hget]
  rfl

/-- A run that comes to the code first. -/
theorem Gives.after {start c : Config} {r : Builder × Val} {o : Option Bool}
    {l l' : List (Ctx → Env → Option Bool)} (hstart : Traced (step F ctx) (Config.testing F) start l c)
    (h : Gives F ctx c r env o l') : Gives F ctx start r env o (l ++ l') := by
  cases o with
  | some x =>
    obtain ⟨pred, regs, htraced, hval⟩ := h
    exact ⟨pred, regs, hstart.trans htraced, hval⟩
  | none =>
    obtain ⟨l'', c', htraced, hstuck, rfl⟩ := h
    exact ⟨l ++ l'', c', hstart.trans htraced, hstuck, by rw [List.append_assoc]⟩

/-- A condition that has no value because a part of it has none. -/
theorem Gives.stuck {start : Config} {r r' : Builder × Val} {l : List (Ctx → Env → Option Bool)}
    (h : Gives F ctx start r env none l) : Gives F ctx start r' env none l := h

/-- An instruction at the end of the code so far that has a value. -/
theorem gives_emit {start : Config} {i : Instr} {x : Bool} {pred : ℕ} {regs : ℕ → ℕ → Bool}
    {l : List (Ctx → Env → Option Bool)} (hF : Below (β.emit i) F)
    (hstart : Traced (step F ctx) (Config.testing F) start l (.at β pred regs env))
    (hstep : step F ctx (.at β pred regs env) = some (.inl ((Config.at β pred regs env).define x))) :
    Gives F ctx start (β.emit i, nextVal β) env (some x) (l ++ i.test?.toList) := by
  refine ⟨pred, Function.update regs β.cur (Function.update (regs β.cur) β.here.length x), ?_, ?_⟩
  · have hat : (Config.at β pred regs env).define x = .at (β.emit i) pred
        (Function.update regs β.cur (Function.update (regs β.cur) β.here.length x)) env := by
      simp [Config.at, Config.define]
    rw [← hat, ← testing_at hF pred regs env]
    exact hstart.tail hstep
  · simp [Config.val, nextVal, Config.at]

/-- The jump out of the right operand of `&&`, and the block for a left operand that is false. -/
def andElse (a b : Cond) (β : Builder) : Builder :=
  ((b.codeGen (branchOn a 3 β)).1.emit (.br (β.next + 2))).setInsertPoint (β.next + 1)

/-- Where the two ways of `&&` meet. -/
def andMerge (a b : Cond) (β : Builder) : Builder :=
  ((andElse a b β).emit (.br (β.next + 2))).setInsertPoint (β.next + 2)

/-- The block for a left operand of `||` that is true, and the one for the right operand. -/
def orElse (a : Cond) (β : Builder) : Builder :=
  ((branchOn a 3 β).emit (.br (β.next + 2))).setInsertPoint (β.next + 1)

/-- Where the two ways of `||` meet. -/
def orMerge (a b : Cond) (β : Builder) : Builder :=
  ((b.codeGen (orElse a β)).1.emit (.br (β.next + 2))).setInsertPoint (β.next + 2)

theorem codeGen_and (a b : Cond) (β : Builder) :
    (Cond.and a b).codeGen β = ((andMerge a b β).emit (.phi (b.codeGen (branchOn a 3 β)).2
      (b.codeGen (branchOn a 3 β)).1.cur (.const false) (β.next + 1)), nextVal (andMerge a b β)) := rfl

theorem codeGen_or (a b : Cond) (β : Builder) :
    (Cond.or a b).codeGen β = ((orMerge a b β).emit (.phi (.const true) β.next
      (b.codeGen (orElse a β)).2 (b.codeGen (orElse a β)).1.cur), nextVal (orMerge a b β)) := rfl

/-- The parts of the code of `&&`. -/
theorem Below.and {a b : Cond} (hv : β.Valid) (h : Below ((Cond.and a b).codeGen β).1 F) :
    Below (branchOn a 3 β) F ∧
      Below ((b.codeGen (branchOn a 3 β)).1.emit (.br (β.next + 2))) F ∧
      Below ((andElse a b β).emit (.br (β.next + 2))) F := by
  have h₃ : Below (andMerge a b β) F := h.of_le ((Code.Le.refl (andMerge a b β)).emit _)
  have h₂ : Below (andElse a b β) F := h₃.of_le ((Code.Le.refl (andElse a b β)).emit _)
  have h₁ : Below (b.codeGen (branchOn a 3 β)).1 F := h₂.of_le ((Code.Le.refl _).emit _)
  exact ⟨h₁.of_le (b.codeGen_grows (branchOn_grows a hv (by omega)).1.after).le, h₂, h₃⟩

/-- The parts of the code of `||`. -/
theorem Below.or {a b : Cond} (hv : (orElse a β).Valid) (h : Below ((Cond.or a b).codeGen β).1 F) :
    Below (branchOn a 3 β) F ∧ Below ((branchOn a 3 β).emit (.br (β.next + 2))) F ∧
      Below ((b.codeGen (orElse a β)).1.emit (.br (β.next + 2))) F := by
  have h₃ : Below (orMerge a b β) F := h.of_le ((Code.Le.refl (orMerge a b β)).emit _)
  have h₂ : Below (b.codeGen (orElse a β)).1 F := h₃.of_le ((Code.Le.refl _).emit _)
  have h₁ : Below (orElse a β) F := h₂.of_le (b.codeGen_grows hv).le
  exact ⟨h₁.of_le ((Code.Le.refl (branchOn a 3 β)).emit _), h₁, h₃⟩

theorem step_phi_first {c : Config} {v₁ v₂ : Val} {b₁ b₂ : ℕ}
    (hget : (F c.block)[c.idx]? = some (.phi v₁ b₁ v₂ b₂)) (hpred : c.pred = b₁) :
    step F ctx c = some (.inl (c.define (c.val v₁))) := by
  simp [step, hget, hpred]

theorem step_phi_second {c : Config} {v₁ v₂ : Val} {b₁ b₂ : ℕ}
    (hget : (F c.block)[c.idx]? = some (.phi v₁ b₁ v₂ b₂)) (hne : c.pred ≠ b₁)
    (hpred : c.pred = b₂) : step F ctx c = some (.inl (c.define (c.val v₂))) := by
  rw [step, hget, Option.bind_some]
  exact (if_neg hne).trans (if_pos hpred)

/-- The two ways meet at a `phi`, which knows where the run comes from. -/
theorem gives_phi {start : Config} {v₁ v₂ : Val} {b₁ b₂ pred : ℕ} {x : Bool}
    {regs : ℕ → ℕ → Bool} {l : List (Ctx → Env → Option Bool)}
    (hF : Below (β.emit (.phi v₁ b₁ v₂ b₂)) F) (hnil : β.here = [])
    (hstart : Traced (step F ctx) (Config.testing F) start l ⟨β.cur, 0, pred, regs, env⟩)
    (hx : pred = b₁ ∧ (Config.at β pred regs env).val v₁ = x ∨
      pred ≠ b₁ ∧ pred = b₂ ∧ (Config.at β pred regs env).val v₂ = x) :
    Gives F ctx start (β.emit (.phi v₁ b₁ v₂ b₂), nextVal β) env (some x) l := by
  rw [← Config.at_of_nil hnil] at hstart
  rw [← List.append_nil l]
  apply gives_emit hF hstart
  have hget := hF.getElem?
  rcases hx with ⟨hpred, hval⟩ | ⟨hne, hpred, hval⟩
  · rw [← hval]
    exact step_phi_first hget hpred
  · rw [← hval]
    exact step_phi_second hget hne hpred

/-- The jump after a condition that has a value, to the block that `β'` begins. -/
theorem Gives.branchOn {c : Cond} {k : ℕ} {start : Config} {x : Bool} {β' : Builder}
    {l : List (Ctx → Env → Option Bool)}
    (h : Gives F ctx start (c.codeGen (β.alloc k)) env (some x) l) (hF : Below (branchOn c k β) F)
    (hnil : β'.here = []) (hcur : β'.cur = if x then β.next else β.next + 1) :
    ∃ pred regs, Traced (step F ctx) (Config.testing F) start l (.at β' pred regs env) := by
  obtain ⟨pred₁, regs₁, htraced, hval⟩ := h
  have hF₁ : Below ((c.codeGen (β.alloc k)).1.emit
    (.condBr (c.codeGen (β.alloc k)).2 β.next (β.next + 1))) F := hF
  refine ⟨(c.codeGen (β.alloc k)).1.cur, regs₁, ?_⟩
  rw [Config.at_of_nil hnil, hcur]
  exact htraced.silent (steps_condBr hF₁ pred₁ regs₁ env hval) (testing_at hF₁ _ _ _)

theorem orElse_shape (a : Cond) (h : Shape Instr.isTerminator pend β)
    (ho : Open Instr.isTerminator β.here) :
    Shape Instr.isTerminator ((β.next + 2) :: pend) (orElse a β) ∧ (orElse a β).here = [] := by
  obtain ⟨hX, hXnil⟩ := branchOn_shape a 2 h ho
  exact hX.close (.of_nil hXnil) rfl

/-- The code of a condition goes through its tests, to its end. -/
theorem Cond.codeGen_gives {c : Cond} (h : Shape Instr.isTerminator pend β)
    (ho : Open Instr.isTerminator β.here) (hF : Below (c.codeGen β).1 F) (pred : ℕ)
    (regs : ℕ → ℕ → Bool) :
    Gives F ctx (.at β pred regs env) (c.codeGen β) env (c.eval ctx env) (c.tests ctx env) := by
  induction c generalizing β pend pred regs with
  | test k =>
    have hget : (F β.cur)[β.here.length]? = some (.test k) := hF.getElem?
    rw [Cond.eval, Cond.tests]
    cases hk : k ctx env with
    | none =>
      refine ⟨[], _, .refl _, ?_, ?_⟩
      · simp [step, Config.at, hget, hk]
      · rw [testing_at hF]
        rfl
    | some x =>
      apply gives_emit hF (.refl _)
      simp [step, Config.at, hget, hk]
  | not a ih =>
    have ha := ih h ho (hF.of_le ((Code.Le.refl _).emit _)) pred regs
    rw [Cond.eval, Cond.tests]
    cases hx : a.eval ctx env with
    | none =>
      rw [hx] at ha
      exact ha.stuck
    | some x =>
      rw [hx] at ha
      obtain ⟨pred', regs', htraced, hval⟩ := ha
      rw [← List.append_nil (a.tests ctx env)]
      apply gives_emit hF htraced
      have hget := Below.getElem? hF
      rw [← hval]
      simp [step, Config.at, hget]
  | and a b iha ihb =>
    obtain ⟨hX, hXnil⟩ := branchOn_shape a 2 h ho
    have hXo : Open Instr.isTerminator (branchOn a 3 β).here := .of_nil hXnil
    obtain ⟨h₂, ho₂⟩ := b.codeGen_shape hX hXo
    obtain ⟨h₃, hnil₃⟩ := h₂.close ho₂ (i := .br (β.next + 2)) rfl
    obtain ⟨h₄, hnil₄⟩ := h₃.close (.of_nil hnil₃) (i := .br (β.next + 2)) rfl
    obtain ⟨hF₁, hF₂, hF₃⟩ := hF.and h.valid
    have ha := iha (h.alloc 3) ho (hF₁.of_le ((Code.Le.refl _).emit _)) pred regs
    rw [Cond.eval, Cond.tests]
    cases hy : a.eval ctx env with
    | none =>
      rw [hy] at ha
      rw [if_neg (Option.some_ne_none true).symm, List.append_nil]
      exact ha.stuck
    | some y =>
      rw [hy] at ha
      cases y with
      | true =>
        obtain ⟨pred₁, regs₁, hjump⟩ := ha.branchOn hF₁ hXnil rfl
        rw [if_pos rfl, Option.bind_some, if_pos rfl]
        have hb := (ihb hX hXo (hF₂.of_le ((Code.Le.refl _).emit _)) pred₁ regs₁).after hjump
        cases hx : b.eval ctx env with
        | none =>
          rw [hx] at hb
          exact hb.stuck
        | some x =>
          rw [hx] at hb
          obtain ⟨pred₂, regs₂, htraced₂, hval₂⟩ := hb
          have hend := htraced₂.silent (steps_br hF₂ pred₂ regs₂ env) (testing_at hF₂ _ _ _)
          exact gives_phi hF hnil₄ hend (Or.inl ⟨rfl, hval₂⟩)
      | false =>
        obtain ⟨pred₁, regs₁, hjump⟩ := ha.branchOn hF₁ hnil₃ rfl
        rw [if_neg (by simp), Option.bind_some, if_neg Bool.false_ne_true, List.append_nil]
        have hend := hjump.silent (steps_br hF₃ pred₁ regs₁ env) (testing_at hF₃ _ _ _)
        have hne : β.next + 1 ≠ (b.codeGen (Func.branchOn a 3 β)).1.cur := by
          intro heq
          apply h₂.cur
          rw [← heq]
          exact List.mem_cons_self
        exact gives_phi hF hnil₄ hend (Or.inr ⟨hne, rfl, rfl⟩)
  | or a b iha ihb =>
    obtain ⟨hX, hXnil⟩ := branchOn_shape a 2 h ho
    obtain ⟨hY, hYnil⟩ := orElse_shape a h ho
    have hYo : Open Instr.isTerminator (orElse a β).here := .of_nil hYnil
    obtain ⟨h₂, ho₂⟩ := b.codeGen_shape hY hYo
    obtain ⟨h₃, hnil₃⟩ := h₂.close ho₂ (i := .br (β.next + 2)) rfl
    obtain ⟨hF₁, hF₂, hF₃⟩ := hF.or hY.valid
    have ha := iha (h.alloc 3) ho (hF₁.of_le ((Code.Le.refl _).emit _)) pred regs
    rw [Cond.eval, Cond.tests]
    cases hy : a.eval ctx env with
    | none =>
      rw [hy] at ha
      rw [if_neg (Option.some_ne_none false).symm, List.append_nil]
      exact ha.stuck
    | some y =>
      rw [hy] at ha
      cases y with
      | true =>
        obtain ⟨pred₁, regs₁, hjump⟩ := ha.branchOn hF₁ hXnil rfl
        rw [if_neg (by simp), Option.bind_some, if_pos rfl, List.append_nil]
        have hend := hjump.silent (steps_br hF₂ pred₁ regs₁ env) (testing_at hF₂ _ _ _)
        exact gives_phi hF hnil₃ hend (Or.inl ⟨rfl, rfl⟩)
      | false =>
        obtain ⟨pred₁, regs₁, hjump⟩ := ha.branchOn hF₁ hYnil rfl
        rw [if_pos rfl, Option.bind_some, if_neg Bool.false_ne_true]
        have hb := (ihb hY hYo (hF₃.of_le ((Code.Le.refl _).emit _)) pred₁ regs₁).after hjump
        cases hx : b.eval ctx env with
        | none =>
          rw [hx] at hb
          exact hb.stuck
        | some x =>
          rw [hx] at hb
          obtain ⟨pred₂, regs₂, htraced₂, hval₂⟩ := hb
          have hend := htraced₂.silent (steps_br hF₃ pred₂ regs₂ env) (testing_at hF₃ _ _ _)
          have hne : (b.codeGen (orElse a β)).1.cur ≠ β.next := by
            have hnext : β.next + 3 ≤ (orElse a β).next := (branchOn_grows a h.valid (by omega)).2
            have hcur : (orElse a β).cur = β.next + 1 := rfl
            rcases (b.codeGen_grows hY.valid).frame.cur with hc | hc
            · rw [hc]
              omega
            · omega
          exact gives_phi hF hnil₃ hend (Or.inr ⟨hne, rfl, hval₂⟩)

/-- The code of a condition runs to its end. -/
theorem Cond.codeGen_steps {c : Cond} (h : Shape Instr.isTerminator pend β)
    (ho : Open Instr.isTerminator β.here) (hF : Below (c.codeGen β).1 F) {x : Bool}
    (hx : c.eval ctx env = some x) (pred : ℕ) (regs : ℕ → ℕ → Bool) :
    Evaluates F ctx (.at β pred regs env) (c.codeGen β) env x := by
  have hgives : Gives F ctx (.at β pred regs env) (c.codeGen β) env (some x) (c.tests ctx env) :=
    hx ▸ c.codeGen_gives h ho hF pred regs
  obtain ⟨pred', regs', htraced, hval⟩ := hgives
  exact ⟨pred', regs', htraced.steps, hval⟩

/-- The condition and the jump of a conditional, to the block that `β'` begins. -/
theorem branchOn_steps {c : Cond} {k : ℕ} {β' : Builder} (h : Shape Instr.isTerminator pend β)
    (ho : Open Instr.isTerminator β.here) (hF : Below (branchOn c k β) F) {x : Bool}
    (hx : c.eval ctx env = some x) (hnil : β'.here = [])
    (hcur : β'.cur = if x then β.next else β.next + 1) (pred : ℕ) (regs : ℕ → ℕ → Bool) :
    ∃ pred' regs', Steps (step F ctx) (.at β pred regs env) (.at β' pred' regs' env) := by
  have hF₁ : Below (c.codeGen (β.alloc k)).1 F := hF.of_le ((Code.Le.refl _).emit _)
  have hgives : Gives F ctx (.at β pred regs env) (c.codeGen (β.alloc k)) env (some x)
      (c.tests ctx env) := hx ▸ c.codeGen_gives (h.alloc k) ho hF₁ pred regs
  obtain ⟨pred', regs', htraced⟩ := hgives.branchOn hF hnil hcur
  exact ⟨pred', regs', htraced.steps⟩

end Fsl.Func
