import Fsl.Compiler.ParamBuf
import Fsl.Lib.BasicBlocks
import Fsl.Lib.Runs
import Fsl.Runtime.Disk

/-!
# Functions and their control flow

The body of a function is lowered statement by statement. A conditional or a loop creates its blocks
first, generates the code of its parts into them, and decides from the instructions it then finds in
two blocks whether a branch has to be added. The instructions of an expression have no control flow
and are part of the instruction that uses its value. A variable is the place its declaration
allocates; the names of these places, of the blocks and of the values of expressions are kept apart
by numbers, which a variable of a plain type must not get.
-/

namespace Fsl.Func

open BasicBlocks

/-- What a variable holds: a number, or a closure. The code passes a pointer to the closure, which is
not written to once it is made. -/
abbrev Value := ParamBuf.Val

def Value.int? : Value → Option UInt64
  | .scalar v => some v
  | .closure _ => none

/-- What a function may read besides its variables; `fresh` is what new memory holds. -/
structure Ctx where
  disk : Disk
  args : List Value
  fresh : ℕ → UInt64

/-- The variables; one that was not assigned to has no value. -/
abbrev Env := String → Option Value

/-- Arithmetic expressions, by their value; a read that fails has none. -/
abbrev Expr := Ctx → Env → Option UInt64

/-- Expressions of any type. -/
abbrev ValueExpr := Ctx → Env → Option Value

/-- The type that a function returns. -/
inductive RetTy
  | int
  | bool
  | user (ty : String)

/-- What is known when the code of a function is generated: `types_map`, `ctypes_map`, how a name that
is taken is changed, and the type of the function. -/
structure Fn where
  types : ParamBuf.Types
  ctypes : List String
  uniq : List String → String → String
  renames : ParamBuf.Renames uniq
  ret : RetTy

/-- `CondExpr`: a comparison or a call, and the operators on conditions. -/
inductive Cond
  | test (k : Ctx → Env → Option Bool)
  | not (a : Cond)
  | and (a b : Cond)
  | or (a b : Cond)

/-- `FuncStmt`. An expression and a condition come with the names that their code asks for. -/
inductive Stmt
  | skip
  | seq (a b : Stmt)
  /-- `FuncBlock` -/
  | block (s : Stmt)
  | decl (ty x : String)
  | assign (x : String) (e : ValueExpr) (names : List String)
  | ret (e : ValueExpr) (names : List String)
  | ifThen (c : Cond) (names : List String) (t : Stmt)
  | ifElse (c : Cond) (names : List String) (t e : Stmt)
  | while (c : Cond) (names : List String) (s : Stmt)

/-! ## The meaning of a body -/

/-- The value of a condition; the second operand is only evaluated where it matters. -/
def Cond.eval (ctx : Ctx) (env : Env) : Cond → Option Bool
  | .test k => k ctx env
  | .not a => (a.eval ctx env).map (!·)
  | .and a b => (a.eval ctx env).bind fun x => if x then b.eval ctx env else some false
  | .or a b => (a.eval ctx env).bind fun x => if x then some true else b.eval ctx env

/-- What a declared variable holds: a closure is that of the beginning of the disk, with a buffer that
was not written to. -/
def Fn.init (fn : Fn) (ty : String) (ctx : Ctx) : Option Value :=
  (fn.types.find ty).map fun _ =>
    .closure ⟨0, (List.range (fn.types.getParamBufEntryCount ty)).map ctx.fresh, 0⟩

/-- The names that `genDebugAssign` looks for. An assignment to one of them only writes a message. -/
def debugNames : List String := ["DEBUG_WRITE", "DEBUG_WRITE_TYPE"]

/-- The variables after an assignment. -/
def assigned (x : String) (v : Value) (env : Env) : Env :=
  if x ∈ debugNames then env else Function.update env x (some v)

/-- How a statement ends. -/
inductive Out
  | next (env : Env)
  | ret (v : Value)

/-- A statement, run in an environment, ends so. -/
inductive Exec (fn : Fn) (ctx : Ctx) : Stmt → Env → Out → Prop
  | skip {env} : Exec fn ctx .skip env (.next env)
  | seqNext {a b env env' out} : Exec fn ctx a env (.next env') → Exec fn ctx b env' out →
      Exec fn ctx (.seq a b) env out
  | seqRet {a b env v} : Exec fn ctx a env (.ret v) → Exec fn ctx (.seq a b) env (.ret v)
  | block {s env out} : Exec fn ctx s env out → Exec fn ctx (.block s) env out
  | decl {ty x env} : Exec fn ctx (.decl ty x) env (.next (Function.update env x (fn.init ty ctx)))
  | assign {x e names env v} : e ctx env = some v →
      Exec fn ctx (.assign x e names) env (.next (assigned x v env))
  | ret {e names env v} : e ctx env = some v → Exec fn ctx (.ret e names) env (.ret v)
  | thenTrue {c names t env out} : c.eval ctx env = some true → Exec fn ctx t env out →
      Exec fn ctx (.ifThen c names t) env out
  | thenFalse {c names t env} : c.eval ctx env = some false → Exec fn ctx (.ifThen c names t) env (.next env)
  | elseTrue {c names t e env out} : c.eval ctx env = some true → Exec fn ctx t env out →
      Exec fn ctx (.ifElse c names t e) env out
  | elseFalse {c names t e env out} : c.eval ctx env = some false → Exec fn ctx e env out →
      Exec fn ctx (.ifElse c names t e) env out
  | whileNext {c names s env env' out} : c.eval ctx env = some true → Exec fn ctx s env (.next env') →
      Exec fn ctx (.while c names s) env' out → Exec fn ctx (.while c names s) env out
  | whileRet {c names s env v} : c.eval ctx env = some true → Exec fn ctx s env (.ret v) →
      Exec fn ctx (.while c names s) env (.ret v)
  | whileFalse {c names s env} : c.eval ctx env = some false →
      Exec fn ctx (.while c names s) env (.next env)

/-- The variables of a function when it is entered: its parameters. -/
def entry (params : List String) (ctx : Ctx) : Env :=
  (params.zip ctx.args).foldl (fun env p => Function.update env p.1 (some p.2)) fun _ => none

/-! ## Instructions -/

/-- A constant, or the value of the instruction at a place. -/
inductive Val
  | const (b : Bool)
  | inst (b i : ℕ)
  deriving DecidableEq

/-- The instructions of a block. -/
inductive Instr
  /-- A variable, and what is stored to it with its declaration. -/
  | alloca (x : String) (init : Ctx → Option Value)
  | store (x : String) (e : ValueExpr)
  /-- A call that only writes a message. -/
  | debug (e : ValueExpr)
  | test (k : Ctx → Env → Option Bool)
  | not (v : Val)
  | phi (v₁ : Val) (b₁ : ℕ) (v₂ : Val) (b₂ : ℕ)
  | ret (e : ValueExpr)
  | br (b : ℕ)
  | condBr (v : Val) (b₁ b₂ : ℕ)

/-- `isTerminator` -/
def Instr.isTerminator : Instr → Bool
  | .ret _ => true
  | .br _ => true
  | .condBr _ _ _ => true
  | _ => false

/-- A place in the code, the block before, and the values so far. -/
structure Config where
  block : ℕ
  idx : ℕ
  pred : ℕ
  regs : ℕ → ℕ → Bool
  env : Env

/-- The value of an operand. -/
def Config.val (c : Config) : Val → Bool
  | .const b => b
  | .inst b i => c.regs b i

/-- The instruction has the value. -/
def Config.define (c : Config) (v : Bool) : Config :=
  { c with
    idx := c.idx + 1
    regs := Function.update c.regs c.block (Function.update (c.regs c.block) c.idx v) }

/-- Go to the beginning of a block. -/
def Config.jump (c : Config) (b : ℕ) : Config := { c with block := b, idx := 0, pred := c.block }

/-- One instruction: on to the next one, or the value that is returned. -/
def step (code : ℕ → List Instr) (ctx : Ctx) (c : Config) : Option (Config ⊕ Value) :=
  ((code c.block)[c.idx]?).bind fun
    | .alloca x init =>
      some (.inl { c with idx := c.idx + 1, env := Function.update c.env x (init ctx) })
    | .store x e => (e ctx c.env).map fun v =>
        .inl { c with idx := c.idx + 1, env := Function.update c.env x (some v) }
    | .debug e => (e ctx c.env).map fun _ => .inl { c with idx := c.idx + 1 }
    | .test k => (k ctx c.env).map fun b => .inl (c.define b)
    | .not v => some (.inl (c.define !c.val v))
    | .phi v₁ b₁ v₂ b₂ =>
      if c.pred = b₁ then some (.inl (c.define (c.val v₁)))
      else if c.pred = b₂ then some (.inl (c.define (c.val v₂)))
      else none
    | .ret e => (e ctx c.env).map .inr
    | .br b => some (.inl (c.jump b))
    | .condBr v b₁ b₂ => some (.inl (c.jump (if c.val v then b₁ else b₂)))

/-! ## Generating code -/

/-- `BasicBlock` and `IRBuilder` -/
abbrev Builder := Code Instr

/-- `bb->empty() || bb->back().isTerminator() == false` -/
def needsBr (l : List Instr) : Bool :=
  match l.getLast? with
  | none => true
  | some i => !i.isTerminator

/-- The value of the next instruction. -/
def nextVal (β : Builder) : Val := .inst β.cur β.here.length

/-- `CondExpr::codeGen`: the code, and the operand that holds the value. -/
def Cond.codeGen : Cond → Builder → Builder × Val
  | .test k, β => (β.emit (.test k), nextVal β)
  | .not a, β =>
    let (β₁, v) := a.codeGen β
    (β₁.emit (.not v), nextVal β₁)
  | .and a b, β =>
    let bbThen := β.next
    let bbElse := β.next + 1
    let bbMerge := β.next + 2
    let (β₁, lhs) := a.codeGen (β.alloc 3)
    let (β₂, rhs) := b.codeGen ((β₁.emit (.condBr lhs bbThen bbElse)).setInsertPoint bbThen)
    let β₃ := (β₂.emit (.br bbMerge)).setInsertPoint bbElse
    let β₄ := (β₃.emit (.br bbMerge)).setInsertPoint bbMerge
    (β₄.emit (.phi rhs β₂.cur (.const false) bbElse), nextVal β₄)
  | .or a b, β =>
    let bbThen := β.next
    let bbElse := β.next + 1
    let bbMerge := β.next + 2
    let (β₁, lhs) := a.codeGen (β.alloc 3)
    let β₂ := ((β₁.emit (.condBr lhs bbThen bbElse)).setInsertPoint bbThen).emit (.br bbMerge)
    let (β₃, rhs) := b.codeGen (β₂.setInsertPoint bbElse)
    let β₄ := (β₃.emit (.br bbMerge)).setInsertPoint bbMerge
    (β₄.emit (.phi (.const true) bbThen rhs β₃.cur), nextVal β₄)

/-- What `FuncCondStmt::codeGen` does at the end of a branch that began in `bb`. -/
def closeBranch (β : Builder) (bb bbMerge : ℕ) : Builder :=
  let β₁ := if needsBr (β.blocks bb) then β.emit (.br bbMerge) else β
  if β₁.here = [] then β₁.emit (.br bbMerge) else β₁

/-- The code of a condition and the jump to the first of `k` new blocks, or to the second. -/
def branchOn (c : Cond) (k : ℕ) (β : Builder) : Builder :=
  ((c.codeGen (β.alloc k)).1.emit
    (.condBr (c.codeGen (β.alloc k)).2 β.next (β.next + 1))).setInsertPoint β.next

/-- The jump to the condition of a loop. -/
def loopHead (β : Builder) : Builder := ((β.alloc 3).emit (.br β.next)).setInsertPoint β.next

/-- The condition of a loop and the jump to its body, or out of it. -/
def loopBody (c : Cond) (β : Builder) : Builder :=
  ((c.codeGen (loopHead β)).1.emit
    (.condBr (c.codeGen (loopHead β)).2 (β.next + 1) (β.next + 2))).setInsertPoint (β.next + 1)

/-- The jump back to the condition, where the body of the loop has not been left. -/
def loopBack (β : Builder) (bbCond : ℕ) : Builder :=
  if needsBr β.here then β.emit (.br bbCond) else β

/-- The names of the variables that are visible, and those of the values of the function. -/
structure Scope where
  vars : List String
  syms : List String

/-- Values that ask for the names. -/
def Scope.named (fn : Fn) (σ : Scope) (names : List String) : Scope :=
  { σ with syms := ParamBuf.addNames fn.uniq σ.syms names }

/-- The state of the code generator. -/
structure Gen where
  scope : Scope
  code : Builder

/-- `FuncDecl::codeGen`. A second variable of the name is reported, and so is a type that is not known;
`createTmpI64` asserts that the variable got its own name. -/
def Fn.genDecl (fn : Fn) (ty x : String) (g : Gen) : Option Gen :=
  if x ∈ g.scope.vars then some g
  else match fn.types.find ty with
    | some t => some
      ⟨⟨x :: ("__ptr_" ++ x) :: g.scope.vars,
        ParamBuf.addNames fn.uniq g.scope.syms (ParamBuf.tmpClosureNames t x)⟩,
        g.code.emit (.alloca x (fn.init ty))⟩
    | none =>
      if ty ∈ fn.ctypes then
        if ParamBuf.symName fn.uniq g.scope.syms x = x then
          some ⟨⟨x :: g.scope.vars, ParamBuf.addName fn.uniq g.scope.syms x⟩,
            g.code.emit (.alloca x (fn.init ty))⟩
        else none
      else some g

/-- `FuncAssign::codeGen`; it asserts that there is a variable of the name. -/
def Fn.genAssign (fn : Fn) (x : String) (e : ValueExpr) (names : List String) (g : Gen) :
    Option Gen :=
  let σ := g.scope.named fn names
  if x ∈ debugNames then some ⟨σ, g.code.emit (.debug e)⟩
  else if x ∈ σ.vars then some ⟨σ, g.code.emit (.store x e)⟩
  else none

/-- What a function gives back for a value: the lowest bit, if it returns a truth value, and if it
returns a closure the copy that `copyClosure` makes in the place of the result. -/
def Fn.result (fn : Fn) (v : Value) : Option Value :=
  match fn.ret, v with
  | .int, .scalar n => some (.scalar n)
  | .bool, .scalar n => some (.scalar (n % 2))
  | .user ty, .closure c =>
    (ParamBuf.memcpy64 (List.replicate (fn.types.getParamBufEntryCount ty) 0) 0 c.params
      (fn.types.getParamBufEntryCount ty)).map fun params => .closure ⟨c.offset, params, c.xlate⟩
  | _, _ => none

/-- The names that `copyClosure` asks for. -/
def Fn.retNames (fn : Fn) : List String :=
  match fn.ret with
  | .user _ => ["t_offset", "t_virt", "t_params", "t_params", "dst_ptr", "src_ptr"]
  | _ => []

/-- `FuncRet::codeGen` -/
def Fn.genRet (fn : Fn) (e : ValueExpr) (names : List String) (g : Gen) : Gen :=
  ⟨g.scope.named fn (names ++ fn.retNames),
    g.code.emit (.ret fun ctx env => (e ctx env).bind fn.result)⟩

/-- `FuncStmt::codeGen`; there is no result if an assertion of the compiler fails. -/
def Stmt.codeGen (fn : Fn) : Stmt → Gen → Option Gen
  | .skip, g => some g
  | .seq a b, g => (a.codeGen fn g).bind (b.codeGen fn)
  | .block s, g => (s.codeGen fn g).map fun g' => ⟨⟨g.scope.vars, g'.scope.syms⟩, g'.code⟩
  | .decl ty x, g => fn.genDecl ty x g
  | .assign x e names, g => fn.genAssign x e names g
  | .ret e names, g => some (fn.genRet e names g)
  | .ifThen c names t, g => do
    let bbThen := g.code.next
    let bbMerge := g.code.next + 1
    let g₁ ← t.codeGen fn ⟨g.scope.named fn (["func_then", "func_merge"] ++ names),
      branchOn c 2 g.code⟩
    return ⟨g₁.scope, (closeBranch g₁.code bbThen bbMerge).setInsertPoint bbMerge⟩
  | .ifElse c names t e, g => do
    let bbThen := g.code.next
    let bbElse := g.code.next + 1
    let bbMerge := g.code.next + 2
    let g₁ ← t.codeGen fn ⟨g.scope.named fn (["func_then", "func_else", "func_merge"] ++ names),
      branchOn c 3 g.code⟩
    let g₂ ← e.codeGen fn ⟨g₁.scope, (closeBranch g₁.code bbThen bbMerge).setInsertPoint bbElse⟩
    return ⟨g₂.scope, (closeBranch g₂.code bbElse bbMerge).setInsertPoint bbMerge⟩
  | .while c names s, g => do
    let bbCond := g.code.next
    let bbEnd := g.code.next + 2
    let g₁ ← s.codeGen fn ⟨g.scope.named fn (["while_cond", "while_begin", "while_end"] ++ names),
      loopBody c g.code⟩
    return ⟨g₁.scope, (loopBack g₁.code bbCond).setInsertPoint bbEnd⟩

/-! ## Functions -/

/-- The name of the variable that points to the place of the result. -/
def retClosure : String := "__ret_closure"

/-- The variable for the place of a closure that is returned; the place is no value here. -/
def Fn.retArg (fn : Fn) : List String :=
  match fn.ret with
  | .user _ => [retClosure]
  | _ => []

/-- `VarScope::loadArgs`: the parameters become variables. -/
def loadParams (params : List String) (i : ℕ) : List Instr :=
  (params.zipIdx i).flatMap fun p =>
    [.alloca p.1 fun _ => none, .store p.1 fun ctx _ => ctx.args[p.2]?]

/-- `Func::genLoadArgs` -/
def loadArgs (fn : Fn) (params : List String) : List Instr :=
  loadParams params 0 ++ fn.retArg.map fun x => .alloca x fun _ => none

/-- The scope after `genLoadArgs`. -/
def entryScope (fn : Fn) (params : List String) : Scope :=
  ⟨params ++ fn.retArg, ParamBuf.addNames fn.uniq [] ("entry" :: (params ++ fn.retArg))⟩

/-- The builder after `genLoadArgs`. -/
def entryBuilder (fn : Fn) (params : List String) : Builder :=
  ⟨Function.update (fun _ => []) 0 (loadArgs fn params), 1, 0⟩

/-- `Func::genCode` -/
def genCode (fn : Fn) (params : List String) (body : Stmt) : Option Builder :=
  (body.codeGen fn ⟨entryScope fn params, entryBuilder fn params⟩).map Gen.code

/-- A function of type `u64` where no type is declared. -/
def plainFn : Fn where
  types := ⟨fun _ => none, fun _ => 0, fun h => by cases h⟩
  ctypes := ["u64", "bool"]
  uniq := ParamBuf.firstFree
  renames := ParamBuf.renames_firstFree
  ret := .int

/-- The beginning of a function. -/
def Config.start : Config := ⟨0, 0, 0, fun _ _ => false, fun _ => none⟩

/-! ## What is asked of the code -/

/-- Every block has exactly one terminator, at its end. -/
def WellFormed (β : Builder) : Prop := ∀ b < β.next, Closed Instr.isTerminator (β.blocks b)

/-- The code returns what the body returns, for all arguments and disks. -/
def Preserves (fn : Fn) (params : List String) (body : Stmt) (β : Builder) : Prop :=
  ∀ ctx : Ctx, ctx.args.length = params.length → ∀ v,
    (∃ k, Runs.run (step β.blocks ctx) k .start = some v) ↔
      Exec fn ctx body (entry params ctx) (.ret v)

end Fsl.Func
