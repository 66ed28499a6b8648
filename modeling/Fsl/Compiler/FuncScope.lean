import Fsl.Compiler.Func

/-!
# The names of a function

A declaration makes a variable that is visible to the end of its block. Where all names resolve, code
generation fails in one way only: a variable of a plain type has a name that a value of the function
already bears. That may be a block, a parameter, a value of an expression, or a variable of a block
that has ended. Otherwise the code does not depend on the names.
-/

namespace Fsl.Func

open BasicBlocks

/-! ## The code without the names -/

/-- The instruction of an assignment. -/
def assignInstr (x : String) (e : ValueExpr) : Instr :=
  if x ∈ debugNames then .debug e else .store x e

/-- The instruction of a return. -/
def Fn.retInstr (fn : Fn) (e : ValueExpr) : Instr :=
  .ret fun ctx env => (e ctx env).bind fn.result

/-- The code of a statement whose names resolve. -/
def Stmt.emit (fn : Fn) : Stmt → Builder → Builder
  | .skip, β => β
  | .seq a b, β => b.emit fn (a.emit fn β)
  | .block s, β => s.emit fn β
  | .decl ty x, β => β.emit (.alloca x (fn.init ty))
  | .assign x e _, β => β.emit (assignInstr x e)
  | .ret e _, β => β.emit (fn.retInstr e)
  | .ifThen c _ t, β =>
    (closeBranch (t.emit fn (branchOn c 2 β)) β.next (β.next + 1)).setInsertPoint (β.next + 1)
  | .ifElse c _ t e, β =>
    (closeBranch (e.emit fn ((closeBranch (t.emit fn (branchOn c 3 β)) β.next
      (β.next + 2)).setInsertPoint (β.next + 1))) (β.next + 1) (β.next + 2)).setInsertPoint
        (β.next + 2)
  | .while c _ s, β => (loopBack (s.emit fn (loopBody c β)) β.next).setInsertPoint (β.next + 2)

/-! ## Names that resolve -/

section Names

variable (fn : Fn)

/-- The variables that a declaration makes visible; a closure is also known by its pointer. -/
def Fn.declared (ty x : String) : List String :=
  match fn.types.find ty with
  | some _ => [x, "__ptr_" ++ x]
  | none => [x]

/-- The names that a declaration asks for. -/
def Fn.declNames (ty x : String) : List String :=
  match fn.types.find ty with
  | some t => ParamBuf.tmpClosureNames t x
  | none => [x]

/-- The scope after a statement. -/
def Stmt.scope : Stmt → Scope → Scope
  | .skip, σ => σ
  | .seq a b, σ => b.scope (a.scope σ)
  | .block s, σ => ⟨σ.vars, (s.scope σ).syms⟩
  | .decl ty x, σ => ⟨fn.declared ty x ++ σ.vars, (σ.named fn (fn.declNames ty x)).syms⟩
  | .assign _ _ names, σ => σ.named fn names
  | .ret _ names, σ => σ.named fn (names ++ fn.retNames)
  | .ifThen _ names t, σ => t.scope (σ.named fn (["func_then", "func_merge"] ++ names))
  | .ifElse _ names t e, σ =>
    e.scope (t.scope (σ.named fn (["func_then", "func_else", "func_merge"] ++ names)))
  | .while _ names s, σ =>
    s.scope (σ.named fn (["while_cond", "while_begin", "while_end"] ++ names))

/-- A declaration is of a type that is known, and what it declares is not yet visible. -/
def Fn.DeclScoped (ty x : String) (σ : Scope) : Prop :=
  ((fn.types.find ty).isSome ∨ ty ∈ fn.ctypes) ∧ ∀ y ∈ fn.declared ty x, y ∉ σ.vars

/-- Every declaration is of a known type and of new names, and assignments are to visible variables. -/
def Stmt.Scoped : Stmt → Scope → Prop
  | .skip, _ => True
  | .seq a b, σ => a.Scoped σ ∧ b.Scoped (a.scope fn σ)
  | .block s, σ => s.Scoped σ
  | .decl ty x, σ => fn.DeclScoped ty x σ
  | .assign x _ _, σ => x ∈ debugNames ∨ x ∈ σ.vars
  | .ret _ _, _ => True
  | .ifThen _ names t, σ => t.Scoped (σ.named fn (["func_then", "func_merge"] ++ names))
  | .ifElse _ names t e, σ =>
    t.Scoped (σ.named fn (["func_then", "func_else", "func_merge"] ++ names)) ∧
      e.Scoped (t.scope fn (σ.named fn (["func_then", "func_else", "func_merge"] ++ names)))
  | .while _ names s, σ =>
    s.Scoped (σ.named fn (["while_cond", "while_begin", "while_end"] ++ names))

/-- No variable of a plain type has a name that is taken where it is declared. -/
def Stmt.NamesFree : Stmt → Scope → Prop
  | .skip, _ => True
  | .seq a b, σ => a.NamesFree σ ∧ b.NamesFree (a.scope fn σ)
  | .block s, σ => s.NamesFree σ
  | .decl ty x, σ => fn.types.find ty = none → x ∉ σ.syms
  | .assign _ _ _, _ => True
  | .ret _ _, _ => True
  | .ifThen _ names t, σ => t.NamesFree (σ.named fn (["func_then", "func_merge"] ++ names))
  | .ifElse _ names t e, σ =>
    t.NamesFree (σ.named fn (["func_then", "func_else", "func_merge"] ++ names)) ∧
      e.NamesFree (t.scope fn (σ.named fn (["func_then", "func_else", "func_merge"] ++ names)))
  | .while _ names s, σ =>
    s.NamesFree (σ.named fn (["while_cond", "while_begin", "while_end"] ++ names))

end Names

/-! ## Code generation and the names -/

variable {fn : Fn}

theorem Fn.genDecl_eq {ty x : String} {g : Gen} (hs : fn.DeclScoped ty x g.scope)
    (hfree : fn.types.find ty = none → x ∉ g.scope.syms) :
    fn.genDecl ty x g = some ⟨(Stmt.decl ty x).scope fn g.scope, (Stmt.decl ty x).emit fn g.code⟩ := by
  obtain ⟨hty, hnew⟩ := hs
  have hx : x ∉ g.scope.vars := by
    apply hnew
    rw [Fn.declared]
    cases fn.types.find ty <;> exact List.mem_cons_self
  rw [Fn.genDecl, if_neg hx, Stmt.scope, Stmt.emit, Fn.declared, Fn.declNames]
  cases ht : fn.types.find ty with
  | some t => rfl
  | none =>
    have hname : ParamBuf.symName fn.uniq g.scope.syms x = x :=
      (ParamBuf.symName_eq_iff fn.renames).mpr (hfree ht)
    have hc : ty ∈ fn.ctypes := by simpa [ht] using hty
    simp only [if_pos hc, if_pos hname]
    rfl

/-- The assertion of `createTmpI64` fails. -/
theorem Fn.genDecl_eq_none {ty x : String} {g : Gen} (hs : fn.DeclScoped ty x g.scope)
    (hfree : ¬ (fn.types.find ty = none → x ∉ g.scope.syms)) : fn.genDecl ty x g = none := by
  obtain ⟨hty, hnew⟩ := hs
  obtain ⟨ht, hmem⟩ := Classical.not_imp.mp hfree
  have hx : x ∉ g.scope.vars := by
    apply hnew
    rw [Fn.declared, ht]
    exact List.mem_cons_self
  have hname : ParamBuf.symName fn.uniq g.scope.syms x ≠ x :=
    fun h => hmem ((ParamBuf.symName_eq_iff fn.renames).mp h)
  have hc : ty ∈ fn.ctypes := by simpa [ht] using hty
  rw [Fn.genDecl, if_neg hx, ht]
  simp only [if_pos hc, if_neg hname]

theorem Fn.genAssign_eq {x : String} {e : ValueExpr} {names : List String} {g : Gen}
    (hx : x ∈ debugNames ∨ x ∈ g.scope.vars) :
    fn.genAssign x e names g = some ⟨g.scope.named fn names, g.code.emit (assignInstr x e)⟩ := by
  by_cases hd : x ∈ debugNames
  · simp only [Fn.genAssign, assignInstr, if_pos hd]
  · have hv : x ∈ (g.scope.named fn names).vars := hx.resolve_left hd
    simp only [Fn.genAssign, assignInstr, if_neg hd, if_pos hv]

/-- A statement whose names resolve, and whose plain variables get their own names. -/
theorem Stmt.codeGen_eq {s : Stmt} {g : Gen} (hs : s.Scoped fn g.scope)
    (hfree : s.NamesFree fn g.scope) :
    s.codeGen fn g = some ⟨s.scope fn g.scope, s.emit fn g.code⟩ := by
  induction s generalizing g with
  | skip => rfl
  | seq a b iha ihb =>
    rw [Stmt.codeGen, iha hs.1 hfree.1, Option.bind_some, ihb hs.2 hfree.2]
    rfl
  | block s ih =>
    rw [Stmt.codeGen, ih hs hfree]
    rfl
  | decl ty x => exact Fn.genDecl_eq hs hfree
  | assign x e names => exact Fn.genAssign_eq hs
  | ret e names => rfl
  | ifThen c names t iht =>
    have ht := iht (g := ⟨g.scope.named fn (["func_then", "func_merge"] ++ names),
      branchOn c 2 g.code⟩) hs hfree
    rw [Stmt.codeGen, ht]
    rfl
  | ifElse c names t e iht ihe =>
    rw [Stmt.codeGen, iht hs.1 hfree.1]
    dsimp only [Option.bind_eq_bind, Option.bind_some]
    rw [ihe hs.2 hfree.2]
    rfl
  | «while» c names s ih =>
    have hbody := ih (g := ⟨g.scope.named fn (["while_cond", "while_begin", "while_end"] ++ names),
      loopBody c g.code⟩) hs hfree
    rw [Stmt.codeGen, hbody]
    rfl

/-- A plain variable whose name is taken. -/
theorem Stmt.codeGen_eq_none {s : Stmt} {g : Gen} (hs : s.Scoped fn g.scope)
    (hfree : ¬ s.NamesFree fn g.scope) : s.codeGen fn g = none := by
  induction s generalizing g with
  | skip => exact absurd trivial hfree
  | seq a b iha ihb =>
    rw [Stmt.codeGen]
    by_cases ha : a.NamesFree fn g.scope
    · rw [Stmt.codeGen_eq hs.1 ha, Option.bind_some]
      exact ihb hs.2 fun hb => hfree ⟨ha, hb⟩
    · rw [iha hs.1 ha, Option.bind_none]
  | block s ih =>
    rw [Stmt.codeGen, ih hs hfree]
    rfl
  | decl ty x => exact Fn.genDecl_eq_none hs hfree
  | assign x e names => exact absurd trivial hfree
  | ret e names => exact absurd trivial hfree
  | ifThen c names t iht =>
    have ht := iht (g := ⟨g.scope.named fn (["func_then", "func_merge"] ++ names),
      branchOn c 2 g.code⟩) hs hfree
    rw [Stmt.codeGen, ht]
    rfl
  | ifElse c names t e iht ihe =>
    rw [Stmt.codeGen]
    by_cases ht : t.NamesFree fn
        (g.scope.named fn (["func_then", "func_else", "func_merge"] ++ names))
    · rw [Stmt.codeGen_eq hs.1 ht]
      dsimp only [Option.bind_eq_bind, Option.bind_some]
      rw [ihe hs.2 fun he => hfree ⟨ht, he⟩]
      rfl
    · rw [iht hs.1 ht]
      rfl
  | «while» c names s ih =>
    have hbody := ih (g := ⟨g.scope.named fn (["while_cond", "while_begin", "while_end"] ++ names),
      loopBody c g.code⟩) hs hfree
    rw [Stmt.codeGen, hbody]
    rfl

end Fsl.Func
