import Fsl.Compiler.Precedence

/-!
# Expressions as the compiler's objects

`Expr` and its classes: what a tree is worth in the emitted code, when two trees are equal, and how one
is copied and simplified. To simplify folds numbers in the arithmetic of the host; it returns a new tree
and changes the object it is called on. A new call simplifies its arguments, so that copying a tree
simplifies below each call.
-/

namespace Fsl.Parse

/-- `BinArithOp::doOp` on two `unsigned long`. A division by zero is a fault of the host, and a shift by
the width or more is undefined in its language. -/
def Op.doOp : Op → ℕ → ℕ → Option ℕ
  | bitor, a, b => some (a ||| b)
  | bitand, a, b => some (a &&& b)
  | add, a, b => some ((a + b) % 2 ^ 64)
  | sub, a, b => some ((2 ^ 64 - b + a) % 2 ^ 64)
  | mul, a, b => some (a * b % 2 ^ 64)
  | div, a, b => if b = 0 then none else some (a / b)
  | mod, a, b => if b = 0 then none else some (a % b)
  | lshift, a, b => if b < 64 then some ((a <<< b) % 2 ^ 64) else none
  | rshift, a, b => if b < 64 then some (a >>> b) else none

/-- The arithmetic of the host is that of the emitted instructions. -/
theorem Op.doOp_eq (o : Op) (a b : UInt64) :
    o.doOp a.toNat b.toNat = (o.apply a b).map UInt64.toNat := by
  have hzero : b.toNat = 0 ↔ b = 0 := UInt64.toNat_inj (b := 0)
  have hwidth : b.toNat < 64 ↔ b < 64 := by
    rw [UInt64.lt_iff_toNat_lt]
    rfl
  cases o with
  | bitor => exact congrArg some (UInt64.toNat_or a b).symm
  | bitand => exact congrArg some (UInt64.toNat_and a b).symm
  | add => exact congrArg some (UInt64.toNat_add a b).symm
  | sub => exact congrArg some (UInt64.toNat_sub a b).symm
  | mul => exact congrArg some (UInt64.toNat_mul a b).symm
  | div =>
    rw [doOp, apply, if_congr hzero rfl rfl]
    split
    · rfl
    · exact congrArg some (UInt64.toNat_div a b).symm
  | mod =>
    rw [doOp, apply, if_congr hzero rfl rfl]
    split
    · rfl
    · exact congrArg some (UInt64.toNat_mod a b).symm
  | lshift =>
    rw [doOp, apply, if_congr hwidth rfl rfl]
    split
    case isTrue hlt =>
      apply congrArg some
      rw [UInt64.toNat_shiftLeft, Nat.mod_eq_of_lt (hwidth.mpr hlt)]
    case isFalse => rfl
  | rshift =>
    rw [doOp, apply, if_congr hwidth rfl rfl]
    split
    case isTrue hlt =>
      apply congrArg some
      rw [UInt64.toNat_shiftRight, Nat.mod_eq_of_lt (hwidth.mpr hlt)]
    case isFalse => rfl

end Fsl.Parse

namespace Fsl.Ast

open Parse

mutual

/-- `Expr`. A call of a function is `fcall`, `a.b[i].f(x)` an `idStruct`; `simplified` is the flag of a
`BinArithOp`, `fixed` and `nofollow` are those of an `IdArray`. -/
inductive Expr
  | id (name : String)
  | idStruct (path : ExprList)
  | idArray (name : String) (idx : Expr) (fixed nofollow : Bool)
  | fcall (name : String) (exprs : ExprList)
  | parens (expr : Expr)
  | boolean (b : Bool)
  | number (n : UInt64)
  | bin (op : Op) (lhs rhs : Expr) (simplified : Bool)
  | condVal (ce : CondExpr) (t f : Expr)

/-- `ExprList` -/
inductive ExprList
  | nil
  | cons (e : Expr) (es : ExprList)

/-- `CondExpr` -/
inductive CondExpr
  | cmp (op : CmpOp) (lhs rhs : Expr)
  | func (name : String) (exprs : ExprList)
  | not (cexpr : CondExpr)
  | and (lhs rhs : CondExpr)
  | or (lhs rhs : CondExpr)

end

/-! ## Values -/

/-- What names, arrays and functions stand for; a path is its names with the values in brackets and
parentheses. -/
structure Env where
  id : String → Option UInt64
  array : String → UInt64 → Option UInt64
  call : String → List UInt64 → Option UInt64
  test : String → List UInt64 → Option Bool
  path : List (String × List UInt64) → Option UInt64

section Eval

variable (env : Env)

mutual

/-- The value of the emitted code. -/
def Expr.eval : Expr → Option UInt64
  | .id s => env.id s
  | .idStruct p => p.keys.bind env.path
  | .idArray s i _ _ => i.eval.bind (env.array s)
  | .fcall s es => es.eval.bind (env.call s)
  | .parens e => e.eval
  | .boolean b => some (if b then 1 else 0)
  | .number n => some n
  | .bin o l r _ => o.comb l.eval r.eval
  | .condVal c t f => c.eval.bind fun x => if x then t.eval else f.eval
termination_by structural e => e

/-- A member of a path. -/
def Expr.key : Expr → Option (String × List UInt64)
  | .id s => some (s, [])
  | .idArray s i _ _ => i.eval.map fun v => (s, [v])
  | .fcall s es => es.eval.map fun vs => (s, vs)
  | _ => none
termination_by structural e => e

def ExprList.eval : ExprList → Option (List UInt64)
  | .nil => some []
  | .cons e es => e.eval.bind fun v => es.eval.map (v :: ·)
termination_by structural es => es

def ExprList.keys : ExprList → Option (List (String × List UInt64))
  | .nil => some []
  | .cons e es => e.key.bind fun k => es.keys.map (k :: ·)
termination_by structural es => es

/-- Of a right operand only where it matters. -/
def CondExpr.eval : CondExpr → Option Bool
  | .cmp o l r => l.eval.bind fun a => r.eval.map fun b => o.test a b
  | .func s es => es.eval.bind (env.test s)
  | .not c => c.eval.map (!·)
  | .and a b => a.eval.bind fun x => if x then b.eval else some false
  | .or a b => a.eval.bind fun x => if x then some true else b.eval
termination_by structural c => c

end

end Eval

/-! ## Copies -/

/-- A list with each of its members changed. -/
def ExprList.mapM (f : Expr → Option Expr) : ExprList → Option ExprList
  | .nil => some .nil
  | .cons e es => (f e).bind fun e' => (es.mapM f).map (.cons e')

section Copy

variable (arg : Expr → Option Expr)

mutual

/-- `Expr::copy`; `arg` is what the constructor of `FCall` makes of the copy of an argument. -/
def Expr.copyWith : Expr → Option Expr
  | .id s => some (.id s)
  | .idStruct p => p.copyWith.map .idStruct
  | .idArray s i fixed nofollow => i.copyWith.map fun i' => .idArray s i' fixed nofollow
  | .fcall s es => (es.mapM arg).map (.fcall s)
  | .parens e => e.copyWith.map .parens
  | .boolean b => some (.boolean b)
  | .number n => some (.number n)
  | .bin o l r _ => l.copyWith.bind fun l' => r.copyWith.map fun r' => .bin o l' r' false
  | .condVal c t f => c.copyWith.bind fun c' => t.copyWith.bind fun t' =>
      f.copyWith.map fun f' => .condVal c' t' f'
termination_by structural e => e

def ExprList.copyWith : ExprList → Option ExprList
  | .nil => some .nil
  | .cons e es => e.copyWith.bind fun e' => es.copyWith.map (.cons e')
termination_by structural es => es

def CondExpr.copyWith : CondExpr → Option CondExpr
  | .cmp o l r => l.copyWith.bind fun l' => r.copyWith.map fun r' => .cmp o l' r'
  | .func s es => (es.mapM arg).map (.func s)
  | .not c => c.copyWith.map .not
  | .and a b => a.copyWith.bind fun a' => b.copyWith.map fun b' => .and a' b'
  | .or a b => a.copyWith.bind fun a' => b.copyWith.map fun b' => .or a' b'
termination_by structural c => c

end

/-- `toNumbers` of two sides. -/
def toNumbers : Expr → Expr → Option (UInt64 × UInt64)
  | .number a, .number b => some (a, b)
  | _, _ => none

/-- The end of `BinArithOp::simplify`, with simplified sides: the new expression, and the object. -/
def foldSides (o : Op) (l r : Expr) : Option (Expr × Expr) :=
  match toNumbers l r with
  | some (a, b) => (o.doOp a.toNat b.toNat).map fun n => (.number (UInt64.ofNat n), .bin o l r true)
  | none => ((Expr.bin o l r true).copyWith arg).map fun c => (c, .bin o l r true)

/-- `Expr::simplify`: the new expression, and what has become of the object. A `BinArithOp` simplifies
its sides in place, once; most other classes copy themselves. -/
def Expr.simplifyWith : Expr → Option (Expr × Expr)
  | .parens e => e.simplifyWith.map fun p => (.parens p.1, .parens p.2)
  | .bin o l r true => foldSides arg o l r
  | .bin o l r false => l.simplifyWith.bind fun l' => r.simplifyWith.bind fun r' =>
      foldSides arg o l'.1 r'.1
  | .id s => ((Expr.id s).copyWith arg).map fun c => (c, .id s)
  | .idStruct p => ((Expr.idStruct p).copyWith arg).map fun c => (c, .idStruct p)
  | .idArray s i fixed nofollow =>
    ((Expr.idArray s i fixed nofollow).copyWith arg).map fun c => (c, .idArray s i fixed nofollow)
  | .fcall s es => ((Expr.fcall s es).copyWith arg).map fun c => (c, .fcall s es)
  | .boolean b => ((Expr.boolean b).copyWith arg).map fun c => (c, .boolean b)
  | .number n => ((Expr.number n).copyWith arg).map fun c => (c, .number n)
  | .condVal c t f => ((Expr.condVal c t f).copyWith arg).map fun x => (x, .condVal c t f)
termination_by structural e => e

end Copy

/-- What the constructor of `FCall` makes of the copy of an argument, for calls nested less than `n`
deep. -/
def argWith : ℕ → Expr → Option Expr
  | 0, _ => none
  | n + 1, e => (e.copyWith (argWith n)).bind fun c => (c.simplifyWith (argWith n)).map Prod.fst

/-- `Expr::copy` of a tree with calls nested at most `n` deep. -/
def Expr.copy (n : ℕ) (e : Expr) : Option Expr := e.copyWith (argWith n)

/-- `Expr::simplify` of a tree with calls nested at most `n` deep. -/
def Expr.simplify (n : ℕ) (e : Expr) : Option (Expr × Expr) := e.simplifyWith (argWith n)

end Fsl.Ast
