import Fsl.Runtime.Disk

/-!
# Layout of a type

`SymTabThunkBuilder` walks the block of a type once and leaves, for every field, functions that
compute its offset, the size of one element and the number of elements. Their expressions call the
functions of earlier fields; none of them knows a cursor. At the end of a conditional an invisible
field is left whose offset is the end of the branch that is taken.
-/

namespace Fsl.Layout

/-- The functions of a field: `ThunkFieldOffset`, `ThunkFieldSize` and `ThunkElements`. -/
inductive Part
  | off
  | size
  | elems
  deriving DecidableEq, Repr

/-- The name of a field of the thunk type: `__base`, a declared field, or an invisible one that is
numbered by `field_count`. -/
inductive Name
  | base
  | field (s : String)
  | inv (n : ℕ)
  deriving DecidableEq, Repr

/-- Expressions. Arithmetic, reads of the disk and calls of functions are all a `call`. -/
inductive Expr
  | num (n : UInt64)
  /-- `getThunkArgOffset`: the offset of the instance. -/
  | argOff
  /-- `getThunkArgIdx`: the index of the element. -/
  | argIdx
  | param (i : ℕ)
  /-- `from_base_bits()` -/
  | fromBase
  /-- A call of a function of a field. -/
  | thunk (p : Part) (f : Name)
  /-- `__computeArrayBits` on a field. -/
  | arrayBits (f : Name) (n : Expr)
  /-- `fsl_fail(0)` -/
  | fail
  | add (a b : Expr)
  | sub (a b : Expr)
  | mul (a b : Expr)
  | call {n : ℕ} (g : Disk → (Fin n → UInt64) → Option UInt64) (args : Fin n → Expr)

/-- `Expr::rewriteReplace` of `from_base_bits()`. The rewriting of the source does not go into the index
of a path; here an index is an argument of `call` and is rewritten like the others. -/
def Expr.subst : Expr → Expr → Expr
  | fromBase, new => new
  | arrayBits f n, new => arrayBits f (n.subst new)
  | add a b, new => add (a.subst new) (b.subst new)
  | sub a b, new => sub (a.subst new) (b.subst new)
  | mul a b, new => mul (a.subst new) (b.subst new)
  | call g args, new => call g fun i => (args i).subst new
  | e, _ => e

/-- Conditions; the second operand is only evaluated where it matters. -/
inductive Cond
  | test {n : ℕ} (g : Disk → (Fin n → UInt64) → Option Bool) (args : Fin n → Expr)
  | and (a b : Cond)
  | or (a b : Cond)
  | not (a : Cond)

/-! ## Blocks -/

/-- The type of a field. -/
inductive Ty
  | prim (bits : UInt64)
  | user (t : String)
  deriving DecidableEq, Repr

/-- `TypeDecl` and `TypeParamDecl` -/
structure Decl where
  name : String
  ty : Ty
  params : List Expr
  array : Option Expr
  fixed : Bool

/-- The functions of `tbf_map`. -/
inductive LayoutFn
  | setBits
  | setBytes
  | skipBits
  | skipBytes
  | alignBits
  | alignBytes
  | padPhysBytes
  deriving DecidableEq, Repr

/-- `num_args` -/
def LayoutFn.numArgs : LayoutFn → ℕ
  | padPhysBytes => 2
  | _ => 1

/-- The statements of a block. The members of a union are declarations. -/
inductive Stmt
  | skip
  | seq (a b : Stmt)
  | decl (d : Decl)
  | func (f : LayoutFn) (args : List Expr)
  | ifThen (c : Cond) (t : Stmt)
  | ifElse (c : Cond) (t e : Stmt)
  | union (name : String) (members : List Decl) (array : Option Expr)

/-! ## Thunks -/

/-- `ThunkFieldOffset` and `ThunkFieldOffsetCond` -/
inductive Off
  | raw (e : Expr)
  | cond (c : Cond) (t f : Expr)

/-- `ThunkFieldSize`: an expression, the size of a user type, or that of a union of this type. -/
inductive Size
  | raw (e : Expr)
  | user (t : String)
  | union (u : String)

/-- `ThunkField` -/
structure ThunkField where
  name : Name
  off : Off
  size : Size
  elems : Expr
  fixed : Bool
  params : List Expr

namespace ThunkField

/-- `ThunkElements::isSingleton` -/
def isSingleton (tf : ThunkField) : Bool :=
  match tf.elems with
  | .num n => n == 1
  | _ => false

/-- `ThunkField::copyNumBits` -/
def copyNumBits (tf : ThunkField) : Expr :=
  if tf.isSingleton then .thunk .size tf.name
  else match tf.size with
    | .user _ =>
      if tf.fixed then .mul (.thunk .size tf.name) (.thunk .elems tf.name)
      else .arrayBits tf.name (.thunk .elems tf.name)
    | _ => .mul (.thunk .size tf.name) (.thunk .elems tf.name)

/-- `ThunkField::copyNextOffset`. The functions it calls do not see an index. -/
def copyNextOffset (tf : ThunkField) : Expr := .add (.thunk .off tf.name) tf.copyNumBits

/-- `ThunkField::createInvisible` -/
def createInvisible (n : ℕ) (off : Off) (size : Expr) : ThunkField :=
  ⟨.inv n, off, .raw size, .num 1, false, []⟩

end ThunkField

/-- `__max2` to `__max7`; there are no others. -/
def maxN : (k : ℕ) → (Fin k → UInt64) → Option UInt64
  | 2, a => some (if a 0 > a 1 then a 0 else a 1)
  | 3, a => some (if a 0 ≥ a 1 ∧ a 0 ≥ a 2 then a 0
      else if a 1 ≥ a 0 ∧ a 1 ≥ a 2 then a 1 else a 2)
  | 4, a => some (max4 (a 0) (a 1) (a 2) (a 3))
  | 5, a => some (max5 (a 0) (a 1) (a 2) (a 3) (a 4))
  | 6, a => some (max6 (a 0) (a 1) (a 2) (a 3) (a 4) (a 5))
  | 7, a => some (
      let m := max6 (a 0) (a 1) (a 2) (a 3) (a 4) (a 5)
      if m > a 6 then m else a 6)
  | _, _ => none
where
  max4 (a0 a1 a2 a3 : UInt64) : UInt64 :=
    if a0 ≥ a1 ∧ a0 ≥ a2 ∧ a0 ≥ a3 then a0
    else if a1 ≥ a0 ∧ a1 ≥ a2 ∧ a1 ≥ a3 then a1
    -- the source returns the second argument here
    else if a2 ≥ a0 ∧ a2 ≥ a1 ∧ a2 ≥ a3 then a1
    else a3
  max5 (a0 a1 a2 a3 a4 : UInt64) : UInt64 :=
    let m := max4 a0 a1 a2 a3
    if m > a4 then m else a4
  max6 (a0 a1 a2 a3 a4 a5 : UInt64) : UInt64 :=
    let m := max5 a0 a1 a2 a3 a4
    if m > a5 then m else a5

/-- `RTInterface::maxValue` -/
def maxValue (es : List Expr) : Expr :=
  .call (fun _ v => maxN es.length v) fun i => es.get i

/-- The functions of a type and the expression of its size. -/
structure ThunkType where
  fields : List ThunkField
  size : Expr

/-! ## The builder -/

/-- `SymTabThunkBuilder`; `fields` are the fields whose functions were registered. -/
structure Builder where
  numArgs : ℕ
  last : ThunkField
  fields : List ThunkField
  count : ℕ
  conds : List Cond
  unions : List (String × ThunkType)

/-- The field `__base`. -/
def baseField : ThunkField := ⟨.base, .raw .argOff, .raw (.num 0), .num 0, false, []⟩

/-- The builder at the beginning of a block. -/
def Builder.init (numArgs : ℕ) : Builder := ⟨numArgs, baseField, [baseField], 0, [], []⟩

/-- `SymTabThunkBuilder::getConds` -/
def getConds : List Cond → Option Cond
  | [] => none
  | c :: cs => some (cs.foldl .and c)

namespace Builder

/-- `SymTabThunkBuilder::copyCurrentOffset`, outside of a union. -/
def copyCurrentOffset (s : Builder) : Expr := s.last.copyNextOffset

/-- `SymTabThunkBuilder::copyFromBase` -/
def copyFromBase (s : Builder) : Expr := .sub s.copyCurrentOffset .argOff

/-- A new field becomes the last one. -/
def add (s : Builder) (tf : ThunkField) : Builder :=
  { s with last := tf, fields := s.fields ++ [tf], count := s.count + 1 }

/-- The offset of a field declared here. -/
def fieldOff (s : Builder) : Off :=
  match getConds s.conds with
  | none => .raw s.copyCurrentOffset
  | some c => .cond c s.copyCurrentOffset .fail

/-- `ThunkFieldSize` -/
def sizeOf : Ty → Size
  | .prim bits => .raw (.num bits)
  | .user t => .user t

/-- `ThunkElements`; `from_base_bits()` in the length of an array means the offset `cur`. -/
def elemsOf (cur : Expr) : Option Expr → Expr
  | none => .num 1
  | some len => len.subst cur

/-- The field of a declaration. -/
def declField (s : Builder) (d : Decl) : ThunkField where
  name := .field d.name
  off := s.fieldOff
  size := sizeOf d.ty
  elems := elemsOf s.copyCurrentOffset d.array
  fixed := d.array.isSome && d.fixed
  params := d.params

/-- `SymTabThunkBuilder::addToCurrentSymTab` -/
def addToCurrentSymTab (s : Builder) (d : Decl) : Builder := s.add (s.declField d)

/-- The members of a union, in the type itself or in the type of the union. The length of an array
is rewritten with the expression `copyCurrentOffset` hands out, which inside of a union is the offset
of the union itself; the rewriting deletes it, and nothing can be built with it afterwards. Inside of
a conditional a union is refused. -/
def addMembers (unionOff : Expr) : List Decl → Builder → Option Builder
  | [], s => some s
  | d :: ds, s =>
    if s.conds.length ≠ 0 then none
    else match d.array with
      | some _ => none
      | none => addMembers unionOff ds
          (s.add ⟨.field d.name, .raw unionOff, sizeOf d.ty, .num 1, false, d.params⟩)

/-- `SymTabThunkBuilder::getSymTab` on a union. -/
def unionType (numArgs : ℕ) (members : List Decl) : Option ThunkType :=
  let s := Builder.init numArgs
  (addMembers s.copyCurrentOffset members s).map fun s' =>
    ⟨s'.fields, maxValue (members.map fun d => .thunk .size (.field d.name))⟩

/-- The field of a union. -/
def unionField (unionOff : Expr) (name : String) (array : Option Expr) : ThunkField where
  name := .field name
  off := .raw unionOff
  size := .union name
  elems := elemsOf unionOff array
  fixed := array.isSome
  params := []

/-- `SymTabThunkBuilder::visit` on a union, with `addUnionToSymTab`. Types with arguments are
refused. -/
def addUnion (s : Builder) (name : String) (members : List Decl) (array : Option Expr) :
    Option Builder := do
  let s' ← addMembers s.copyCurrentOffset members s
  let u ← unionType s.numArgs members
  if s.numArgs ≠ 0 then none
  else
    let s'' := s'.add (unionField s.copyCurrentOffset name array)
    some { s'' with unions := s'.unions ++ [(name, u)] }

end Builder

namespace LayoutFn

/-- The remainder; by zero there is none. -/
def mod (a b : Expr) : Expr :=
  .call (fun _ v => if v 1 = 0 then none else some (v 0 % v 1)) ![a, b]

/-- The bits up to the next boundary at `toPhys` of the offset, if they are fewer than `min`. -/
def padBits (toPhys : Disk → UInt64 → Option UInt64) (cur align min : Expr) : Expr :=
  .call (fun d v => (toPhys d (v 0)).bind fun phys =>
    if v 1 = 0 then none
    else
      let rem := v 1 - phys % v 1
      some (if rem < v 2 then rem else 0)) ![cur, align, min]

/-- `doIt`: the offset and the size of the invisible field. -/
def doIt (toPhys : Disk → UInt64 → Option UInt64) (s : Builder) :
    LayoutFn → List Expr → Option (Expr × Expr)
  | setBits, [a] => some (.add .argOff a, .num 0)
  | setBytes, [a] => some (.add .argOff (.mul a (.num 8)), .num 0)
  | skipBits, [a] => some (s.copyCurrentOffset, a)
  | skipBytes, [a] => some (s.copyCurrentOffset, .mul a (.num 8))
  | alignBits, [a] => some (s.copyCurrentOffset, mod (.sub a s.copyFromBase) a)
  | alignBytes, [a] =>
    some (s.copyCurrentOffset,
      mod (.sub (.mul a (.num 8)) s.copyFromBase) (.mul a (.num 8)))
  | padPhysBytes, [a, b] =>
    some (s.copyCurrentOffset,
      padBits toPhys s.copyCurrentOffset (.mul a (.num 8)) (.mul b (.num 8)))
  | _, _ => none

/-- `ThunkBuilderFunc::setupArgs` -/
def setupArgs (s : Builder) (args : List Expr) : List Expr := args.map (·.subst s.copyFromBase)

end LayoutFn

section Build

variable (toPhys : Disk → UInt64 → Option UInt64)

namespace Builder

/-- `SymTabThunkBuilder::visit` on a `TypeFunc`; a function inside of a conditional is refused. A wrong
number of arguments is refused as well, where the source prints a message and skips the function. -/
def applyFn (s : Builder) (f : LayoutFn) (args : List Expr) : Option Builder :=
  match f.doIt toPhys s (LayoutFn.setupArgs s args) with
  | none => none
  | some (off, size) =>
    if s.conds.length ≠ 0 then none
    else some (s.add (.createInvisible s.count (.raw off) size))

/-- `SymTabThunkBuilder::rebaseByCond`: `s` is the builder after the branches. -/
def rebaseByCond (s : Builder) (c : Cond) (nextTrue nextFalse : Expr) : Builder :=
  match getConds (s.conds ++ [c]) with
  | none => s
  | some c => s.add (.createInvisible s.count (.cond c nextTrue nextFalse) (.num 0))

/-- The builder after a statement. -/
def visit : Stmt → Builder → Option Builder
  | .skip, s => some s
  | .seq a b, s => (visit a s).bind (visit b)
  | .decl d, s => some (s.addToCurrentSymTab d)
  | .func f args, s => s.applyFn toPhys f args
  | .ifThen c t, s => do
    let s₁ ← visit t { s with conds := s.conds ++ [c] }
    some ({ s₁ with conds := s.conds }.rebaseByCond c s₁.copyCurrentOffset s.copyCurrentOffset)
  | .ifElse c t e, s => do
    let s₁ ← visit t { s with conds := s.conds ++ [c] }
    let s₂ ← visit e { s₁ with conds := s.conds ++ [.not c], last := s.last }
    some ({ s₂ with conds := s.conds }.rebaseByCond c s₁.copyCurrentOffset s₂.copyCurrentOffset)
  | .union name members array, s => s.addUnion name members array

end Builder

/-- `SymTabThunkBuilder::getSymTab`: the functions of the type, and those of its unions. -/
def getSymTab (numArgs : ℕ) (block : Stmt) : Option (ThunkType × List (String × ThunkType)) :=
  ((Builder.init numArgs).visit toPhys block).map fun s =>
    (⟨s.fields, .sub s.copyCurrentOffset .argOff⟩, s.unions)

end Build

end Fsl.Layout
