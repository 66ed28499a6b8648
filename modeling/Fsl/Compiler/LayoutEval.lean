import Fsl.Compiler.Layout

/-!
# Running the layout functions

The functions of a type call each other by name; `Calls` answers these calls. `calls n` answers them
by running the functions of the type with calls nested at most `n` deep. The same evaluator gives
expressions their meaning in the reference layout, where a walk over the block with a cursor answers
the calls. The sizes of other types are given by `typesize` on both sides.
-/

namespace Fsl.Layout

/-- An instance: its offset and its parameters. -/
structure Clo where
  offset : UInt64
  params : List UInt64

/-- Answers to calls of functions of the type. -/
structure Calls where
  thunk : Part → Name → Option UInt64
  arrayBits : Name → UInt64 → Option UInt64

/-- All the values, if they are all there. -/
def evalArgs {n : ℕ} (v : Fin n → Option UInt64) : Option (Fin n → UInt64) :=
  if h : ∀ i, (v i).isSome then some fun i => (v i).get (h i) else none

section Eval

variable (c : Calls) (d : Disk) (clo : Clo)

/-- The value of an expression; `idx` is the index of the element. -/
def Expr.eval (idx : UInt64) : Expr → Option UInt64
  | .num n => some n
  | .argOff => some clo.offset
  | .argIdx => some idx
  | .param i => clo.params[i]?
  | .fromBase => none
  | .thunk p f => c.thunk p f
  | .arrayBits f n => (n.eval idx).bind (c.arrayBits f)
  | .fail => none
  | .add a b => (a.eval idx).bind fun x => (b.eval idx).map fun y => x + y
  | .sub a b => (a.eval idx).bind fun x => (b.eval idx).map fun y => x - y
  | .mul a b => (a.eval idx).bind fun x => (b.eval idx).map fun y => x * y
  | .call g args => (evalArgs fun i => (args i).eval idx).bind (g d)

/-- The value of a condition. -/
def Cond.eval : Cond → Option Bool
  | .test g args => (evalArgs fun i => (args i).eval c d clo 0).bind (g d)
  | .and a b => a.eval.bind fun x => if x then b.eval else some false
  | .or a b => a.eval.bind fun x => if x then some true else b.eval
  | .not a => a.eval.map (!·)

/-- The values of the parameters of element `idx`. -/
def evalParams (idx : UInt64) : List Expr → Option (List UInt64)
  | [] => some []
  | e :: es => (e.eval c d clo idx).bind fun v => (evalParams idx es).map (v :: ·)

end Eval

/-! ## The functions of a type -/

/-- The loop of `__computeArrayBits`, for at most `m` rounds. -/
def arrayLoop (size : Clo → Option UInt64) (params : UInt64 → Option (List UInt64)) (num : UInt64) :
    ℕ → UInt32 → Clo → UInt64 → Option UInt64
  | 0, _, _, _ => none
  | m + 1, i, cur, total =>
    if i.toUInt64 < num then
      (size cur).bind fun s =>
        (if i.toUInt64 ≠ num - 1 then params (i + 1).toUInt64 else some cur.params).bind fun ps =>
          arrayLoop size params num m (i + 1) ⟨cur.offset + s, ps⟩ (total + s)
    else some total

section Code

variable (typesize : String → Clo → Option UInt64) (unionsize : ℕ → String → Clo → Option UInt64)
variable (d : Disk) (t : ThunkType) (clo : Clo)

/-- The function registered under the name. -/
def ThunkType.find (f : Name) : Option ThunkField := t.fields.find? fun tf => tf.name == f

/-- `ThunkFieldOffset::genCode` and `ThunkFieldOffsetCond::genCode` -/
def Off.eval (c : Calls) : Off → Option UInt64
  | .raw e => e.eval c d clo 0
  | .cond k t f => (k.eval c d clo).bind fun b => if b then t.eval c d clo 0 else f.eval c d clo 0

/-- The closure of the first element of a field. -/
def firstElem (c : Calls) (tf : ThunkField) : Option Clo :=
  (c.thunk .off tf.name).bind fun off => (evalParams c d clo 0 tf.params).map fun ps => ⟨off, ps⟩

/-- `ThunkFieldSize::genCode` -/
def Size.eval (n : ℕ) (c : Calls) (tf : ThunkField) : Size → Option UInt64
  | .raw e => e.eval c d clo 0
  | .user t => (firstElem d clo c tf).bind (typesize t)
  | .union u => (firstElem d clo c tf).bind (unionsize n u)

/-- `tt_size` of the type of a field, if it has one. -/
def Size.ttSize (n : ℕ) : Size → Option (Clo → Option UInt64)
  | .raw _ => none
  | .user t => some (typesize t)
  | .union u => some (unionsize n u)

/-- `__computeArrayBits` -/
def computeArrayBits (n : ℕ) (c : Calls) (tf : ThunkField) (num : UInt64) : Option UInt64 :=
  (tf.size.ttSize typesize unionsize n).bind fun size =>
    (firstElem d clo c tf).bind fun first =>
      arrayLoop size (fun i => evalParams c d clo i tf.params) num n 0 first 0

/-- The calls with at most `n` nested. -/
def calls : ℕ → Calls
  | 0 => ⟨fun _ _ => none, fun _ _ => none⟩
  | n + 1 =>
    { thunk := fun p f => (t.find f).bind fun tf =>
        match p with
        | .off => tf.off.eval d clo (calls n)
        | .size => tf.size.eval typesize unionsize d clo n (calls n) tf
        | .elems => tf.elems.eval (calls n) d clo 0
      arrayBits := fun f num => (t.find f).bind fun tf =>
        computeArrayBits typesize unionsize d clo n (calls n) tf num }

/-- `tf_cond`: whether the field is there; `NULL` for a field outside of all conditionals. -/
def present (n : ℕ) (tf : ThunkField) : Option Bool :=
  match tf.off with
  | .raw _ => some true
  | .cond k _ _ => k.eval (calls typesize unionsize d t clo n) d clo

/-- `__typesize` -/
def typeSize (n : ℕ) : Option UInt64 := t.size.eval (calls typesize unionsize d t clo n) d clo 0

end Code

/-- `__typesize` of a union. -/
def unionSize (typesize : String → Clo → Option UInt64) (d : Disk) (us : List (String × ThunkType))
    (n : ℕ) (u : String) (clo : Clo) : Option UInt64 :=
  (us.find? fun e => e.1 == u).bind fun e =>
    typeSize typesize (fun _ _ _ => none) d e.2 clo n

/-! ## The reference layout -/

/-- What the walk knows of a field that is there: its offset, the size of its first element and the
number of its elements. -/
structure Info where
  off : UInt64
  size : Option UInt64
  elems : UInt64

/-- The cursor and the fields behind it. `lost`: since the last `set` an array was passed that has too
many elements to be measured. `asked`: a field was declared at such a cursor. -/
structure Walk where
  cursor : UInt64
  fields : String → Option Info
  lost : Bool
  asked : Bool

/-- The walk at the beginning of the block. -/
def Walk.init (clo : Clo) : Walk := ⟨clo.offset, fun _ => none, false, false⟩

/-- Names mean the fields behind the cursor. -/
def Walk.calls (w : Walk) : Calls where
  thunk
    | .off, .field f => (w.fields f).map Info.off
    | .size, .field f => (w.fields f).bind Info.size
    | .elems, .field f => (w.fields f).map Info.elems
    | _, _ => none
  arrayBits _ _ := none

/-- The bits of `k` elements from the one at `off` on. -/
def elemBits (elemSize : ℕ → UInt64 → Option UInt64) : ℕ → ℕ → UInt64 → Option UInt64
  | 0, _, _ => some 0
  | k + 1, i, off =>
    (elemSize i off).bind fun s => (elemBits elemSize k (i + 1) (off + s)).map fun r => s + r

section Reference

variable (typesize : String → Clo → Option UInt64) (d : Disk) (clo : Clo)

/-- The size of element `i` of a declaration at `off`. -/
def Decl.elemSize (w : Walk) (dl : Decl) (i : ℕ) (off : UInt64) : Option UInt64 :=
  match dl.ty with
  | .prim bits => some bits
  | .user t => (evalParams w.calls d clo (UInt64.ofNat i) dl.params).bind fun ps =>
      typesize t ⟨off, ps⟩

/-- The size of all elements. Those of a fixed array have the size of the first. -/
def Decl.bits (w : Walk) (dl : Decl) (num : UInt64) : Option UInt64 :=
  if dl.array.isSome && dl.fixed then
    (dl.elemSize typesize d clo w 0 w.cursor).bind fun s =>
      elemBits (fun i off => (dl.elemSize typesize d clo w i off).filter (· == s)) num.toNat 0 w.cursor
  else elemBits (dl.elemSize typesize d clo w) num.toNat 0 w.cursor

/-- An array of a user type whose elements are counted with 32 bits. -/
def Decl.TooLong (dl : Decl) (num : UInt64) : Bool :=
  match dl.ty, dl.array with
  | .user _, some (.num 1) => false
  | .user _, some _ => !dl.fixed && decide (2 ^ 32 ≤ num.toNat)
  | _, _ => false

/-- The number of elements. -/
def Decl.num (w : Walk) (dl : Decl) : Option UInt64 :=
  match dl.array with
  | none => some 1
  | some len => len.eval w.calls d clo 0

/-- A declaration that is there. -/
def Walk.decl (w : Walk) (dl : Decl) : Option Walk := do
  let num ← dl.num d clo w
  let _ ← evalParams w.calls d clo 0 dl.params
  let bits ← dl.bits typesize d clo w num
  let info : Info := ⟨w.cursor, dl.elemSize typesize d clo w 0 w.cursor, num⟩
  return ⟨w.cursor + bits, Function.update w.fields dl.name (some info), w.lost || dl.TooLong num,
    w.asked || w.lost⟩

/-- The four functions that move the cursor by themselves. -/
def Walk.func (w : Walk) : LayoutFn → List Expr → Option Walk
  | .setBits, [a] => (a.eval w.calls d clo 0).map fun x =>
      { w with cursor := clo.offset + x, lost := false }
  | .setBytes, [a] => (a.eval w.calls d clo 0).map fun x =>
      { w with cursor := clo.offset + x * 8, lost := false }
  | .skipBits, [a] => (a.eval w.calls d clo 0).map fun x => { w with cursor := w.cursor + x }
  | .skipBytes, [a] => (a.eval w.calls d clo 0).map fun x => { w with cursor := w.cursor + x * 8 }
  | _, _ => none

/-- The walk over a block: conditions are tested where they stand, and each declaration that is there
moves the cursor by its full size. -/
def Walk.visit : Stmt → Walk → Option Walk
  | .skip, w => some w
  | .seq a b, w => (visit a w).bind (visit b)
  | .decl dl, w => w.decl typesize d clo dl
  | .func f args, w => w.func d clo f args
  | .ifThen k t, w => (k.eval w.calls d clo).bind fun b => if b then visit t w else some w
  | .ifElse k t e, w => (k.eval w.calls d clo).bind fun b => if b then visit t w else visit e w
  | .union _ _ _, _ => none

end Reference

/-! ## Agreement -/

/-- The names a block declares. -/
def Stmt.names : Stmt → List String
  | .skip => []
  | .seq a b => a.names ++ b.names
  | .decl dl => [dl.name]
  | .func _ _ => []
  | .ifThen _ t => t.names
  | .ifElse _ t e => t.names ++ e.names
  | .union name members _ => members.map Decl.name ++ [name]

/-- Declarations and conditionals; `skip` and `set` functions where `top` says so, that is outside of
all conditionals. -/
def Stmt.Plain : Bool → Stmt → Prop
  | _, .skip => True
  | top, .seq a b => a.Plain top ∧ b.Plain top
  | _, .decl _ => True
  | top, .func f args =>
    top = true ∧ args.length = 1 ∧ f ∈ [.setBits, .setBytes, .skipBits, .skipBytes]
  | _, .ifThen _ t => t.Plain false
  | _, .ifElse _ t e => t.Plain false ∧ e.Plain false
  | _, .union _ _ _ => False

section Agreement

variable (typesize : String → Clo → Option UInt64) (d : Disk) (clo : Clo)

/-- The functions of the type return what the walk found: the offset of each field that is there,
whether a field is there, and the size of the type. -/
structure Agrees (t : ThunkType) (us : List (String × ThunkType)) (names : List String) (w : Walk) :
    Prop where
  off : ∀ f info, w.fields f = some info → ∃ n,
    (calls typesize (unionSize typesize d us) d t clo n).thunk .off (.field f) = some info.off
  present : ∀ f ∈ names, ∃ tf, t.find (.field f) = some tf ∧ ∃ n,
    present typesize (unionSize typesize d us) d t clo n tf = some (w.fields f).isSome
  size : ∃ n, typeSize typesize (unionSize typesize d us) d t clo n = some (w.cursor - clo.offset)

end Agreement

end Fsl.Layout
