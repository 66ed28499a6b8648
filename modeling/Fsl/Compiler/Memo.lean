import Fsl.Compiler.ParamBuf
import Fsl.Runtime.Prog

/-!
# Memoised functions

A function without arguments is called once, by `fsl_load_memo`, which keeps its result in
`__fsl_memotab`; compiled code reads the table where the source calls the function. The table is
filled in the order in which `load_user_funcs` met the functions, and the functions read it while it
is filled.
-/

namespace Fsl.Memo

open ParamBuf

/-- The return type: `bool`, another primitive type, or a user type whose parameter buffer has the
given number of entries. -/
inductive Ret
  | bool
  | prim
  | type (paramC : ℕ)
  deriving DecidableEq, Repr

/-- `MemoTab::getNumTabEntries` -/
def Ret.getNumTabEntries : Ret → ℕ
  | type paramC => rtCloElems + paramC
  | _ => 1

/-- What `FuncRet::codeGen` hands to the caller: a truncated bit, the word, or a copy of the
closure. Other combinations do not compile. -/
def Ret.returns : Ret → Val → Option Val
  | bool, .scalar w => some (.scalar (w % 2))
  | prim, .scalar w => some (.scalar w)
  | type paramC, .closure c =>
    if paramC ≤ c.params.length then some (.closure ⟨c.offset, c.params.take paramC, c.xlate⟩)
    else none
  | _, _ => none

variable {σ : Type}

/-- A function; `entry` is the state in which its code starts. -/
structure Func (σ : Type) where
  name : String
  numArgs : ℕ
  ret : Ret
  entry : List Val → σ

/-- What compiled code does next. -/
inductive Act (σ : Type)
  | ret (v : Val)
  | tau (s : σ)
  | read (addr : UInt64) (width : Width) (k : UInt64 → σ)
  | call (f : String) (args : List Val) (k : Val → σ)

/-! ## The order of the functions -/

/-- A statement of a file, or an included file, which begins with a statement. -/
inductive Item (α : Type)
  | stmt (a : α)
  | incl (first : α) (rest : List (Item α))

mutual

/-- One step of `program_stmts`: a statement is added to the block, an included one is spliced in at
its beginning. -/
def Item.addTo {α : Type} : Item α → List α → List α
  | .stmt a, gblk => gblk ++ [a]
  | .incl first rest, gblk => addAll rest [first] ++ gblk

/-- `program_stmts` -/
def addAll {α : Type} : List (Item α) → List α → List α
  | [], gblk => gblk
  | i :: rest, gblk => addAll rest (i.addTo gblk)

end

/-- A program: its main file, where `none` is a statement that declares no function, and the code of
its functions. Thunks are among the functions with arguments. No name is declared twice. -/
structure Program (σ : Type) where
  first : Option (Func σ)
  rest : List (Item (Option (Func σ)))
  next : σ → Act σ
  distinct : (((addAll rest [first]).filterMap id).map Func.name).Nodup

namespace Program

variable (p : Program σ)

/-- `global_scope` -/
def globalScope : List (Option (Func σ)) := addAll p.rest [p.first]

/-- `funcs_list` -/
def funcsList : List (Func σ) := p.globalScope.filterMap id

/-- `funcs_map` -/
def find (name : String) : Option (Func σ) := p.funcsList.find? fun f => f.name == name

/-- The function a call means; it is called with as many arguments as it has. -/
def callee (name : String) (args : List Val) : Option (Func σ) :=
  (p.find name).filter fun f => args.length == f.numArgs

/-- The functions that `MemoTab::canMemoize`. -/
def memoised : List (Func σ) := p.funcsList.filter fun f => f.numArgs == 0

end Program

/-! ## The table -/

/-- `MemoTab`: the functions with their indices, and `last_datatab_idx`. -/
structure MemoTab (σ : Type) where
  entries : List (Func σ × ℕ)
  last : ℕ

/-- `MemoTab::registerFunction` -/
def MemoTab.registerFunction (mt : MemoTab σ) (f : Func σ) : MemoTab σ :=
  ⟨mt.entries ++ [(f, mt.last)], mt.last + f.ret.getNumTabEntries⟩

/-- `load_user_funcs` -/
def Program.memoTab (p : Program σ) : MemoTab σ :=
  p.memoised.foldl MemoTab.registerFunction ⟨[], 0⟩

/-- `MemoTab::getFuncIdx` -/
def MemoTab.getFuncIdx (mt : MemoTab σ) (f : Func σ) : Option ℕ :=
  (mt.entries.find? fun e => e.1.name == f.name).map Prod.snd

/-- An entry of `__fsl_memotab`: a word, or a pointer to an entry of the table. -/
inductive Cell
  | word (w : UInt64)
  | ptr (idx : ℕ)
  deriving DecidableEq, Repr

def Cell.toWord : Cell → Option UInt64
  | word w => some w
  | ptr _ => none

abbrev Table := ℕ → Cell

def Table.zero : Table := fun _ => .word 0

/-- The words of the entries from `idx` on. -/
def copyWords (tab : Table) (idx : ℕ) : ℕ → Option (List UInt64)
  | 0 => some []
  | n + 1 => (tab idx).toWord.bind fun w => (copyWords tab (idx + 1) n).map (w :: ·)

/-- The words copied from behind `clo_params`; a null pointer can only be followed for no words. -/
def copyParams (tab : Table) : Cell → ℕ → Option (List UInt64)
  | .ptr idx, n => copyWords tab idx n
  | .word _, 0 => some []
  | .word _, _ + 1 => none

/-- `MemoTab::memoCallPrim` and `MemoTab::memoCallType` -/
def memoFuncCall (tab : Table) (idx : ℕ) : Ret → Option Val
  | .bool => (tab idx).toWord.map fun w => .scalar (w % 2)
  | .prim => (tab idx).toWord.map .scalar
  | .type paramC => do
    let offset ← (tab idx).toWord
    let xlate ← (tab (idx + 2)).toWord
    let params ← copyParams tab (tab (idx + 1)) paramC
    return .closure ⟨offset, params, xlate⟩

/-! ## Running -/

namespace Program

variable (p : Program σ) (mode : Mode) (d : Disk)

/-- Run for at most `n` steps. A call of a function without arguments is answered by `memo`, or
evaluated like any other where there is none. -/
def eval (memo : Option (Func σ → Option Val)) : ℕ → σ → Option Val
  | 0, _ => none
  | n + 1, s =>
    match p.next s with
    | .ret v => some v
    | .tau s => eval memo n s
    | .read addr width k =>
      match Pread.diskPhys mode d addr.toNat width with
      | .ok v => eval memo n (k (UInt64.ofNat v))
      | .error _ => none
    | .call f args k =>
      (p.callee f args).bind fun g =>
        (match memo with
          | some m =>
            if g.numArgs = 0 then m g else (eval (some m) n (g.entry args)).bind g.ret.returns
          | none => (eval none n (g.entry args)).bind g.ret.returns).bind fun v => eval memo n (k v)

/-- The result of a call. -/
def callFunc (memo : Option (Func σ → Option Val)) (n : ℕ) (f : Func σ) (args : List Val) :
    Option Val :=
  (p.eval mode d memo n (f.entry args)).bind f.ret.returns

/-- What a call of a function without arguments reads from the table. -/
def tabCall (tab : Table) (f : Func σ) : Option Val :=
  (p.memoTab.getFuncIdx f).bind fun idx => memoFuncCall tab idx f.ret

/-- The first half of `fsl_do_memo`: the parameters of a closure follow it. -/
def prepare (tab : Table) (idx : ℕ) : Ret → Table
  | .type _ => Function.update tab (idx + 1) (.ptr (idx + rtCloElems))
  | _ => tab

/-- The second half: the result is stored. A bit is returned in a register whose other bits the
calling convention leaves open; they are `junk`. -/
def keep (junk : UInt64) (tab : Table) (idx : ℕ) : Ret → Val → Table
  | .bool, .scalar w => Function.update tab idx (.word (2 * junk + w))
  | .prim, .scalar w => Function.update tab idx (.word w)
  | .type paramC, .closure c => fun i =>
    if i = idx then .word c.offset
    else if i = idx + 2 then .word c.xlate
    else if idx + 3 ≤ i ∧ i < idx + 3 + paramC then .word (c.params.getD (i - (idx + 3)) 0)
    else tab i
  | _, _ => tab

/-- `fsl_do_memo` -/
def doMemo (junk : UInt64) (n : ℕ) (tab : Table) (e : Func σ × ℕ) : Option Table :=
  let tab := prepare tab e.2 e.1.ret
  (p.callFunc mode d (some (p.tabCall tab)) n e.1 []).map (keep junk tab e.2 e.1.ret)

/-- `fsl_load_memo` -/
def loadMemo (junk : UInt64) (n : ℕ) (tab : Table) : Option Table :=
  p.memoTab.entries.foldlM (p.doMemo mode d junk n) tab

/-- The value of a function without arguments, its calls evaluated directly. -/
def Direct (f : Func σ) (v : Val) : Prop := ∃ n, p.callFunc mode d none n f [] = some v

/-- Filling the zeroed table ends, with the value of each function in its slot; no two slots share an
entry, and all lie in the table. -/
def Sound (junk : UInt64) : Prop :=
  (∃ n tab, p.loadMemo mode d junk n Table.zero = some tab ∧
    ∀ f ∈ p.memoised, ∀ v, p.Direct mode d f v → p.tabCall tab f = some v) ∧
  p.memoTab.entries.Pairwise (fun e e' =>
    ∀ i, ¬ (e.2 ≤ i ∧ i < e.2 + e.1.ret.getNumTabEntries ∧
      e'.2 ≤ i ∧ i < e'.2 + e'.1.ret.getNumTabEntries)) ∧
  ∀ e ∈ p.memoTab.entries, e.2 + e.1.ret.getNumTabEntries ≤ p.memoTab.last

/-- What a slot that was not filled yet gives: zeros, and a null pointer to the parameters. -/
def unfilled : Ret → Option Val
  | .type 0 => some (.closure ⟨0, [], 0⟩)
  | .type (_ + 1) => none
  | _ => some (.scalar 0)

/-- What the slot that is being filled gives: zeros. -/
def filling : Ret → Val
  | .type paramC => .closure ⟨0, List.replicate paramC 0, 0⟩
  | _ => .scalar 0

/-- The values `D` for the functions before `f` in the order of the table, nothing but zeros for `f`
and the functions after it. -/
def upTo (D : Func σ → Val) (f g : Func σ) : Option Val :=
  let names := p.memoised.map Func.name
  if names.idxOf g.name < names.idxOf f.name then some (D g)
  else if g.name = f.name then some (filling g.ret)
  else unfilled g.ret

/-- Each function has its value `D f` also when all functions from itself on count as zero. -/
def Ordered (D : Func σ → Val) : Prop :=
  ∀ f ∈ p.memoised, ∃ n, p.callFunc mode d (some (p.upTo D f)) n f [] = some (D f)

end Program

end Fsl.Memo
