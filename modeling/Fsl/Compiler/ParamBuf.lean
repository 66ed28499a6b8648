import Fsl.Lib.Segment

/-!
# Parameter buffers

A value of a parameterised type carries its arguments in a buffer of 64-bit words. A scalar takes one
word; an argument that is itself of a user type takes its offset, its translation handle and the
whole of its own buffer. `storeExprListIntoParamBuf` fills such a buffer and `loadArgsFromArray`
reads it back into the variables of a function.
-/

namespace Fsl.ParamBuf

/-- `ArgsList`: the type and the name of each argument. -/
abbrev ArgsList := List (String × String)

/-- The type that `add` last recorded for the name. -/
def lookupType (as : ArgsList) (name : String) : Option String :=
  (as.reverse.find? (fun a => a.2 == name)).map Prod.fst

/-- What `Type` says of the arguments of a type; `NULL` is `none`. -/
structure Ty where
  args : Option ArgsList

def Ty.getNumArgs (t : Ty) : ℕ := (t.args.getD []).length

/-- `types_map`. A type is not, through any chain of parameters, a parameter of itself: `rank` counts
the nesting. -/
structure Types where
  find : String → Option Ty
  rank : String → ℕ
  acyclic : ∀ {n t as a}, find n = some t → t.args = some as → a ∈ as → (find a.1).isSome →
    rank a.1 < rank n

/-- The closure has three members; the pointer to the buffer is not stored. -/
def rtCloElems : ℕ := 3

theorem exists_mem_of_lookupType {as : ArgsList} {name ty : String}
    (h : lookupType as name = some ty) : ∃ a ∈ as, a.1 = ty ∧ a.2 = name := by
  rw [lookupType, Option.map_eq_some_iff] at h
  obtain ⟨a, ha, rfl⟩ := h
  refine ⟨a, ?_, rfl, ?_⟩
  · simpa using List.mem_of_find?_eq_some ha
  · simpa using List.find?_some ha

namespace Types

variable (Γ : Types)

/-- `ArgsList::getType`: the user type of an argument, if it is one. -/
def getType (as : ArgsList) (name : String) : Option String :=
  (lookupType as name).filter (fun ty => (Γ.find ty).isSome)

variable {Γ} in
theorem rank_lt_of_getType {n ty name : String} {t : Ty} {as : ArgsList} (hn : Γ.find n = some t)
    (hargs : t.args = some as) (h : Γ.getType as name = some ty) : Γ.rank ty < Γ.rank n := by
  rw [getType, Option.filter_eq_some_iff] at h
  obtain ⟨a, ha, rfl, -⟩ := exists_mem_of_lookupType h.1
  exact Γ.acyclic hn hargs ha h.2

/-- `Type::getParamBufEntryCount` -/
def getParamBufEntryCount (n : String) : ℕ :=
  match _hn : Γ.find n with
  | none => 0
  | some t =>
    match _hargs : t.args with
    | none => 0
    | some as =>
      (as.map fun a =>
        match h : Γ.getType as a.2 with
        | some ty => getParamBufEntryCount ty + (rtCloElems - 1)
        | none => 1).sum
termination_by Γ.rank n
decreasing_by exact rank_lt_of_getType _hn _hargs h

/-- The words `getNumParamBufEntries` and `getParamBufBaseIdx` count for an argument. -/
def argEntries (as : ArgsList) (name : String) : ℕ :=
  match Γ.getType as name with
  | some ty => Γ.getParamBufEntryCount ty + (rtCloElems - 1)
  | none => 1

/-- `ArgsList::getNumParamBufEntries` -/
def getNumParamBufEntries (as : ArgsList) : ℕ := (as.map fun a => Γ.argEntries as a.2).sum

/-- `ArgsList::getParamBufBaseIdx` -/
def getParamBufBaseIdx (as : ArgsList) (idx : ℕ) : ℕ :=
  ((as.take idx).map fun a => Γ.argEntries as a.2).sum

end Types

/-! ## Values and memory -/

/-- What a closure of a user type holds: its offset, the words of its parameter buffer and the
translation handle, as the integer it is cast to. -/
structure Closure where
  offset : UInt64
  params : List UInt64
  xlate : UInt64
  deriving DecidableEq, Repr

inductive Val
  | scalar (v : UInt64)
  | closure (c : Closure)
  deriving DecidableEq, Repr

/-- A store through a pointer into the buffer; outside of it nothing is promised. -/
def store (buf : List UInt64) (i : ℕ) (v : UInt64) : Option (List UInt64) :=
  if i < buf.length then some (buf.set i v) else none

/-- `emitMemcpy64` into the buffer. -/
def memcpy64 (dst : List UInt64) (i : ℕ) (src : List UInt64) (n : ℕ) : Option (List UInt64) :=
  if n ≤ src.length ∧ i + n ≤ dst.length then some (dst.overwrite i (src.take n)) else none

/-! ## Storing -/

section Store

variable (Γ : Types)

def storeClosureIntoParamBuf (buf : List UInt64) (pbIdx : ℕ) (ty : String) (t : Ty) (c : Closure) :
    Option (List UInt64) := do
  let buf ← store buf pbIdx c.offset
  let buf ← store buf (pbIdx + 1) c.xlate
  match t.args with
  | none => return buf
  | some _ => memcpy64 buf (pbIdx + 2) c.params (Γ.getParamBufEntryCount ty)

/-- The buffer and `elems_stored`. The builder aborts on a value of the wrong kind. -/
def storeExprIntoParamBuf (arg : String × String) (v : Val) (buf : List UInt64) (pbIdx : ℕ) :
    Option (List UInt64 × ℕ) :=
  match Γ.find arg.1, v with
  | some t, .closure c => do
    let buf ← storeClosureIntoParamBuf Γ buf pbIdx arg.1 t c
    return (buf, Γ.getParamBufEntryCount arg.1 + 2)
  | none, .scalar v => do
    let buf ← store buf pbIdx v
    return (buf, 1)
  | _, _ => none

/-- The loop of `storeExprListIntoParamBuf`: the buffer and the index after the last argument. -/
def storeExprs : ArgsList → List Val → List UInt64 → ℕ → Option (List UInt64 × ℕ)
  | arg :: args, v :: vs, buf, pbIdx => do
    let (buf, elemsStored) ← storeExprIntoParamBuf Γ arg v buf pbIdx
    storeExprs args vs buf (pbIdx + elemsStored)
  | [], [], buf, pbIdx => some (buf, pbIdx)
  | _, _, _, _ => none

def storeExprListIntoParamBuf (argsOut : ArgsList) (exprs : List Val) (buf : List UInt64) :
    Option (List UInt64 × ℕ) :=
  storeExprs Γ argsOut exprs buf 0

end Store

/-! ## Names of the emitted function -/

/-- `x` is `g` or `g` followed by a number. -/
def Numbered (g x : String) : Prop := ∃ d : String, x = g ++ d ∧ ∀ c ∈ d.toList, c.isDigit

/-- How the builder renames a value whose name is taken: it appends a number. -/
def Renames (uniq : List String → String → String) : Prop :=
  ∀ syms g, uniq syms g ∉ syms ∧ Numbered g (uniq syms g)

section Names

variable (uniq : List String → String → String)

/-- The name a new value gets: the one asked for, or `uniq` of it where that one is taken. -/
def symName (syms : List String) (name : String) : String :=
  if name ∈ syms then uniq syms name else name

/-- The names after a value that asks for the name is created. -/
def addName (syms : List String) (name : String) : List String := symName uniq syms name :: syms

/-- The names after values that ask for the names are created. -/
def addNames (syms names : List String) : List String := names.foldl (addName uniq) syms

variable {uniq}

theorem symName_eq_iff (hu : Renames uniq) {syms : List String} {name : String} :
    symName uniq syms name = name ↔ name ∉ syms := by
  constructor
  · intro h hmem
    rw [symName, if_pos hmem] at h
    exact (hu syms name).1 (h.symm ▸ hmem)
  · intro h
    rw [symName, if_neg h]

end Names

/-- The first number that makes the name free, or a name longer than every other one. -/
def firstFree (syms : List String) (g : String) : String :=
  (((List.range syms.length).map fun n => g ++ (n + 1).repr).find? (· ∉ syms)).getD
    (g ++ String.ofList (List.replicate ((syms.map String.length).sum + 1) '1'))

theorem renames_firstFree : Renames firstFree := by
  intro syms g
  rw [firstFree]
  cases h : ((List.range syms.length).map fun n => g ++ (n + 1).repr).find? (· ∉ syms) with
  | some x =>
    obtain ⟨n, -, rfl⟩ := List.mem_map.mp (List.mem_of_find?_eq_some h)
    refine ⟨by simpa using List.find?_some h, (n + 1).repr, rfl, fun c hc => ?_⟩
    rw [Nat.repr, String.toList_ofList] at hc
    exact Nat.isDigit_of_mem_toDigits (by decide) (by decide) hc
  | none =>
    refine ⟨fun hmem => ?_, _, rfl, fun c hc => ?_⟩
    · have hle := List.le_sum_of_mem (List.mem_map_of_mem (f := String.length) hmem)
      simp only [Option.getD_none, String.length_append, String.length_ofList,
        List.length_replicate] at hle
      omega
    · rw [String.toList_ofList] at hc
      rw [List.eq_of_mem_replicate hc]
      rfl

/-! ## Loading -/

/-- `VarScope` and the names of the values of the function that is emitted. -/
structure VarScope where
  vars : List (String × Val)
  syms : List String

namespace VarScope

def bind (s : VarScope) (name : String) (v : Val) : VarScope :=
  { s with vars := (name, v) :: s.vars }

def getVar (s : VarScope) (name : String) : Option Val := s.vars.lookup name

end VarScope

section Load

variable (Γ : Types) (uniq : List String → String → String)

/-- `createTmpI64` asserts that the variable got its own name. -/
def createTmpI64 (s : VarScope) (name : String) (v : UInt64) : Option VarScope :=
  if symName uniq s.syms name = name then
    some { vars := (name, .scalar v) :: s.vars, syms := addName uniq s.syms name }
  else none

/-- The names that `createTmpClosure` asks for, in order. -/
def tmpClosureNames (t : Ty) (name : String) : List String :=
  [name, "__ptr_" ++ name] ++ if t.getNumArgs = 0 then [] else [name ++ "_params"]

/-- The names that a closure out of a buffer asks for: those of `createTmpClosure` and of the copy of
its own buffer. -/
def cloSyms (t : Ty) (name : String) : List String :=
  tmpClosureNames t name ++ if t.getNumArgs = 0 then [] else ["t_params", "dst_ptr", "src_ptr"]

/-- The closure is known by its own name and by that of the pointer to it. -/
def bindClosure (s : VarScope) (t : Ty) (name : String) (c : Closure) : VarScope :=
  (VarScope.bind { s with syms := addNames uniq s.syms (cloSyms t name) } ("__ptr_" ++ name)
    (.closure c)).bind name (.closure c)

/-- The closure that `createTmpClosure` takes from the buffer. -/
def loadClosure (buf : List UInt64) (ty : String) (t : Ty) (pbBaseIdx : ℕ) : Option Closure := do
  let offset ← buf[pbBaseIdx]?
  let xlate ← buf[pbBaseIdx + 1]?
  if t.getNumArgs = 0 then return ⟨offset, [], xlate⟩
  let params ← memcpy64 (List.replicate (Γ.getParamBufEntryCount ty) 0) 0 (buf.drop (pbBaseIdx + 2))
    (Γ.getParamBufEntryCount ty)
  return ⟨offset, params, xlate⟩

/-- One turn of the loop of `loadArgsFromArray`: the scope and the next index. -/
def loadArg (buf : List UInt64) (arg : String × String) (arrayIdx : ℕ) (s : VarScope) :
    Option (VarScope × ℕ) :=
  match Γ.find arg.1 with
  | some t => do
    let c ← loadClosure Γ buf arg.1 t arrayIdx
    return (bindClosure uniq s t arg.2 c, arrayIdx + (Γ.getParamBufEntryCount arg.1 + 2))
  | none => do
    let v ← buf[arrayIdx]?
    let s ← createTmpI64 uniq s arg.2 v
    return (s, arrayIdx + 1)

def loadArgs (buf : List UInt64) : ArgsList → ℕ → VarScope → Option VarScope
  | [], _, s => some s
  | arg :: args, arrayIdx, s => do
    let (s, arrayIdx) ← loadArg Γ uniq buf arg arrayIdx s
    loadArgs buf args arrayIdx s

def loadArgsFromArray (buf : List UInt64) (args : ArgsList) (s : VarScope) : Option VarScope :=
  loadArgs Γ uniq buf args 0 s

end Load

end Fsl.ParamBuf
