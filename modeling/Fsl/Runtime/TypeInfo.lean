import Fsl.Runtime.Disk

/-!
# Type infos and mappings

`type_info.c` and `virt.c` keep instances in memory that is freed by reference counts. A type info refers
to the one it was reached from and to the mapping of its address space; a mapping is evaluated in the
closure of a type info. Memory that was freed is not given out again here, so that any use of it shows.
-/

namespace Fsl.TypeInfo

/-- `struct fsl_rt_closure`; a mapping is given by its address. -/
structure Closure where
  offset : UInt64
  params : List UInt64
  xlate : Option ℕ

/-- `struct type_desc` -/
structure Desc where
  typenum : UInt32
  clo : Closure

/-- `struct type_info`. `ti_ref_c` is an `unsigned int`; the model counts on where it would wrap. -/
structure Ti where
  td : Desc
  prev : Option ℕ
  refC : ℕ

/-- `struct fsl_rt_mapping`; `clo` is the type info whose closure `rtm_clo` points to. -/
structure Rtm (V : Type) where
  clo : ℕ
  virt : V
  refC : ℕ

/-- The memory. Both kinds of objects get their addresses from one counter. -/
structure Heap (V : Type) where
  ti : ℕ → Option Ti
  rtm : ℕ → Option (Rtm V)
  next : ℕ

abbrev M (V : Type) := StateT (Heap V) (Except Stop)

variable {V : Type}

namespace Heap

def setTi (h : Heap V) (a : ℕ) (x : Option Ti) : Heap V := { h with ti := Function.update h.ti a x }

def setRtm (h : Heap V) (a : ℕ) (m : Option (Rtm V)) : Heap V :=
  { h with rtm := Function.update h.rtm a m }

section

variable (h : Heap V) (a : ℕ) (x : Option Ti) (m : Option (Rtm V))

@[simp] theorem setTi_self : (h.setTi a x).ti a = x := Function.update_self _ _ _

theorem setTi_of_ne {b : ℕ} (hb : b ≠ a) : (h.setTi a x).ti b = h.ti b :=
  Function.update_of_ne hb _ _

@[simp] theorem setTi_rtm : (h.setTi a x).rtm = h.rtm := rfl

@[simp] theorem setTi_next : (h.setTi a x).next = h.next := rfl

@[simp] theorem setRtm_self : (h.setRtm a m).rtm a = m := Function.update_self _ _ _

theorem setRtm_of_ne {b : ℕ} (hb : b ≠ a) : (h.setRtm a m).rtm b = h.rtm b :=
  Function.update_of_ne hb _ _

@[simp] theorem setRtm_ti : (h.setRtm a m).ti = h.ti := rfl

@[simp] theorem setRtm_next : (h.setRtm a m).next = h.next := rfl

end

end Heap

def readTi (a : ℕ) : M V Ti := fun h =>
  match h.ti a with
  | none => .error .fault
  | some x => .ok (x, h)

def writeTi (a : ℕ) (x : Ti) : M V Unit := fun h =>
  match h.ti a with
  | none => .error .fault
  | some _ => .ok ((), h.setTi a (some x))

def freeTi (a : ℕ) : M V Unit := fun h =>
  match h.ti a with
  | none => .error .fault
  | some _ => .ok ((), h.setTi a none)

def allocTi (x : Ti) : M V ℕ := fun h =>
  .ok (h.next, { h.setTi h.next (some x) with next := h.next + 1 })

def readRtm (a : ℕ) : M V (Rtm V) := fun h =>
  match h.rtm a with
  | none => .error .fault
  | some m => .ok (m, h)

def writeRtm (a : ℕ) (m : Rtm V) : M V Unit := fun h =>
  match h.rtm a with
  | none => .error .fault
  | some _ => .ok ((), h.setRtm a (some m))

def freeRtm (a : ℕ) : M V Unit := fun h =>
  match h.rtm a with
  | none => .error .fault
  | some _ => .ok ((), h.setRtm a none)

def allocRtm (m : Rtm V) : M V ℕ := fun h =>
  .ok (h.next, { h.setRtm h.next (some m) with next := h.next + 1 })

/-! ## Evaluation -/

/-- A mapping as compiled code sees it: the virtual type, and the closure it is evaluated in. -/
structure Layer (V : Type) where
  virt : V
  offset : UInt64
  params : List UInt64

/-- All that compiled code can read of a closure. -/
structure View (V : Type) where
  offset : UInt64
  params : List UInt64
  layers : List (Layer V)

/-- The compiled code and the tables, on a fixed disk. A mapping is given by its virtual type and the
view of `rtm_clo`; its cache changes no address. An assertion that fails in there ends the process, so
that a run goes on only with values. -/
structure Env (V : Type) where
  bdevBits : UInt64
  paramC : UInt32 → ℕ
  asserts : UInt32 → View V → Bool
  virttype : V → UInt32
  loadCache : V → View V → Bool
  totalBits : V → View V → UInt64
  xlate : V → View V → UInt64 → UInt64
  getNth : V → View V → UInt32 → UInt64

/-- `TYPENUM_INVALID` -/
def typenumInvalid : UInt32 := -1

/-- The mappings that lead from a closure's address space to the disk. -/
def layers : ℕ → Option ℕ → M V (List (Layer V))
  | _, none => return []
  | 0, some _ => throw Stop.fault
  | k + 1, some r => do
    let rtm ← readRtm r
    let p ← readTi rtm.clo
    let ls ← layers k p.td.clo.xlate
    return ⟨rtm.virt, p.td.clo.offset, p.td.clo.params⟩ :: ls

def view (clo : Closure) : M V (View V) := do
  let ls ← layers (← get).next clo.xlate
  return ⟨clo.offset, clo.params, ls⟩

variable (E : Env V)

/-- `fsl_virt_xlate` -/
def virtXlate (clo : Closure) (bitOff : UInt64) : M V UInt64 := do
  match (← view clo).layers with
  | [] => throw Stop.fault
  | l :: ls => return E.xlate l.virt ⟨l.offset, l.params, ls⟩ bitOff

/-- `fsl_virt_xlate_safe`; `OFFSET_INVALID` past the end. -/
def virtXlateSafe (clo : Closure) (bitOff : UInt64) : M V UInt64 := do
  match (← view clo).layers with
  | [] => throw Stop.fault
  | l :: ls =>
    return if E.totalBits l.virt ⟨l.offset, l.params, ls⟩ ≤ bitOff then -1
      else E.xlate l.virt ⟨l.offset, l.params, ls⟩ bitOff

/-- `fsl_virt_get_nth` -/
def virtGetNth (clo : Closure) (idx : UInt32) : M V UInt64 := do
  match (← view clo).layers with
  | [] => throw Stop.fault
  | l :: ls => return E.getNth l.virt ⟨l.offset, l.params, ls⟩ idx

/-- `ti_phys_offset` -/
def tiPhysOffset (t : ℕ) : M V UInt64 := do
  let x ← readTi t
  match x.td.clo.xlate with
  | none => return x.td.clo.offset
  | some _ => virtXlate E x.td.clo x.td.clo.offset

/-- The loop of `ti_has_loop`. -/
def loopFrom (poff : UInt64) (typenum : UInt32) : ℕ → Option ℕ → M V Bool
  | _, none => return false
  | 0, some _ => throw Stop.fault
  | k + 1, some c => do
    let x ← readTi c
    if (← tiPhysOffset E c) = poff ∧ x.td.typenum = typenum then return true
    loopFrom poff typenum k x.prev

/-- `ti_has_loop` -/
def tiHasLoop (t : ℕ) : M V Bool := do
  let x ← readTi t
  match x.prev with
  | none => return false
  | some p => do
    let poff ← tiPhysOffset E t
    loopFrom E poff x.td.typenum (← get).next (some p)

/-- `typeinfo_verify_asserts` -/
def verifyAsserts (t : ℕ) : M V Bool := do
  let x ← readTi t
  if x.td.typenum = typenumInvalid then return true
  return E.asserts x.td.typenum (← view x.td.clo)

/-- `typeinfo_verify` -/
def verify (t : ℕ) : M V Bool := do
  if ← tiHasLoop E t then return false
  verifyAsserts E t

/-! ## Mappings -/

/-- `fsl_virt_ref` on a closure with this mapping. -/
def virtRef : Option ℕ → M V (Option ℕ)
  | none => return none
  | some r => do
    let rtm ← readRtm r
    writeRtm r { rtm with refC := rtm.refC + 1 }
    return some r

/-- `fsl_virt_ref_all` on the closure of a type info. -/
def virtRefAll : ℕ → ℕ → M V Unit
  | 0, _ => throw Stop.fault
  | k + 1, t => do
    let x ← readTi t
    match x.td.clo.xlate with
    | none => return ()
    | some r => do
      let _ ← virtRef (some r)
      virtRefAll k (← readRtm r).clo

mutual

/-- `fsl_virt_unref` on a closure with this mapping. -/
def virtUnref : ℕ → Option ℕ → M V Unit
  | _, none => return ()
  | 0, some _ => throw Stop.fault
  | k + 1, some r => do
    let rtm ← readRtm r
    if rtm.refC = 1 then virtFree k r
    else writeRtm r { rtm with refC := rtm.refC - 1 }

/-- `fsl_virt_free` -/
def virtFree : ℕ → ℕ → M V Unit
  | 0, _ => throw Stop.fault
  | k + 1, r => do
    let rtm ← readRtm r
    fslAssert (rtm.refC = 1)
    virtUnrefAll k rtm.clo
    freeRtm r

/-- `fsl_virt_unref_all` on the closure of a type info. The mapping is read after it was released. -/
def virtUnrefAll : ℕ → ℕ → M V Unit
  | 0, _ => throw Stop.fault
  | k + 1, t => do
    let x ← readTi t
    match x.td.clo.xlate with
    | none => return ()
    | some r => do
      virtUnref k (some r)
      virtUnrefAll k (← readRtm r).clo

end

/-- `fsl_virt_alloc` on the closure of a type info; a mapping is empty or not allowed to be one that
the parent is in already. -/
def virtAlloc (t : ℕ) (v : V) : M V (Option ℕ) := do
  let r ← allocRtm ⟨t, v, 1⟩
  virtRefAll (← get).next t
  let parent := (← readTi t).td.clo
  let w ← view parent
  if E.loadCache v w = false then
    virtFree ((← get).next + 1) r
    return none
  match parent.xlate with
  | none => return some r
  | some _ => do
    if (← virtXlate E parent 0) = E.xlate v w 0 then
      virtFree ((← get).next + 1) r
      return none
    return some r

/-! ## Type infos -/

/-- `typeinfo_ref` -/
def typeinfoRef (t : ℕ) : M V Unit := do
  let x ← readTi t
  writeTi t { x with refC := x.refC + 1 }

/-- `typeinfo_unref` -/
def typeinfoUnref (t : ℕ) : M V ℕ := do
  let x ← readTi t
  fslAssert (0 < x.refC)
  writeTi t { x with refC := x.refC - 1 }
  return x.refC - 1

/-- `typeinfo_free` -/
def typeinfoFree : ℕ → ℕ → M V Unit
  | 0, _ => throw Stop.fault
  | k + 1, t => do
    if (← typeinfoUnref t) ≠ 0 then return ()
    let x ← readTi t
    virtUnref ((← get).next + 2) x.td.clo.xlate
    writeTi t { x with td := { x.td with clo := { x.td.clo with xlate := none } } }
    match x.prev with
    | none => freeTi t
    | some p => do
      typeinfoFree k p
      freeTi t

/-- `typeinfo_alloc_generic` -/
def allocGeneric (td : Desc) (prev : Option ℕ) : M V (Option ℕ) := do
  if ¬ td.clo.offset < E.bdevBits then return none
  let params := if td.typenum = typenumInvalid then [] else td.clo.params.take (E.paramC td.typenum)
  let xlate ← virtRef td.clo.xlate
  let t ← allocTi ⟨⟨td.typenum, ⟨td.clo.offset, params, xlate⟩⟩, prev, 1⟩
  match prev with
  | none => return some t
  | some p => do
    typeinfoRef p
    return some t

/-- The end of every allocation: a type info that does not verify is freed again. -/
def verified (t : ℕ) : M V (Option ℕ) := do
  if ← verify E t then return some t
  typeinfoFree (← get).next t
  return none

/-- `typeinfo_alloc_pointsto` -/
def allocPointsto (td : Desc) (prev : ℕ) : M V (Option ℕ) := do
  match ← allocGeneric E td (some prev) with
  | none => return none
  | some t => verified E t

/-- `typeinfo_alloc_iter` -/
def allocIter (td : Desc) (prev : ℕ) : M V (Option ℕ) := do
  match ← allocGeneric E td (some prev) with
  | none => return none
  | some t => verified E t

/-- The address space that `typeinfo_alloc_by_field` takes over from the parent. -/
def inheritXlate (t : ℕ) : Option ℕ → M V Unit
  | none => return ()
  | some p => do
    match (← readTi p).td.clo.xlate with
    | none => return ()
    | some r => do
      let xlate ← virtRef (some r)
      let x ← readTi t
      writeTi t { x with td := { x.td with clo := { x.td.clo with xlate := xlate } } }

/-- `typeinfo_alloc_by_field` -/
def allocByField (td : Desc) (prev : Option ℕ) : M V (Option ℕ) := do
  match ← allocGeneric E td prev with
  | none => return none
  | some t => do
    inheritXlate t prev
    verified E t

/-- `typeinfo_alloc_virt_idx` from where it has a mapping. -/
def allocInVirt (v : V) (prev : ℕ) (r : ℕ) (off : UInt64) : M V (Option ℕ) := do
  let clo : Closure := ⟨off, [], some r⟩
  if ¬ (← virtXlateSafe E clo off) < E.bdevBits then
    virtFree ((← get).next + 1) r
    return none
  match ← allocGeneric E ⟨E.virttype v, clo⟩ (some prev) with
  | none => do
    virtFree ((← get).next + 1) r
    return none
  | some t => do
    -- the mapping is referred to twice, by its allocation and by the type info
    virtUnref ((← get).next + 2) (← readTi t).td.clo.xlate
    verified E t

/-- `typeinfo_alloc_virt_idx`. Its assertions on offsets are left out: where one fails the process ends
here, and no call follows. -/
def allocVirtIdx (v : V) (prev : ℕ) (idx : UInt32) : M V (Option ℕ) := do
  match ← virtAlloc E prev v with
  | none => return none
  | some r => do
    if idx = 0 then allocInVirt E v prev r 0
    else
      let off ← virtGetNth E ⟨0, [], some r⟩ idx
      if (-2 : UInt64) ≤ off then
        virtFree ((← get).next + 1) r
        return none
      allocInVirt E v prev r off

end Fsl.TypeInfo
