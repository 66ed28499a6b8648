import Fsl.Runtime.ArrayLookup
import Fsl.Runtime.TypeInfoHolders

/-!
# Nodes in memory

`runtime/bridge.c` gives the browsers nodes that refer to type infos. A node is memory that is allocated
and freed, and it holds one reference to each of the type infos it points to. `Client` is code that
works on nodes and type infos.
-/

namespace Fsl.Nodes

open TypeInfo ArrayLookup Children

variable {V : Type}

/-! ## The tables of the types -/

/-- `struct fsl_rtt_field`. `constWidth` is whether one of `FIELD_FL_CONSTSIZE` and `FIELD_FL_FIXED` is
set, `arrayBits` is `__computeArrayBits` on the field. -/
structure Field (V : Type) where
  fieldname : List UInt8
  typenum : UInt32
  constWidth : Bool
  fieldbitoff : View V → UInt64
  elemcount : View V → UInt64
  typesize : View V → UInt64
  cond : Option (View V → Bool)
  params : View V → UInt64 → List UInt64
  arrayBits : View V → UInt64 → UInt64

/-- `struct fsl_rt_iter`. `range` is `it_range`: the offset, the parameters, and of which of the type
infos on the way to the origin the mapping is, if any. -/
structure Iter (V : Type) where
  typeDst : UInt32
  range : View V → UInt64 → UInt64 × List UInt64 × Option ℕ
  itMin : View V → UInt64
  itMax : View V → UInt64

/-- `iter_is_ok` -/
def Iter.isOk (it : Iter V) (w : View V) : Bool :=
  decide (it.itMin w ≠ -1 ∧ ¬ it.itMax w < it.itMin w)

/-- `struct fsl_rtt_pointsto` -/
structure PointsTo (V : Type) where
  iter : Iter V
  name : Option (List UInt8)

/-- The tables of a file system on a disk, and the bytes of the disk. -/
structure Tables (V : Type) extends Env V where
  originTypenum : UInt32
  fieldTable : UInt32 → List (Field V)
  fieldall : UInt32 → List (Field V)
  pointsto : UInt32 → List (PointsTo V)
  virts : UInt32 → List V
  vtIter : V → Iter V
  vtName : V → Option (List UInt8)
  ttSize : UInt32 → View V → UInt64
  readBytes : UInt64 → ℕ → List UInt8

namespace Tables

variable (E : Tables V)

/-- `fsl_lookup_field` -/
def lookupField (tt : UInt32) (fname : List UInt8) : Option (Field V) :=
  (E.fieldTable tt).find? fun tf => decide (tf.fieldname = fname)

/-- `fsl_lookup_points` -/
def lookupPoints (tt : UInt32) (fname : List UInt8) : Option (PointsTo V) :=
  (E.pointsto tt).find? fun pt => decide (pt.name = some fname)

/-- `fsl_lookup_virt` -/
def lookupVirt (tt : UInt32) (fname : List UInt8) : Option V :=
  (E.virts tt).find? fun vt => decide (E.vtName vt = some fname)

/-- `fsl_lookup_has` -/
def lookupHas (tt : UInt32) (fname : List UInt8) : Bool :=
  (E.lookupField tt fname).isSome || (E.lookupPoints tt fname).isSome || (E.lookupVirt tt fname).isSome

end Tables

/-! ## Memory -/

/-- `struct fsl_bridge_node`, by which of its pointers are set; `blank` is how `fbn_alloc` leaves it. -/
inductive Node (V : Type)
  | blank
  | type (ti : ℕ)
  | prim (parent : ℕ) (field : Field V) (ti : ℕ)
  | arrayPrim (parent : ℕ) (field : Field V) (max : UInt64)
  | arrayField (parent : ℕ) (field : Field V) (max : UInt64)
  | arrayPt (parent : ℕ) (pt : PointsTo V) (max : UInt64)
  | arrayVt (parent : ℕ) (vt : V) (max : UInt64)

namespace Node

/-- `fbn_ti` -/
def ti : Node V → Option ℕ
  | .type t => some t
  | _ => none

/-- `fbn_arr_parent` -/
def arrParent : Node V → Option ℕ
  | .arrayPrim p _ _ | .arrayField p _ _ | .arrayPt p _ _ | .arrayVt p _ _ => some p
  | _ => none

/-- `fbn_arr_max` -/
def arrMax : Node V → UInt64
  | .arrayPrim _ _ m | .arrayField _ _ m | .arrayPt _ _ m | .arrayVt _ _ m => m
  | _ => 0

/-- `fbn_f_parent` -/
def fParent : Node V → Option ℕ
  | .prim p _ _ => some p
  | _ => none

/-- `fbn_prim_ti` -/
def primTi : Node V → Option ℕ
  | .prim _ _ t => some t
  | _ => none

/-- `fbn_is_array_prim` -/
def isArrayPrim : Node V → Bool
  | .arrayPrim _ _ _ => true
  | _ => false

end Node

/-- The type infos and mappings, the nodes, and the number of buffers for names. -/
structure Mem (V : Type) where
  heap : Heap V
  node : ℕ → Option (Node V)
  next : ℕ
  nameBufs : ℕ

/-- Why code stops: an assertion fails, it follows a null pointer or one to memory that is not allocated,
or a loop is not through with its turns. -/
inductive Fail
  | assertion
  | null
  | freed
  | turns
  deriving DecidableEq

abbrev Client (V : Type) := StateT (Mem V) (Except Fail)

def fail {α : Type} (e : Fail) : Client V α := fun _ => .error e

/-- Code of `type_info.c` and `virt.c`. -/
def onHeap {α : Type} (c : M V α) : Client V α := fun m =>
  match c m.heap with
  | .ok (a, h) => .ok (a, { m with heap := h })
  | .error .assertion => .error .assertion
  | .error .fault => .error .freed

/-- `FSL_ASSERT (p)` -/
def check (p : Prop) [Decidable p] : Client V Unit := if p then pure () else fail .assertion

/-- `fbn_alloc`, where `fsl_alloc` does not fail. -/
def fbnAlloc : Client V ℕ := fun m =>
  .ok (m.next, { m with node := Function.update m.node m.next (some .blank), next := m.next + 1 })

def readNode (a : ℕ) : Client V (Node V) := fun m =>
  match m.node a with
  | none => .error .freed
  | some n => .ok (n, m)

def writeNode (a : ℕ) (n : Node V) : Client V Unit := fun m =>
  match m.node a with
  | none => .error .freed
  | some _ => .ok ((), { m with node := Function.update m.node a (some n) })

/-- `fsl_free` on a node -/
def freeNode (a : ℕ) : Client V Unit := fun m =>
  match m.node a with
  | none => .error .freed
  | some _ => .ok ((), { m with node := Function.update m.node a none })

/-! ## Type infos -/

variable (E : Tables V)

/-- `ti_typenum` -/
def tiTypenum (t : ℕ) : Client V UInt32 := onHeap do
  return (← readTi t).td.typenum

/-- What compiled code reads of `ti_clo`. -/
def tiClo (t : ℕ) : Client V (View V) := onHeap do
  view (← readTi t).td.clo

/-- `typeinfo_ref` -/
def tiRef (t : ℕ) : Client V Unit := onHeap (typeinfoRef t)

/-- `typeinfo_free` -/
def tiFree (t : ℕ) : Client V Unit := onHeap do
  typeinfoFree (← get).next t

/-- `ti_field_off` -/
def tiFieldOff (t : ℕ) (tf : Field V) (idx : UInt32) : Client V UInt64 := do
  let w ← tiClo t
  let fieldSz :=
    if 0 < idx ∧ tf.typenum ≠ typenumInvalid ∧ tf.constWidth = false then tf.arrayBits w idx.toUInt64
    else if 0 < idx then tf.typesize w * idx.toUInt64
    else 0
  return fieldSz + tf.fieldbitoff w

/-- `ti_field_size` -/
def tiFieldSize (t : ℕ) (tf : Field V) : Client V UInt64 := do
  let w ← tiClo t
  let numElems := tf.elemcount w
  if 1 < numElems ∧ tf.typenum ≠ typenumInvalid ∧ tf.constWidth = false then
    return tf.arrayBits w numElems
  else return tf.typesize w * numElems

/-- `typeinfo_alloc_origin` -/
def allocOrigin : Client V (Option ℕ) :=
  onHeap (allocByField E.toEnv ⟨E.originTypenum, ⟨0, [], none⟩⟩ none)

/-- `typeinfo_follow_field_off_idx` -/
def followFieldOffIdx (t : ℕ) (tf : Field V) (off idx : UInt64) : Client V (Option ℕ) := do
  let w ← tiClo t
  onHeap (allocByField E.toEnv ⟨tf.typenum, ⟨off, tf.params w idx, none⟩⟩ (some t))

/-- `typeinfo_follow_field_idx` -/
def followFieldIdx (t : ℕ) (tf : Field V) (idx : UInt64) : Client V (Option ℕ) := do
  followFieldOffIdx E t tf (← tiFieldOff t tf idx.toUInt32) idx

/-- `typeinfo_follow_field` -/
def followField (t : ℕ) (tf : Field V) : Client V (Option ℕ) := do
  let w ← tiClo t
  if tf.cond.map (fun c => c w) = some false then return none
  followFieldOffIdx E t tf (tf.fieldbitoff w) 0

/-- The mapping of the type info that is `k` steps nearer to the origin. -/
def chainXlate : ℕ → ℕ → M V (Option ℕ)
  | 0, t => do return (← readTi t).td.clo.xlate
  | k + 1, t => do
    match (← readTi t).prev with
    | none => return none
    | some p => chainXlate k p

/-- `typeinfo_follow_pointsto` -/
def followPointsto (t : ℕ) (pt : PointsTo V) (idx : UInt64) : Client V (Option ℕ) := do
  let w ← tiClo t
  if pt.iter.isOk w = false then return none
  let r := pt.iter.range w idx
  check (r.1 < -2)
  onHeap do
    let xlate ← match r.2.2 with
      | none => pure none
      | some k => chainXlate k t
    allocPointsto E.toEnv ⟨pt.iter.typeDst, ⟨r.1, r.2.1, xlate⟩⟩ t

/-- `typeinfo_alloc_virt_idx` from where it has a mapping, with `*err_code`, which is still `TI_ERR_OK`
where the offset is not on the disk. -/
def allocInVirtErr (v : V) (prev : ℕ) (r : ℕ) (off : UInt64) : M V (Option ℕ × TiErr) := do
  let clo : Closure := ⟨off, [], some r⟩
  if ¬ (← virtXlateSafe E.toEnv clo off) < E.bdevBits then
    virtFree ((← get).next + 1) r
    return (none, .ok)
  match ← allocGeneric E.toEnv ⟨E.virttype v, clo⟩ (some prev) with
  | none => do
    virtFree ((← get).next + 1) r
    return (none, .badAlloc)
  | some t => do
    virtUnref ((← get).next + 2) (← readTi t).td.clo.xlate
    let res ← verified E.toEnv t
    return (res, if res.isSome then .ok else .badVerify)

/-- `typeinfo_alloc_virt_idx` with `*err_code`. -/
def allocVirtIdxErr (v : V) (prev : ℕ) (idx : UInt32) : M V (Option ℕ × TiErr) := do
  match ← virtAlloc E.toEnv prev v with
  | none => return (none, .badVirt)
  | some r => do
    if idx = 0 then allocInVirtErr E v prev r 0
    else
      let off ← virtGetNth E.toEnv ⟨0, [], some r⟩ idx
      if (-2 : UInt64) ≤ off then
        virtFree ((← get).next + 1) r
        return (none, .badIdx)
      allocInVirtErr E v prev r off

/-- `typeinfo_follow_virt` -/
def followVirt (t : ℕ) (vt : V) (idx : UInt32) : Client V (Option ℕ × TiErr) :=
  onHeap (allocVirtIdxErr E vt t idx)

/-- `typeinfo_lookup_follow_direct` -/
def lookupFollowDirect (t : ℕ) (fieldname : List UInt8) : Client V (Option ℕ) := do
  let tt ← tiTypenum t
  match E.lookupField tt fieldname with
  | some tf =>
    if tf.typenum = typenumInvalid then return none
    let w ← tiClo t
    if tf.cond.map (fun c => c w) = some false then return none
    followFieldIdx E t tf 0
  | none =>
    match E.lookupPoints tt fieldname with
    | some pt => do
      let w ← tiClo t
      followPointsto E t pt (0 + pt.iter.itMin w)
    | none =>
      match E.lookupVirt tt fieldname with
      | some vt => return (← followVirt E t vt 0).1
      | none => return none

/-- `ti_size` of an instance of a user type -/
def tiSize (t : ℕ) : Client V UInt64 := do
  return E.ttSize (← tiTypenum t) (← tiClo t)

/-- The string `"name"`. -/
def nameField : List UInt8 := [110, 97, 109, 101]

/-- `typeinfo_getname` with a buffer of `len` bytes -/
def getname (t : ℕ) (len : ℕ) : Client V (Option (List UInt8)) := do
  match ← lookupFollowDirect E t nameField with
  | none => return none
  | some nameTi => do
    let srcSz := ((← tiSize E nameTi) + 7) / 8
    let phys ← onHeap (tiPhysOffset E.toEnv nameTi)
    let buf := E.readBytes (phys / 8) (min srcSz.toNat (len - 1))
    tiFree nameTi
    return some (cString buf)

/-- `fsl_alloc` of a `name_buf` -/
def nameBufAlloc : Client V Unit := fun m => .ok ((), { m with nameBufs := m.nameBufs + 1 })

/-- `fsl_free` of a `name_buf` -/
def nameBufFree : Client V Unit := fun m => .ok ((), { m with nameBufs := m.nameBufs - 1 })

/-- The loops of `typeinfo_follow_name_tf`, `typeinfo_follow_name_pt` and `typeinfo_follow_name_vt`:
what is followed has to be in range, and only the last one stops at an error. -/
def searchName (inRange : UInt64 → Bool) (follow : UInt64 → Client V (Option ℕ × TiErr))
    (name : List UInt8) : ℕ → UInt64 → Client V (Option ℕ)
  | 0, _ => fail .turns
  | turns + 1, idx => do
    if inRange idx = false then return none
    let r ← follow idx
    match r.1 with
    | none =>
      if r.2 = .ok ∨ r.2 = .badVerify then searchName inRange follow name turns (idx + 1)
      else return none
    | some ret => do
      if (← getname E ret 255) = some name then return some ret
      else
        tiFree ret
        searchName inRange follow name turns (idx + 1)

/-- `typeinfo_follow_name_tf`. It leaves `name_buf` behind where the elements have no name, and so do the
other two. -/
def followNameTf (turns : ℕ) (t : ℕ) (tf : Field V) (name : List UInt8) : Client V (Option ℕ) := do
  nameBufAlloc
  if tf.typenum = typenumInvalid then return none
  if E.lookupHas tf.typenum nameField = false then return none
  let maxIdx := tf.elemcount (← tiClo t)
  let ret ← searchName E (fun idx => decide (idx ≤ maxIdx))
    (fun idx => do return (← followFieldIdx E t tf idx, .ok)) name turns 0
  nameBufFree
  return ret

/-- `typeinfo_follow_name_pt` -/
def followNamePt (turns : ℕ) (t : ℕ) (pt : PointsTo V) (name : List UInt8) : Client V (Option ℕ) := do
  nameBufAlloc
  if E.lookupHas pt.iter.typeDst nameField = false then return none
  let w ← tiClo t
  if pt.iter.itMin w = -1 then
    nameBufFree
    return none
  let maxIdx := pt.iter.itMax w
  let ret ← searchName E (fun idx => decide (idx ≤ maxIdx))
    (fun idx => do return (← followPointsto E t pt idx, .ok)) name turns (pt.iter.itMin w)
  nameBufFree
  return ret

/-- `typeinfo_follow_name_vt` -/
def followNameVt (turns : ℕ) (t : ℕ) (vt : V) (name : List UInt8) : Client V (Option ℕ) := do
  nameBufAlloc
  if E.lookupHas (E.virttype vt) nameField = false then return none
  let w ← tiClo t
  if (E.vtIter vt).itMin w = -1 then
    nameBufFree
    return none
  let ret ← searchName E (fun _ => true) (fun idx => followVirt E t vt idx.toUInt32) name turns
    ((E.vtIter vt).itMin w)
  nameBufFree
  return ret

/-! ## Nodes -/

/-- `fsl_bridge_from_ti` -/
def bridgeFromTi (t : ℕ) : Client V ℕ := do
  check ((← tiTypenum t) ≠ typenumInvalid)
  let fbn ← fbnAlloc
  writeNode fbn (.type t)
  return fbn

/-- `fsl_bridge_free` -/
def bridgeFree (fbn : ℕ) : Client V Unit := do
  let n ← readNode fbn
  (n.ti.toList ++ n.fParent.toList ++ n.arrParent.toList ++ n.primTi.toList).forM tiFree
  freeNode fbn

/-- `fsl_bridge_follow_tf` -/
def bridgeFollowTf (tiP : ℕ) (tf : Field V) : Client V (Option ℕ) := do
  let w ← tiClo tiP
  if tf.cond.map (fun c => c w) = some false then return none
  let elems := tf.elemcount w
  if elems = 0 then return none
  if elems = 1 then
    match ← followField E tiP tf with
    | none => return none
    | some ti => do
      let fbn ← fbnAlloc
      if tf.typenum = typenumInvalid then
        tiRef tiP
        writeNode fbn (.prim tiP tf ti)
      else writeNode fbn (.type ti)
      return some fbn
  else
    let fbn ← fbnAlloc
    tiRef tiP
    if tf.typenum = typenumInvalid then writeNode fbn (.arrayPrim tiP tf elems)
    else writeNode fbn (.arrayField tiP tf elems)
    return some fbn

/-- `fsl_bridge_follow_name`; `fbn_arr_max` of a node of a virtual type stays `~0`. -/
def bridgeFollowName (tiP : ℕ) (childPath : List UInt8) : Client V (Option ℕ) := do
  let tt ← tiTypenum tiP
  match E.lookupField tt childPath with
  | some tf => bridgeFollowTf E tiP tf
  | none => do
    let fbn ← fbnAlloc
    match E.lookupPoints tt childPath with
    | some pt => do
      let w ← tiClo tiP
      let ptMin := pt.iter.itMin w
      let ptMax := pt.iter.itMax w
      if ptMin = -1 ∨ ptMax < ptMin then
        freeNode fbn
        return none
      tiRef tiP
      writeNode fbn (.arrayPt tiP pt (ptMax - ptMin + 1))
      return some fbn
    | none =>
      match E.lookupVirt tt childPath with
      | some vt => do
        tiRef tiP
        writeNode fbn (.arrayVt tiP vt (-1))
        return some fbn
      | none => do
        freeNode fbn
        return none

/-- What `fsl_bridge_idx_into` follows. -/
def followElem (n : Node V) (idx : UInt32) : Client V (Option ℕ × TiErr) :=
  match n with
  | .arrayField p tf _ => do return (← followFieldIdx E p tf idx.toUInt64, .ok)
  | .arrayPt p pt _ => do
    let w ← tiClo p
    return (← followPointsto E p pt (idx.toUInt64 + pt.iter.itMin w), .ok)
  | .arrayVt p vt _ => followVirt E p vt idx
  | .arrayPrim _ _ _ => return (none, .ok)
  | _ => fail .assertion

/-- `fsl_bridge_idx_into`, with `*err` -/
def bridgeIdxInto (fbn : ℕ) (idx : UInt32) : Client V (Option ℕ × TiErr) := do
  let n ← readNode fbn
  check (n.arrParent.isSome)
  if n.arrMax ≤ idx.toUInt64 then return (none, .badIdx)
  let r ← followElem E n idx
  match r.1 with
  | none => return (none, r.2)
  | some ti => do
    let new ← fbnAlloc
    writeNode new (.type ti)
    return (some new, r.2)

/-- `fsl_bridge_follow_name` on `ti_by_fbn` -/
def followNameOf (fbn : ℕ) (childPath : List UInt8) : Client V (Option ℕ) := do
  match (← readNode fbn).ti with
  | none => fail .null
  | some t => bridgeFollowName E t childPath

/-- `fsl_bridge_fbn_follow_name`. The node of the first element is that of a type, so that the call on it
takes the second way. -/
def bridgeFbnFollowName (fbn : ℕ) (childPath : List UInt8) : Client V (Option ℕ) := do
  let n ← readNode fbn
  if n.arrParent.isSome then
    match (← bridgeIdxInto E fbn 0).1 with
    | none => return none
    | some tmp => do
      let ret ← followNameOf E tmp childPath
      bridgeFree tmp
      return ret
  else followNameOf E fbn childPath

/-- What `fsl_bridge_follow_pretty_name` searches. -/
def searchElem (turns : ℕ) (n : Node V) (prettyName : List UInt8) : Client V (Option ℕ) :=
  match n with
  | .arrayField p tf _ => followNameTf E turns p tf prettyName
  | .arrayPt p pt _ => followNamePt E turns p pt prettyName
  | .arrayVt p vt _ => followNameVt E turns p vt prettyName
  | _ => return none

/-- `fsl_bridge_follow_pretty_name` -/
def bridgeFollowPrettyName (turns : ℕ) (fbn : ℕ) (prettyName : List UInt8) : Client V (Option ℕ) := do
  match ← searchElem E turns (← readNode fbn) prettyName with
  | none => return none
  | some retTi => return some (← bridgeFromTi retTi)

/-- `fbn_bytes`. A primitive type has a constant size, which `ti_size` asks for without a closure. -/
def fbnBytes (fbn : ℕ) : Client V UInt64 := do
  match ← readNode fbn with
  | .type t => return (← tiSize E t) / 8
  | .prim _ tf t => do
    let _ ← tiTypenum t
    return tf.typesize ⟨0, [], []⟩ / 8
  | .arrayField p tf _ | .arrayPrim p tf _ => return (← tiFieldSize p tf) / 8
  | _ => return 0

/-- `sprintf("%d", i)` of an `unsigned int` -/
def sprintfD (i : UInt32) : List UInt8 :=
  if i.toNat < 2 ^ 31 then decimal i.toNat else 45 :: decimal (2 ^ 32 - i.toNat)

/-- A file system on 512 bytes whose origin has one field, the byte `n`. -/
def oneByte : Tables Unit where
  bdevBits := 4096
  paramC := fun _ => 0
  asserts := fun _ _ => true
  virttype := fun _ => 7
  loadCache := fun _ _ => true
  totalBits := fun _ _ => 512
  xlate := fun _ w off => w.offset + 1024 + off
  getNth := fun _ _ idx => 64 * idx.toUInt64
  originTypenum := 0
  fieldTable := fun _ => [⟨[110], typenumInvalid, true, fun w => w.offset, fun _ => 1, fun _ => 8, none,
    fun _ _ => [], fun _ n => 8 * n⟩]
  fieldall := fun _ => [⟨[110], typenumInvalid, true, fun w => w.offset, fun _ => 1, fun _ => 8, none,
    fun _ _ => [], fun _ n => 8 * n⟩]
  pointsto := fun _ => []
  virts := fun _ => []
  vtIter := fun _ => ⟨7, fun _ _ => (0, [], none), fun _ => -1, fun _ => 0⟩
  vtName := fun _ => none
  ttSize := fun _ _ => 4096
  readBytes := fun _ n => List.replicate n 0

end Fsl.Nodes
