import Fsl.Runtime.Fuse
import Fsl.Runtime.NodesMemory
import Fsl.Tool.FuseNode

/-!
# Sessions of the FUSE browser

`tool/fuse-browser.c` serves one request after the other. Between requests it keeps the node of each file
that is open; all that it makes besides is freed before it replies, so that the memory is exactly that of
the open files.
-/

namespace Fsl.FuseBrowser

open Nodes FuseNode ArrayLookup Owned Children

variable {V : Type}

/-- What is filled in of a `struct stat`. -/
structure Stat where
  mode : UInt32
  nlink : ℕ
  size : UInt64
  blksize : ℕ

/-- `-ENOENT`, 0, the attributes, the names that were passed to the filler, or a number of bytes. -/
inductive Reply
  | noent
  | done
  | attr (st : Stat)
  | names (l : List (List UInt8))
  | size (n : UInt64)

/-- `S_IFDIR | 0500` -/
def dirMode : UInt32 := 0o040500

/-- `S_IFREG | 0600` -/
def regMode : UInt32 := 0o100600

variable (E : Tables V) (turns : ℕ)

/-- `fslfuse_getattr_fn` -/
def getattrFn (fbn : ℕ) : Client V Stat := do
  match ← readNode fbn with
  | .type t => return ⟨dirMode, 2, (← tiSize E t) / 8, 512⟩
  | .prim _ _ _ | .arrayPrim _ _ _ => return ⟨regMode, 1, ← fbnBytes E fbn, 512⟩
  | .arrayField _ _ _ | .arrayPt _ _ _ | .arrayVt _ _ _ => return ⟨dirMode, 2, ← fbnBytes E fbn, 512⟩
  | .blank => fail .assertion

/-- `fslfuse_getattr` -/
def getattr (path : List UInt8) : Client V Reply := do
  if path = [slash] then return .attr ⟨0o040755, 2, 0, 0⟩
  match ← fslnodeByPath E turns path with
  | none => return .noent
  | some fbn => do
    let ret ← getattrFn E fbn
    bridgeFree fbn
    return .attr ret

/-- `fslfuse_fgetattr` -/
def fgetattr (fh : ℕ) : Client V Reply := do
  return .attr (← getattrFn E fh)

/-- The names `.` and `..`. -/
def dots : List (List UInt8) := [[46], [46, 46]]

/-- `read_ti_dir` -/
def readTiDir (t : ℕ) : Client V (List (List UInt8)) := do
  let tt ← tiTypenum t
  let w ← tiClo t
  let fields := (E.fieldall tt).filterMap fun tf =>
    if tf.cond.map (fun c => c w) = some false then none else some tf.fieldname
  let points := (E.pointsto tt).filterMap fun pt => if pt.iter.isOk w then pt.name else none
  let virts := (E.virts tt).filterMap fun vt => if (E.vtIter vt).isOk w then E.vtName vt else none
  return dots ++ fields ++ points ++ virts

/-- `ao_elems` of an array -/
def aoElems (n : Node V) : Client V UInt64 :=
  match n with
  | .arrayField p tf _ => do return tf.elemcount (← tiClo p)
  | .arrayPt p pt _ => do
    let w ← tiClo p
    let itMin := pt.iter.itMin w
    if itMin = -1 then return 0
    let itMax := pt.iter.itMax w
    if itMax < itMin then return 0
    return itMax - itMin + 1
  | _ => return -1

/-- `ao_get` of an array; `none` is `TYPEINFO_NOMORE`. -/
def aoGet (n : Node V) (i : UInt32) : Client V (Option (Option ℕ)) :=
  match n with
  | .arrayField p tf _ => do
    let off ← tiFieldOff p tf i
    return some (← followFieldOffIdx E p tf off i.toUInt64)
  | .arrayPt p pt _ => do
    let itMin := pt.iter.itMin (← tiClo p)
    if itMin = -1 then return some none
    return some (← followPointsto E p pt (i.toUInt64 + itMin))
  | .arrayVt p vt _ => do
    let r ← followVirt E p vt i
    match r.1 with
    | some t => return some (some t)
    | none => if r.2 = .badVerify then return some none else return none
  | _ => return none

/-- The loop of `read_array_dir` from `i` on, and the names that have been passed to the filler. -/
def readArrayLoop (n : Node V) (elemC : UInt64) :
    ℕ → UInt32 → List (List UInt8) → Client V (List (List UInt8))
  | 0, _, _ => fail .turns
  | turns + 1, i, names => do
    if ¬ i.toUInt64 < elemC then return names
    match ← aoGet E n i with
    | none => return names
    | some none => readArrayLoop n elemC turns (i + 1) names
    | some (some t) => do
      let name := (← getname E t 256).getD (sprintfD i)
      tiFree t
      readArrayLoop n elemC turns (i + 1) (names ++ [name])

/-- `fslfuse_readdir` -/
def readdir (fh : ℕ) : Client V Reply := do
  let n ← readNode fh
  match n with
  | .type t => return .names (← readTiDir E t)
  | .arrayField _ _ _ | .arrayPt _ _ _ | .arrayVt _ _ _ =>
    return .names (← readArrayLoop E n (← aoElems n) turns 0 dots)
  | _ => return .noent

/-- `fslfuse_opendir` -/
def opendir (path : List UInt8) : Client V (Reply × Option ℕ) := do
  match ← fslnodeByPath E turns path with
  | none => return (.noent, none)
  | some fbn => do
    if (← readNode fbn).fParent.isSome then
      bridgeFree fbn
      return (.noent, none)
    return (.done, some fbn)

/-- `fslfuse_open` -/
def openFile (path : List UInt8) : Client V (Reply × Option ℕ) := do
  match ← fslnodeByPath E turns path with
  | none => return (.noent, none)
  | some fbn => do
    let n ← readNode fbn
    if n.fParent.isNone ∧ n.isArrayPrim = false then
      bridgeFree fbn
      return (.noent, none)
    return (.done, some fbn)

/-- `fslfuse_close` on an open file -/
def close (fh : ℕ) : Client V Reply := do
  bridgeFree fh
  return .done

/-- `fslfuse_prep_io`: the type info with `clo_off` and `len_out`, or what is replied. -/
def prepIo (fh : ℕ) (offset : UInt64) : Client V (Except Reply (ℕ × UInt64 × UInt64)) := do
  let n ← readNode fh
  if n.fParent.isNone ∧ n.isArrayPrim = false then return .error .noent
  let len ← fbnBytes E fh
  if len ≤ offset then return .error .done
  let ti ← match n with
    | .arrayPrim p tf _ => followFieldIdx E p tf 0
    | _ => pure n.primTi
  match ti with
  | none => fail .null
  | some ti => return .ok (ti, (← tiClo ti).offset, len)

/-- What `fslfuse_read` and `fslfuse_write` do on the memory: the bytes are read in the closure of the type
info or go to the write log. -/
def transfer (fh : ℕ) (size offset : UInt64) : Client V Reply := do
  match ← prepIo E fh offset with
  | .error r => return r
  | .ok (ti, _, len) => do
    let size := Fuse.clip len size offset
    if (← readNode fh).isArrayPrim then tiFree ti
    return .size size

/-- `fslfuse_read` -/
def read (fh : ℕ) (size offset : UInt64) : Client V Reply := transfer E fh size offset

/-- `fslfuse_write` -/
def write (fh : ℕ) (size offset : UInt64) : Client V Reply := transfer E fh size offset

/-- A request: of the operations that do nothing none is listed. -/
inductive Op
  | getattr (path : List UInt8)
  | fgetattr (fh : ℕ)
  | readdir (fh : ℕ)
  | opendir (path : List UInt8)
  | openFile (path : List UInt8)
  | read (fh : ℕ) (size offset : UInt64)
  | write (fh : ℕ) (size offset : UInt64)
  | release (fh : ℕ)

namespace Op

/-- The open file that a request is about. -/
def fh : Op → Option ℕ
  | .fgetattr a | .readdir a | .read a _ _ | .write a _ _ | .release a => some a
  | .getattr _ | .opendir _ | .openFile _ => none

/-- The reply, and the node of the file that is opened. -/
def run : Op → Client V (Reply × Option ℕ)
  | .getattr path => do return (← FuseBrowser.getattr E turns path, none)
  | .fgetattr a => do return (← FuseBrowser.fgetattr E a, none)
  | .readdir a => do return (← FuseBrowser.readdir E turns a, none)
  | .opendir path => FuseBrowser.opendir E turns path
  | .openFile path => FuseBrowser.openFile E turns path
  | .read a size offset => do return (← FuseBrowser.read E a size offset, none)
  | .write a size offset => do return (← FuseBrowser.write E a size offset, none)
  | .release a => do return (← close a, none)

/-- The files that are open afterwards. -/
def left (files : Multiset ℕ) (opened : Option ℕ) : Op → Multiset ℕ
  | .release a => files.erase a
  | _ => opened.elim files fun a => a ::ₘ files

end Op

/-- Memory after requests, and the files that are open. What is written changes the disk, and with it the
tables, and a request may be about any open file. -/
inductive Session : Mem V → Multiset ℕ → Prop
  | start : Session Mem.start 0
  | request {m m' : Mem V} {files : Multiset ℕ} {E : Tables V} {turns : ℕ} {op : Op}
      {r : Reply × Option ℕ} (hs : Session m files) (hfh : ∀ a, op.fh = some a → a ∈ files)
      (hrun : op.run E turns m = .ok (r, m')) : Session m' (op.left files r.2)

/-! ## What a request leaves -/

variable {E turns} {P : Multiset (Res V)} {a t : ℕ} {n : Node V}

theorem triple_getattrFn (hn : whole a n ≤ P) :
    Triple Owns Safe P (getattrFn E a) fun _ U => U = P := by
  refine triple_readNode (mem_of_whole hn) ?_
  cases n with
  | blank => exact .throw Fail.noConfusion
  | type t =>
    exact (triple_tiSize E (ref_of_whole hn List.mem_cons_self)).bind fun _ _ hU => .pure hU
  | _ => exact (triple_fbnBytes hn).bind fun _ _ hU => .pure hU

theorem triple_getattr (path : List UInt8) :
    Triple Owns Safe P (getattr E turns path) fun _ U => U = P := by
  unfold getattr
  split_ifs
  · exact .pure rfl
  · refine (triple_fslnodeByPath path).bind fun res U hU => ?_
    cases res with
    | none => exact .pure hU
    | some fbn =>
      obtain ⟨k, -, rfl⟩ := hU
      refine (triple_getattrFn (Multiset.le_add_right _ P)).bind_eq fun ret => ?_
      exact triple_bridgeFree.bind fun _ _ hU => .pure hU

theorem triple_readTiDir (ht : .ref t ∈ P) : Triple Owns Safe P (readTiDir E t) fun _ U => U = P := by
  refine (triple_tiTypenum ht).bind_eq fun tt => ?_
  exact (triple_tiClo ht).bind fun _ _ hU => .pure hU

theorem triple_aoElems (hn : whole a n ≤ P) : Triple Owns Safe P (aoElems n) fun _ U => U = P := by
  cases n with
  | arrayField p tf max =>
    exact (triple_tiClo (ref_of_whole hn List.mem_cons_self)).bind fun _ _ hU => .pure hU
  | arrayPt p pt max =>
    refine (triple_tiClo (ref_of_whole hn List.mem_cons_self)).bind fun w U hU => ?_
    dsimp only
    split_ifs <;> exact .pure hU
  | _ => exact .pure rfl

/-- An element is left that there is a reference to, if there is one. -/
theorem triple_aoGet (hn : whole a n ≤ P) (i : UInt32) :
    Triple Owns Safe P (aoGet E n i) fun res U => U = found P res.join := by
  cases n with
  | arrayField p tf max =>
    have hp : .ref p ∈ P := ref_of_whole hn List.mem_cons_self
    refine (triple_tiFieldOff hp tf i).bind_eq fun off => ?_
    exact (triple_followFieldOffIdx E hp tf off _).bind fun _ _ hU => .pure hU
  | arrayPt p pt max =>
    have hp : .ref p ∈ P := ref_of_whole hn List.mem_cons_self
    refine (triple_tiClo hp).bind_eq fun w => ?_
    dsimp only
    split_ifs
    · exact .pure rfl
    · exact (triple_followPointsto E Fail.noConfusion hp pt _).bind fun _ _ hU => .pure hU
  | arrayVt p vt max =>
    refine (triple_followVirt E (ref_of_whole hn List.mem_cons_self) vt i).bind_eq fun r => ?_
    obtain ⟨res, err⟩ := r
    cases res with
    | some t => exact .pure rfl
    | none =>
      dsimp only
      split_ifs <;> exact .pure rfl
  | _ => exact .pure rfl

theorem triple_readArrayLoop (hn : whole a n ≤ P) (elemC : UInt64) (turns : ℕ) (i : UInt32)
    (names : List (List UInt8)) :
    Triple Owns Safe P (readArrayLoop E n elemC turns i names) fun _ U => U = P := by
  induction turns generalizing i names with
  | zero => exact .throw Fail.noConfusion
  | succ turns ih =>
    rw [readArrayLoop]
    by_cases hi : i.toUInt64 < elemC
    · rw [if_neg (not_not.mpr hi)]
      refine (triple_aoGet hn i).bind_eq fun res => ?_
      cases res with
      | none => exact .pure rfl
      | some res =>
        cases res with
        | none => exact ih (i + 1) names
        | some t =>
          refine (triple_getname E Fail.noConfusion (Multiset.mem_cons_self _ _) 256).bind_eq fun name => ?_
          refine triple_tiFree.bind_eq fun _ => ?_
          exact ih (i + 1) _
    · rw [if_pos hi]
      exact .pure rfl

theorem triple_readdir (hn : whole a n ≤ P) :
    Triple Owns Safe P (readdir E turns a) fun _ U => U = P := by
  have harray : Triple Owns Safe P
      (do return Reply.names (← readArrayLoop E n (← aoElems n) turns 0 dots)) fun _ U => U = P :=
    (triple_aoElems hn).bind_eq fun elemC =>
      (triple_readArrayLoop hn elemC turns 0 dots).bind fun _ _ hU => .pure hU
  refine triple_readNode (mem_of_whole hn) ?_
  cases n with
  | blank | prim p tf t | arrayPrim p tf max => exact .pure rfl
  | type t =>
    exact (triple_readTiDir (ref_of_whole hn List.mem_cons_self)).bind fun _ _ hU => .pure hU
  | arrayField p tf max | arrayPt p pt max | arrayVt p vt max => exact harray

/-- A file that is not opened after all is freed. -/
theorem triple_openNode (refused : Node V → Prop) [DecidablePred refused] (path : List UInt8) :
    Triple Owns Safe P
      (do
        match ← fslnodeByPath E turns path with
        | none => return (.noent, none)
        | some fbn => do
          if refused (← readNode fbn) then
            bridgeFree fbn
            return (.noent, none)
          return (.done, some fbn) : Client V (Reply × Option ℕ))
      fun r U => Made P r.2 U := by
  refine (triple_fslnodeByPath path).bind fun res U hU => ?_
  cases res with
  | none => exact .pure hU
  | some fbn =>
    obtain ⟨k, hk, rfl⟩ := hU
    refine triple_readNode (mem_of_whole (Multiset.le_add_right _ P)) ?_
    split_ifs
    · exact triple_bridgeFree.bind_eq fun _ => .pure Made.none
    · exact .pure (Made.some hk)

theorem triple_opendir (path : List UInt8) :
    Triple Owns Safe P (opendir E turns path) fun r U => Made P r.2 U :=
  triple_openNode (fun n => n.fParent.isSome) path

theorem triple_openFile (path : List UInt8) :
    Triple Owns Safe P (openFile E turns path) fun r U => Made P r.2 U :=
  triple_openNode (fun n => n.fParent.isNone ∧ n.isArrayPrim = false) path

/-- Of an array there is a reference to a new type info, of a single value to none. -/
theorem triple_prepIo (hn : whole a n ≤ P) (offset : UInt64) :
    Triple Owns Safe P (prepIo E a offset) fun r U =>
      (∀ e, r = .error e → U = P) ∧
        ∀ io, r = .ok io → U = if n.isArrayPrim then .ref io.1 ::ₘ P else P := by
  have hstop : ∀ e : Reply, Triple Owns Safe P
      (pure (.error e) : Client V (Except Reply (ℕ × UInt64 × UInt64))) fun r U =>
        (∀ e, r = .error e → U = P) ∧
          ∀ io, r = .ok io → U = if n.isArrayPrim then .ref io.1 ::ₘ P else P :=
    fun e => .pure ⟨fun _ _ => rfl, fun io h => by cases h⟩
  refine triple_readNode (mem_of_whole hn) ?_
  by_cases hfile : n.fParent.isNone ∧ n.isArrayPrim = false
  · rw [if_pos hfile]
    exact hstop _
  · rw [if_neg hfile]
    refine (triple_fbnBytes hn).bind_eq fun len => ?_
    by_cases hlen : len ≤ offset
    · rw [if_pos hlen]
      exact hstop _
    · rw [if_neg hlen]
      cases n with
      | arrayPrim p tf max =>
        have hp : .ref p ∈ P := ref_of_whole hn List.mem_cons_self
        refine (triple_followFieldIdx E hp tf 0).bind_eq fun res => ?_
        cases res with
        | none => exact .throw Fail.noConfusion
        | some ti =>
          refine (triple_tiClo (Multiset.mem_cons_self _ _)).bind_eq fun w => ?_
          refine .pure ⟨?_, ?_⟩
          · rintro e ⟨⟩
          · rintro io ⟨⟩
            rfl
      | prim p tf t =>
        have ht : .ref t ∈ P := ref_of_whole hn (List.mem_cons_of_mem _ List.mem_cons_self)
        dsimp only [Node.primTi]
        rw [pure_bind]
        refine (triple_tiClo ht).bind_eq fun w => ?_
        exact .pure ⟨fun _ _ => rfl, fun _ _ => rfl⟩
      | _ => exact absurd ⟨rfl, rfl⟩ hfile

/-- The type info of an array is freed again. -/
theorem triple_transfer (hn : whole a n ≤ P) (size offset : UInt64) :
    Triple Owns Safe P (transfer E a size offset) fun _ U => U = P := by
  refine (triple_prepIo hn offset).bind fun r U hU => ?_
  cases r with
  | error e => exact .pure (hU.1 e rfl)
  | ok io =>
    rw [hU.2 io rfl]
    by_cases harray : n.isArrayPrim = true
    · rw [if_pos harray]
      refine triple_readNode (Multiset.mem_cons_of_mem (mem_of_whole hn)) ?_
      rw [if_pos harray]
      exact triple_tiFree.bind fun _ _ hU => .pure hU
    · rw [if_neg harray]
      refine triple_readNode (mem_of_whole hn) ?_
      rw [if_neg harray]
      exact .pure rfl

/-! ## Sessions -/

variable {nodes : Multiset (ℕ × Node V)}

theorem Leaves.made {opened : Option ℕ} {U : Multiset (Res V)} (hfilled : ∀ p ∈ nodes, p.2.tis ≠ [])
    (hmade : Made (wholes nodes) opened U) :
    Leaves (opened.elim (nodes.map Prod.fst) fun b => b ::ₘ nodes.map Prod.fst) U := by
  cases opened with
  | none => exact ⟨nodes, rfl, hfilled, hmade⟩
  | some b =>
    obtain ⟨k, hk, rfl⟩ := hmade
    refine ⟨(b, k) ::ₘ nodes, Multiset.map_cons _ _ _, fun p hp => ?_, (wholes_cons (b, k) nodes).symm⟩
    rcases Multiset.mem_cons.mp hp with rfl | hp
    · exact hk
    · exact hfilled p hp

theorem triple_run (op : Op) (hfh : ∀ a, op.fh = some a → a ∈ nodes.map Prod.fst)
    (hfilled : ∀ p ∈ nodes, p.2.tis ≠ []) :
    Triple Owns Safe (wholes nodes) (op.run E turns) fun r U =>
      Leaves (op.left (nodes.map Prod.fst) r.2) U := by
  have hsame : ∀ U, U = wholes nodes → Leaves (nodes.map Prod.fst) U :=
    fun U hU => ⟨nodes, rfl, hfilled, hU⟩
  have hkeep : ∀ {c : Client V Reply}, op.left (nodes.map Prod.fst) none = nodes.map Prod.fst →
      Triple Owns Safe (wholes nodes) c (fun _ U => U = wholes nodes) →
      Triple Owns Safe (wholes nodes) (do return (← c, none)) fun r U =>
        Leaves (op.left (nodes.map Prod.fst) r.2) U :=
    fun hleft hc => hc.bind fun _ U hU => .pure (hleft.symm ▸ hsame U hU)
  have hopen : ∀ {a : ℕ}, op.fh = some a → ∃ n, (a, n) ∈ nodes := fun ha => by
    obtain ⟨p, hp, rfl⟩ := Multiset.mem_map.mp (hfh _ ha)
    exact ⟨p.2, hp⟩
  cases op with
  | getattr path => exact hkeep rfl (triple_getattr path)
  | opendir path => exact (triple_opendir path).weaken fun r U hmade => Leaves.made hfilled hmade
  | openFile path => exact (triple_openFile path).weaken fun r U hmade => Leaves.made hfilled hmade
  | fgetattr a =>
    obtain ⟨n, hn⟩ := hopen rfl
    exact hkeep rfl ((triple_getattrFn (whole_le hn)).bind fun _ _ hU => .pure hU)
  | readdir a =>
    obtain ⟨n, hn⟩ := hopen rfl
    exact hkeep rfl (triple_readdir (whole_le hn))
  | read a size offset | write a size offset =>
    obtain ⟨n, hn⟩ := hopen rfl
    exact hkeep rfl (triple_transfer (whole_le hn) size offset)
  | release a =>
    obtain ⟨n, hn⟩ := hopen rfl
    obtain ⟨rest, rfl⟩ := Multiset.exists_cons_of_mem hn
    have hclose : Triple Owns Safe (wholes ((a, n) ::ₘ rest)) (close a) fun _ U => U = wholes rest :=
      (triple_bridgeFree.of_pre (wholes_cons (a, n) rest)).bind fun _ _ hU => .pure hU
    refine hclose.bind fun _ U hU => .pure ⟨rest, ?_, fun p hp => ?_, hU⟩
    · rw [Op.left, Multiset.map_cons, Multiset.erase_cons_head]
    · exact hfilled p (Multiset.mem_cons_of_mem hp)

/-- `opendir` on the root -/
def openRoot : Client Unit (Reply × Option ℕ) := do
  match ← allocOrigin oneByte with
  | none => return (.noent, none)
  | some t => do
    let fbn ← bridgeFromTi t
    if (← readNode fbn).fParent.isSome then
      bridgeFree fbn
      return (.noent, none)
    return (.done, some fbn)

theorem opendir_root : opendir oneByte 0 [slash] = openRoot := by
  have hroot : ∀ a, fbnFromRelpath oneByte 0 a [slash] = pure (some a) := fun a => by
    rw [fbnFromRelpath]
    split
    · rfl
    · next h => cases h
  unfold opendir fslnodeByPath openRoot
  rw [bind_assoc]
  congr 1
  funext res
  cases res with
  | none => rfl
  | some t =>
    dsimp only
    rw [bind_assoc]
    congr 1
    funext a
    rw [hroot, pure_bind, if_neg (not_not.mpr rfl), pure_bind]

theorem Session.root {m m' : Mem Unit} {files : Multiset ℕ} {a : ℕ} (hs : Session m files)
    (hrun : openRoot m = .ok ((.done, some a), m')) : Session m' (a ::ₘ files) := by
  have hop : (Op.opendir [slash]).run oneByte 0 m = .ok ((.done, some a), m') := by
    rw [Op.run, opendir_root, hrun]
  exact .request hs (fun b h => by cases h) hop

end Fsl.FuseBrowser
