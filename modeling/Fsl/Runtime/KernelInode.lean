import Fsl.Runtime.NodesMemory

/-!
# Inodes of the kernel browser

The module of `kernel/mod/` makes an inode for each node that a lookup finds. The node belongs to the inode
from then on and is freed when the kernel destroys the inode, which it does in any order.
-/

namespace Fsl.KernelInode

open Nodes ArrayLookup Owned Children

variable {V : Type}

/-- `enum fsl_node_t` -/
inductive Kind
  | type
  | prim
  | typeArray
  | pointsto
  | virt
  | primArray
  deriving DecidableEq

/-- `fsl_bridge_type`, where it returns. -/
def bridgeType : Node V → Option Kind
  | .blank => none
  | .type _ => some .type
  | .prim _ _ _ => some .prim
  | .arrayPrim _ _ _ => some .primArray
  | .arrayField _ _ _ => some .typeArray
  | .arrayPt _ _ _ => some .pointsto
  | .arrayVt _ _ _ => some .virt

/-- `struct inode`: `i_private`, `i_size` and the kind of the node, by which `fsl_inode_iget` chooses the
operations. -/
structure Inode where
  fbn : ℕ
  kind : Kind
  size : UInt64
  deriving DecidableEq

/-- `i_mode` -/
def Inode.mode (i : Inode) : UInt32 := if i.kind = .prim then 0o100444 else 0o040555

/-- `f_pos` and `fp_realpos` -/
structure File where
  pos : ℕ
  realpos : ℕ

/-- What is passed to a filler; `dir` tells `DT_DIR` from `DT_REG`. -/
structure Entry where
  name : List UInt8
  dir : Bool

/-- A filler takes the next entry or is full, depending on what it has taken. -/
abbrev Filler := List Entry → Entry → Bool

/-- What an operation returns. Where there is no memory for an inode the node is left behind. -/
inductive Reply
  | absent
  | inode (i : Inode)
  | nomem (fbn : ℕ)
  | listing (file : File) (buf : List Entry)
  | page (io : Option (UInt64 × UInt64))
  | done

/-- The inode that is made. -/
def Reply.made : Reply → Multiset Inode
  | .inode i => {i}
  | _ => 0

/-- The node that is left behind. -/
def Reply.behind : Reply → Multiset ℕ
  | .nomem fbn => {fbn}
  | _ => 0

/-- `fsl_inode_iget`; `fresh` is whether `new_inode` returns an inode. Where it does not, its callers pass
on an `ERR_PTR`, of which `d_splice_alias` and `d_alloc_root` are taken to make no dentry and no inode; the
node stays behind. -/
def inodeIget (E : Tables V) (fresh : Bool) (fbn : ℕ) : Client V Reply := do
  if fresh = false then return .nomem fbn
  match bridgeType (← readNode fbn) with
  | none => fail .assertion
  | some kind => return .inode ⟨fbn, kind, ← fbnBytes E fbn⟩

variable (E : Tables V) (turns : ℕ) (fresh : Bool) (fill : Filler)

/-- `fsl_fill_super` on a device that is there -/
def fillSuper : Client V Reply := do
  match ← allocOrigin E with
  | none => return .absent
  | some tiOrigin => inodeIget E fresh (← bridgeFromTi tiOrigin)

/-- `fsl_type_lookup` -/
def typeLookup (dir : Inode) (name : List UInt8) : Client V Reply := do
  match ← followNameOf E dir.fbn name with
  | none => return .absent
  | some newFbn => inodeIget E fresh newFbn

/-- The node that `fsl_array_lookup` finds. -/
def arrayFollow (dirFbn : ℕ) (name : List UInt8) : Client V (Option ℕ) := do
  if isInt name then return (← bridgeIdxInto E dirFbn (strtol name)).1
  else bridgeFollowPrettyName E turns dirFbn name

/-- `fsl_array_lookup` -/
def arrayLookup (dir : Inode) (name : List UInt8) : Client V Reply := do
  match ← arrayFollow E turns dir.fbn name with
  | none => return .absent
  | some newFbn => inodeIget E fresh newFbn

/-- The `lookup` of the inode's operations, of which a file has none. -/
def lookup (dir : Inode) (name : List UInt8) : Client V Reply :=
  match dir.kind with
  | .type => typeLookup E fresh dir name
  | .prim => return .absent
  | .typeArray | .pointsto | .virt | .primArray => arrayLookup E turns fresh dir name

/-! ## Listing -/

/-- `fsl_type_intrinsic_readdir`, and whether the listing goes on. -/
def typeIntrinsicReaddir (file : File) : (File × List Entry) × Bool :=
  let dot : Entry := ⟨[46], true⟩
  let dotdot : Entry := ⟨[46, 46], true⟩
  if file.pos = 0 then
    if fill [] dot = false then ((file, []), false)
    else if fill [dot] dotdot = false then (({ file with pos := 1 }, [dot]), false)
    else (({ file with pos := 2 }, [dot, dotdot]), true)
  else if file.pos = 1 then
    if fill [] dotdot = false then ((file, []), false)
    else (({ file with pos := 2 }, [dotdot]), true)
  else ((file, []), true)

/-- `pos`, `realpos` and what the filler has taken. -/
structure Cursor where
  pos : ℕ
  realpos : ℕ
  buf : List Entry

/-- An entry is passed to the filler; whether that was full. -/
def offer (s : Cursor) (e : Entry) : Cursor × Bool :=
  if fill s.buf e then ({ s with pos := s.pos + 1, buf := s.buf ++ [e] }, false)
  else ({ s with pos := s.pos + 1 }, true)

/-- The end of a round. -/
def Cursor.next (s : Cursor) : Cursor := { s with realpos := s.realpos + 1 }

/-- `is_full` -/
def isFull (s : Cursor) : Reply := .listing ⟨s.pos + 2, s.realpos⟩ s.buf

/-- The loop of `fsl_type_readdir_ti` over the fields. -/
def fieldLoop (ti : ℕ) : List (Nodes.Field V) → Cursor → Client V (Cursor × Bool)
  | [], s => return (s, false)
  | tf :: tfs, s => do
    match ← bridgeFollowTf E ti tf with
    | none => fieldLoop ti tfs s.next
    | some fbn => do
      let r := offer fill s ⟨tf.fieldname, decide (tf.typenum ≠ TypeInfo.typenumInvalid)⟩
      bridgeFree fbn
      if r.2 then return r
      fieldLoop ti tfs r.1.next

/-- The loops of `fsl_type_readdir_ti` over the points-to ranges and over the virtual types, where each
has the name of its entry or is passed over. -/
def nameLoop : List (Option (List UInt8)) → Cursor → Cursor × Bool
  | [], s => (s, false)
  | none :: names, s => nameLoop names s.next
  | some name :: names, s =>
    let r := offer fill s ⟨name, true⟩
    if r.2 then r else nameLoop names r.1.next

/-- `fsl_type_readdir_ti` -/
def typeReaddirTi (dir : Inode) (file : File) (buf : List Entry) : Client V Reply := do
  match (← readNode dir.fbn).ti with
  | none => fail .null
  | some ti => do
    let tt ← tiTypenum ti
    let w ← tiClo ti
    let fields := E.fieldall tt
    let points := (E.pointsto tt).map fun pt => if pt.iter.isOk w then pt.name else none
    let virts := (E.virts tt).map fun vt => if (E.vtIter vt).isOk w then E.vtName vt else none
    let r ← fieldLoop E fill ti (fields.drop file.realpos) ⟨file.pos - 2, file.realpos, buf⟩
    if r.2 then return isFull r.1
    let i := file.realpos - fields.length
    let r := nameLoop fill (points.drop i) r.1
    if r.2 then return isFull r.1
    return isFull (nameLoop fill (virts.drop (i - points.length)) r.1).1

/-- The name of an element: what `typeinfo_getname` reads, or its index. -/
def elemName (fbn : ℕ) (i : UInt32) : Client V (List UInt8) := do
  match (← readNode fbn).ti with
  | none => fail .null
  | some ti => do
    let name := (← getname E ti 64).getD []
    return if name = [] then sprintfD i else name

/-- The loop of `fsl_readdir_array_fbn`. -/
def arrayLoop (fbn : ℕ) : ℕ → UInt32 → Cursor → Client V Cursor
  | 0, _, _ => fail .turns
  | turns + 1, i, s => do
    let r ← bridgeIdxInto E fbn i
    match r.1 with
    | none => if r.2 ≠ .badVerify then return s else arrayLoop fbn turns (i + 1) s.next
    | some curFbn => do
      let name ← elemName E curFbn i
      bridgeFree curFbn
      let r := offer fill s ⟨name, true⟩
      if r.2 then return r.1
      arrayLoop fbn turns (i + 1) r.1.next

/-- `fsl_readdir_array_fbn` -/
def readdirArrayFbn (dir : Inode) (file : File) (buf : List Entry) : Client V Reply := do
  return isFull (← arrayLoop E fill dir.fbn turns (UInt32.ofNat file.realpos)
    ⟨file.pos - 2, file.realpos, buf⟩)

/-- The `readdir` of the inode's operations, of which a file has none. -/
def readdir (dir : Inode) (file : File) : Client V Reply := do
  if dir.kind = .prim then return .absent
  let r := typeIntrinsicReaddir fill file
  if r.2 = false then return .listing r.1.1 r.1.2
  if dir.kind = .type then typeReaddirTi E fill dir r.1.1 r.1.2
  else readdirArrayFbn E turns fill dir r.1.1 r.1.2

/-- `PAGE_CACHE_SIZE` -/
def pageCacheSize : UInt64 := 4096

/-- `fsl_prim_readpage` on the page at `pgOffset`: where the bytes are read and how many, or that the page
is cleared. -/
def primReadpage (i : Inode) (fPos pgOffset : UInt64) : Client V Reply := do
  let offset := fPos + pgOffset
  if i.size ≤ offset then return .page none
  let readSize := if i.size < pageCacheSize + offset then i.size - offset else pageCacheSize
  match (← readNode i.fbn).primTi with
  | none => fail .null
  | some ti => return .page (some ((← tiClo ti).offset + offset * 8, readSize))

/-- `fsl_destroy_inode` -/
def destroyInode (i : Inode) : Client V Reply := do
  bridgeFree i.fbn
  return .done

/-! ## Runs -/

inductive Op
  | fillSuper
  | lookup (dir : Inode) (name : List UInt8)
  | readdir (dir : Inode) (file : File) (fill : Filler)
  | readpage (i : Inode) (fPos pgOffset : UInt64)
  | destroy (i : Inode)

namespace Op

/-- The inode that an operation is on. -/
def ino : Op → Option Inode
  | .fillSuper => none
  | .lookup dir _ => some dir
  | .readdir dir _ _ => some dir
  | .readpage i _ _ => some i
  | .destroy i => some i

/-- The kernel reads pages of files only, as no other inode has `a_ops`. -/
def run : Op → Client V Reply
  | .fillSuper => KernelInode.fillSuper E fresh
  | .lookup dir name => KernelInode.lookup E turns fresh dir name
  | .readdir dir file fill => KernelInode.readdir E turns fill dir file
  | .readpage i fPos pgOffset =>
    if i.kind = .prim then primReadpage i fPos pgOffset else return .absent
  | .destroy i => destroyInode i

/-- The inodes in memory afterwards. -/
def left (inodes : Multiset Inode) (r : Reply) : Op → Multiset Inode
  | .fillSuper | .lookup _ _ => r.made + inodes
  | .readdir _ _ _ | .readpage _ _ _ => inodes
  | .destroy i => inodes.erase i

/-- The nodes that are left behind. -/
def lost (r : Reply) : Op → Multiset ℕ
  | .fillSuper | .lookup _ _ => r.behind
  | .readdir _ _ _ | .readpage _ _ _ | .destroy _ => 0

end Op

/-- Memory after operations, with the inodes that are in memory and the nodes that were left behind. -/
inductive Run : Mem V → Multiset Inode → Multiset ℕ → Prop
  | start : Run Mem.start 0 0
  | op {m m' : Mem V} {inodes : Multiset Inode} {lost : Multiset ℕ} {E : Tables V} {turns : ℕ}
      {fresh : Bool} {op : Op} {r : Reply} (h : Run m inodes lost)
      (hino : ∀ i, op.ino = some i → i ∈ inodes) (hrun : op.run E turns fresh m = .ok (r, m')) :
      Run m' (op.left inodes r) (op.lost r + lost)

/-! ## What an operation leaves -/

/-- The code follows no null pointer and uses no memory that is not allocated. -/
def Sound (e : Fail) : Prop := e ≠ .freed ∧ e ≠ .null

theorem sound_assertion : Sound .assertion := ⟨Fail.noConfusion, Fail.noConfusion⟩

theorem sound_turns : Sound .turns := ⟨Fail.noConfusion, Fail.noConfusion⟩

variable {E turns fresh fill} {P : Multiset (Res V)} {a t : ℕ} {n : Node V}

theorem exists_kind (h : n.tis ≠ []) : ∃ kind, bridgeType n = some kind := by
  cases n with
  | blank => exact absurd rfl h
  | _ => exact ⟨_, rfl⟩

/-- A lookup makes an inode with a node of its kind, or leaves a node behind, or there is nothing. -/
def Spliced (P : Multiset (Res V)) (r : Reply) (U : Multiset (Res V)) : Prop :=
  (r = .absent ∧ U = P) ∨
    (∃ i n, r = .inode i ∧ bridgeType n = some i.kind ∧ U = whole i.fbn n + P) ∨
      ∃ b n, r = .nomem b ∧ n.tis ≠ [] ∧ U = whole b n + P

theorem triple_inodeIget (hn : n.tis ≠ []) :
    Triple Owns Sound (whole a n + P) (inodeIget E fresh a) (Spliced P) := by
  have hle : whole a n ≤ whole a n + P := Multiset.le_add_right _ _
  unfold inodeIget
  split_ifs
  · exact .pure (Or.inr (Or.inr ⟨a, n, rfl, hn, rfl⟩))
  · obtain ⟨kind, hkind⟩ := exists_kind hn
    refine triple_readNode (mem_of_whole hle) ?_
    rw [hkind]
    exact (triple_fbnBytes hle).bind_eq fun size => .pure (Or.inr (Or.inl ⟨_, n, rfl, hkind, rfl⟩))

/-- What is made gets an inode. -/
theorem triple_splice {c : Client V (Option ℕ)} (hc : Triple Owns Sound P c (Made P)) :
    Triple Owns Sound P
      (do
        match ← c with
        | none => return .absent
        | some newFbn => inodeIget E fresh newFbn) (Spliced P) := by
  refine hc.bind fun res U hU => ?_
  cases res with
  | none => exact .pure (Or.inl ⟨rfl, hU⟩)
  | some b =>
    obtain ⟨k, hk, rfl⟩ := hU
    exact triple_inodeIget hk

theorem triple_fillSuper : Triple Owns Sound P (fillSuper E fresh) (Spliced P) := by
  refine (triple_allocOrigin E).bind_eq fun res => ?_
  cases res with
  | none => exact .pure (Or.inl ⟨rfl, rfl⟩)
  | some t =>
    refine (triple_bridgeFromTi sound_assertion).bind_eq fun b => ?_
    exact triple_inodeIget (List.cons_ne_nil _ _)

theorem triple_arrayFollow (hn : whole a n ≤ P) (name : List UInt8) :
    Triple Owns Sound P (arrayFollow E turns a name) (Made P) := by
  unfold arrayFollow
  split_ifs
  · refine (triple_bridgeIdxInto sound_assertion hn (strtol name)).bind fun res U hU => .pure ?_
    cases hres : res.1 with
    | none =>
      rw [hres] at hU
      exact hU
    | some b =>
      rw [hres] at hU
      obtain ⟨t, rfl⟩ := hU
      exact Made.some (List.cons_ne_nil _ _)
  · exact triple_bridgeFollowPrettyName sound_assertion sound_turns hn turns name

/-- The operations of an inode go with its node, so that a name is only looked up in a type. -/
theorem triple_lookup {dir : Inode} (hn : whole dir.fbn n ≤ P) (hkind : bridgeType n = some dir.kind)
    (name : List UInt8) : Triple Owns Sound P (lookup E turns fresh dir name) (Spliced P) := by
  unfold lookup
  cases hdir : dir.kind with
  | prim => exact .pure (Or.inl ⟨rfl, rfl⟩)
  | type =>
    have hti : n.ti ≠ none := by
      rw [hdir] at hkind
      cases n <;> cases hkind
      exact Option.some_ne_none _
    exact triple_splice (triple_followNameOf hn (Or.inl hti) name)
  | _ => exact triple_splice (triple_arrayFollow hn name)

theorem triple_fieldLoop (ht : .ref t ∈ P) (tfs : List (Nodes.Field V)) (s : Cursor) :
    Triple Owns Sound P (fieldLoop E fill t tfs s) fun _ U => U = P := by
  induction tfs generalizing s with
  | nil => exact .pure rfl
  | cons tf tfs ih =>
    refine (triple_bridgeFollowTf ht tf).bind fun res U hU => ?_
    cases res with
    | none =>
      rw [show U = P from hU]
      exact ih s.next
    | some b =>
      obtain ⟨k, -, rfl⟩ := hU
      refine triple_bridgeFree.bind_eq fun _ => ?_
      split_ifs
      · exact .pure rfl
      · exact ih _

theorem triple_typeReaddirTi {dir : Inode} (hn : whole dir.fbn n ≤ P) (hti : n.ti ≠ none) (file : File)
    (buf : List Entry) : Triple Owns Sound P (typeReaddirTi E fill dir file buf) fun _ U => U = P := by
  refine triple_readNode (mem_of_whole hn) ?_
  cases n with
  | type t =>
    have ht : .ref t ∈ P := ref_of_whole hn List.mem_cons_self
    refine (triple_tiTypenum ht).bind_eq fun tt => ?_
    refine (triple_tiClo ht).bind_eq fun w => ?_
    refine (triple_fieldLoop ht _ _).bind_eq fun r => ?_
    dsimp only
    split_ifs <;> exact .pure rfl
  | _ => exact absurd rfl hti

/-- The node of an element is that of a type, which has a name or not. -/
theorem triple_elemName (b : ℕ) (i : UInt32) :
    Triple Owns Sound (whole b (.type t) + P) (elemName E b i) fun _ U => U = whole b (.type t) + P := by
  have hle : whole b (.type t) ≤ whole b (.type t) + P := Multiset.le_add_right _ _
  refine triple_readNode (mem_of_whole hle) ?_
  have ht : .ref t ∈ whole b (.type t) + P := ref_of_whole hle List.mem_cons_self
  exact (triple_getname E sound_assertion ht 64).bind fun _ _ hU => .pure hU

theorem triple_arrayLoop (hn : whole a n ≤ P) (turns : ℕ) (i : UInt32) (s : Cursor) :
    Triple Owns Sound P (arrayLoop E fill a turns i s) fun _ U => U = P := by
  induction turns generalizing i s with
  | zero => exact .throw sound_turns
  | succ turns ih =>
    rw [arrayLoop]
    refine (triple_bridgeIdxInto sound_assertion hn i).bind fun r U hU => ?_
    cases hres : r.1 with
    | none =>
      rw [hres, Option.elim_none] at hU
      subst hU
      dsimp only
      split_ifs
      · exact .pure rfl
      · exact ih (i + 1) s.next
    | some b =>
      rw [hres, Option.elim_some] at hU
      obtain ⟨t, rfl⟩ := hU
      refine (triple_elemName b i).bind_eq fun name => ?_
      refine triple_bridgeFree.bind_eq fun _ => ?_
      dsimp only
      split_ifs
      · exact .pure rfl
      · exact ih (i + 1) _

theorem triple_readdir {dir : Inode} (hn : whole dir.fbn n ≤ P) (hkind : bridgeType n = some dir.kind)
    (file : File) : Triple Owns Sound P (readdir E turns fill dir file) fun _ U => U = P := by
  unfold readdir
  dsimp only
  split_ifs with hprim hmore htype
  · exact .pure rfl
  · exact .pure rfl
  · have hti : n.ti ≠ none := by
      rw [htype] at hkind
      cases n <;> cases hkind
      exact Option.some_ne_none _
    exact triple_typeReaddirTi hn hti _ _
  · exact (triple_arrayLoop hn turns _ _).bind fun _ _ hU => .pure hU

theorem triple_primReadpage {i : Inode} (hn : whole i.fbn n ≤ P) (hkind : bridgeType n = some .prim)
    (fPos pgOffset : UInt64) :
    Triple Owns Sound P (primReadpage i fPos pgOffset) fun _ U => U = P := by
  unfold primReadpage
  dsimp only
  split_ifs
  · exact .pure rfl
  all_goals
    refine triple_readNode (mem_of_whole hn) ?_
    cases n with
    | prim p tf t =>
      have ht : .ref t ∈ P := ref_of_whole hn (List.mem_cons_of_mem _ List.mem_cons_self)
      exact (triple_tiClo ht).bind fun _ _ hU => .pure hU
    | _ => cases hkind

/-! ## Who owns the nodes -/

/-- The nodes of the inodes, each of the kind of its inode, and the nodes that were left behind. -/
def Held (inodes : Multiset Inode) (lost : Multiset ℕ) (U : Multiset (Res V)) : Prop :=
  ∃ (kept : Multiset (Inode × Node V)) (behind : Multiset (ℕ × Node V)),
    kept.map Prod.fst = inodes ∧ behind.map Prod.fst = lost ∧
      (∀ p ∈ kept, bridgeType p.2 = some p.1.kind) ∧ (∀ p ∈ behind, p.2.tis ≠ []) ∧
        U = wholes (kept.map fun p => (p.1.fbn, p.2)) + wholes behind

variable {inodes : Multiset Inode} {lost : Multiset ℕ}

/-- The node of an inode is owned. -/
theorem Held.exists_whole (h : Held inodes lost P) {i : Inode} (hi : i ∈ inodes) :
    ∃ n : Node V, whole i.fbn n ≤ P ∧ bridgeType n = some i.kind := by
  obtain ⟨kept, behind, rfl, rfl, hkind, -, rfl⟩ := h
  obtain ⟨p, hp, rfl⟩ := Multiset.mem_map.mp hi
  refine ⟨p.2, ?_, hkind p hp⟩
  have hmem : (p.1.fbn, p.2) ∈ kept.map fun p => (p.1.fbn, p.2) := Multiset.mem_map_of_mem _ hp
  exact (whole_le hmem).trans (Multiset.le_add_right _ _)

theorem Held.spliced (h : Held inodes lost P) {r : Reply} {U : Multiset (Res V)} (hr : Spliced P r U) :
    Held (r.made + inodes) (r.behind + lost) U := by
  obtain ⟨kept, behind, rfl, rfl, hkind, hfilled, rfl⟩ := h
  rcases hr with ⟨rfl, rfl⟩ | ⟨i, n, rfl, hn, rfl⟩ | ⟨b, n, rfl, hn, rfl⟩
  · exact ⟨kept, behind, (zero_add _).symm, (zero_add _).symm, hkind, hfilled, rfl⟩
  · refine ⟨(i, n) ::ₘ kept, behind, ?_, (zero_add _).symm, fun p hp => ?_, hfilled, ?_⟩
    · rw [Multiset.map_cons, ← Multiset.singleton_add]
      rfl
    · rcases Multiset.mem_cons.mp hp with rfl | hp
      · exact hn
      · exact hkind p hp
    · rw [Multiset.map_cons, wholes_cons, add_assoc]
  · refine ⟨kept, (b, n) ::ₘ behind, (zero_add _).symm, ?_, hkind, fun p hp => ?_, ?_⟩
    · rw [Multiset.map_cons, ← Multiset.singleton_add]
      rfl
    · rcases Multiset.mem_cons.mp hp with rfl | hp
      · exact hn
      · exact hfilled p hp
    · rw [wholes_cons, add_left_comm]

/-- The node of an inode that is destroyed is freed. -/
theorem Held.triple_destroy (h : Held inodes lost P) {i : Inode} (hi : i ∈ inodes) :
    Triple Owns Sound P (destroyInode i) fun r U => r = .done ∧ Held (inodes.erase i) lost U := by
  obtain ⟨kept, behind, rfl, rfl, hkind, hfilled, rfl⟩ := h
  obtain ⟨p, hp, rfl⟩ := Multiset.mem_map.mp hi
  obtain ⟨rest, rfl⟩ := Multiset.exists_cons_of_mem hp
  have hsplit : wholes ((p ::ₘ rest).map fun p => (p.1.fbn, p.2)) + wholes behind =
      whole p.1.fbn p.2 + (wholes (rest.map fun p => (p.1.fbn, p.2)) + wholes behind) := by
    rw [Multiset.map_cons, wholes_cons, add_assoc]
  refine (triple_bridgeFree.of_pre hsplit).bind_eq (T := fun _ => _) fun _ => .pure ⟨rfl, rest, behind,
    ?_, rfl, fun q hq => hkind q (Multiset.mem_cons_of_mem hq), hfilled, rfl⟩
  rw [Multiset.map_cons, Multiset.erase_cons_head]

theorem triple_run (h : Held inodes lost P) (op : Op) (hino : ∀ i, op.ino = some i → i ∈ inodes) :
    Triple Owns Sound P (op.run E turns fresh) fun r U =>
      Held (op.left inodes r) (op.lost r + lost) U := by
  have hsame : ∀ U, U = P → Held inodes (0 + lost) U := fun U hU => by rwa [zero_add, hU]
  cases op with
  | fillSuper => exact triple_fillSuper.weaken fun _ _ hr => h.spliced hr
  | lookup dir name =>
    obtain ⟨n, hn, hkind⟩ := h.exists_whole (hino dir rfl)
    exact (triple_lookup hn hkind name).weaken fun _ _ hr => h.spliced hr
  | readdir dir file fill =>
    obtain ⟨n, hn, hkind⟩ := h.exists_whole (hino dir rfl)
    exact (triple_readdir hn hkind file).weaken fun _ U hU => hsame U hU
  | readpage i fPos pgOffset =>
    rw [Op.run]
    split_ifs with hprim
    · obtain ⟨n, hn, hkind⟩ := h.exists_whole (hino i rfl)
      rw [hprim] at hkind
      exact (triple_primReadpage hn hkind fPos pgOffset).weaken fun _ U hU => hsame U hU
    · exact .pure (hsame P rfl)
  | destroy i =>
    refine (h.triple_destroy (hino i rfl)).weaken fun r U hU => ?_
    rw [Op.lost, zero_add]
    exact hU.2

variable {m : Mem V}

variable (E turns fresh) in
theorem held_run (hm : Owns m P) (h : Held inodes lost P) (op : Op)
    (hino : ∀ i, op.ino = some i → i ∈ inodes) :
    (∃ r m' U, op.run E turns fresh m = .ok (r, m') ∧ Held (op.left inodes r) (op.lost r + lost) U ∧
      Owns m' U) ∨ ∃ e, op.run E turns fresh m = .error e ∧ Sound e := by
  rw [← add_zero P] at hm
  rcases triple_run h op hino 0 m hm with ⟨r, m', U, hrun, hheld, hm'⟩ | hstop
  · rw [add_zero] at hm'
    exact .inl ⟨r, m', U, hrun, hheld, hm'⟩
  · exact .inr hstop

theorem Run.held (h : Run m inodes lost) : ∃ P, Held inodes lost P ∧ Owns m P := by
  induction h with
  | start =>
    obtain ⟨U, hU, hm⟩ := keeps_start (V := V)
    obtain ⟨nodes, hnodes, -, rfl⟩ := hU
    rw [Multiset.map_eq_zero.mp hnodes] at hm
    refine ⟨_, ⟨0, 0, rfl, rfl, fun p hp => ?_, fun p hp => ?_, rfl⟩, hm⟩
    · exact absurd hp (Multiset.notMem_zero p)
    · exact absurd hp (Multiset.notMem_zero p)
  | op _ hino hrun ih =>
    obtain ⟨P, hheld, hm⟩ := ih
    rcases held_run _ _ _ hm hheld _ hino with ⟨r, m', U, hrun', hheld', hm'⟩ | ⟨e, hrun', -⟩
    · rw [hrun] at hrun'
      cases hrun'
      exact ⟨U, hheld', hm'⟩
    · rw [hrun] at hrun'
      cases hrun'

end Fsl.KernelInode
