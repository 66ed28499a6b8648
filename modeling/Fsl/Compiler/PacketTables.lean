import Fsl.Runtime.Reloc

/-!
# Write packets, compiled

`writepkt.cc` compiles a `write` statement to functions and to tables that name them. The tables of a
packet have the functions of its writes in one place and its calls in another, and `fsl_io_do_wpkt` goes
through the writes first. The names have to be different, or the tables do not compile.
-/

namespace Fsl.PacketTables

/-! ## Statements -/

/-- The parameters of a packet, in its buffer. -/
abbrev Params := List UInt64

/-- A statement of a packet. The code of its expressions takes the parameters: the condition, what
`EvalCtx::resolveLoc` gives for the left side and its size, the value, and the arguments of a call. -/
inductive WritePktStmt
  | struct (cond : Option (Params → Prog Bool)) (loc size val : Params → Prog UInt64)
  | call (cond : Option (Params → Prog Bool)) (name : String) (exprs : Params → Prog Params)
  /-- `WritePktId`, `WritePktArray` and `WritePktAnon` -/
  | other

/-- A `write` statement with its blocks. -/
structure WritePkt where
  name : String
  blocks : List (List WritePktStmt)

def evalCond (cond : Option (Params → Prog Bool)) (params : Params) : Prog Bool :=
  match cond with
  | none => pure true
  | some c => c params

/-- `WritePktStruct::genCode` -/
def genStruct (cond : Option (Params → Prog Bool)) (loc size val : Params → Prog UInt64)
    (params : Params) : Prog (List WlogEnt) := do
  if ← evalCond cond params then return [writeVal (← loc params) (← size params) (← val params)]
  else return []

/-! ## What a packet says -/

/-- A statement, where the packets that it calls mean `call`. -/
def WritePktStmt.meaning (call : String → Params → Prog (List WlogEnt)) (params : Params) :
    WritePktStmt → Prog (List WlogEnt)
  | .struct cond loc size val => genStruct cond loc size val params
  | .call cond name exprs => do
    if ← evalCond cond params then exprs params >>= call name else return []
  | .other => throw Stop.assertion

/-- One statement after the other. -/
def meaningAll (call : String → Params → Prog (List WlogEnt)) (params : Params) :
    List WritePktStmt → Prog (List WlogEnt)
  | [] => pure []
  | s :: rest => do
    let ws ← s.meaning call params
    let more ← meaningAll call params rest
    return ws ++ more

/-- The writes of a packet in the order of its text, with calls nested up to `depth`. -/
def meaning (wpkts : List WritePkt) : ℕ → String → Params → Prog (List WlogEnt)
  | 0, _, _ => throw Stop.fault
  | depth + 1, name, params =>
    match wpkts.find? fun p => p.name = name with
    | none => throw Stop.fault
    | some p => meaningAll (meaning wpkts depth) params p.blocks.flatten

/-! ## Names -/

/-- `WritePktStmt::getFuncName` -/
def getFuncName (name : String) (blkNum stmtNum : ℕ) : String :=
  "__wpkt_" ++ name ++ "_b" ++ toString blkNum ++ "_s" ++ toString stmtNum

/-- `WritePktCall::getFuncName` -/
def getCallName (name : String) (blkNum stmtNum : ℕ) : String :=
  "__wpktcall_" ++ name ++ "_b" ++ toString blkNum ++ "_s" ++ toString stmtNum

/-- `WritePktCall::getCondFuncName` -/
def getCondFuncName (name : String) (blkNum stmtNum : ℕ) : String :=
  getCallName name blkNum stmtNum ++ "_cond"

/-- The names of the tables of a block. -/
def funcsName (name : String) (n : ℕ) : String := "wpkt_funcs_" ++ name ++ toString n

def callsName (name : String) (n : ℕ) : String := "wpkt_calls_" ++ name ++ toString n

def wpktName (name : String) (n : ℕ) : String := "wpkt_" ++ name ++ toString n

/-! ## Code and tables -/

/-- `struct fsl_rtt_wpkt` as `genWpktStructs` writes it. -/
structure RttWpkt where
  funcC : ℕ
  funcs : String
  callC : ℕ
  calls : String
  next : Option String

/-- What a name stands for: the code of a function, or a table of names. -/
inductive Sym
  | func (code : Params → Prog (List WlogEnt))
  | params (code : Params → Prog Params)
  | cond (code : Params → Prog Bool)
  | funcs (names : List String)
  | calls (names : List (String × String × String))
  | wpkt (w : RttWpkt)

abbrev Syms := List (String × Sym)

/-- `genCode` on a statement. -/
def stmtSyms (name : String) (blkNum : ℕ) : WritePktStmt × ℕ → Syms
  | (.struct cond loc size val, k) => [(getFuncName name blkNum k, .func (genStruct cond loc size val))]
  | (.call cond _ exprs, k) =>
    [(getCallName name blkNum k, .params exprs), (getCondFuncName name blkNum k, .cond (evalCond cond))]
  | (.other, _) => []

/-- The entry of a statement in the table of functions. -/
def funcEntry (name : String) (blkNum : ℕ) : WritePktStmt × ℕ → Option String
  | (.struct _ _ _ _, k) => some (getFuncName name blkNum k)
  | _ => none

/-- The entry of a statement in the table of calls: `w2w_params_f`, `w2w_cond_f` and `w2w_wpkt`. -/
def callEntry (name : String) (blkNum : ℕ) : WritePktStmt × ℕ → Option (String × String × String)
  | (.call _ callee _, k) =>
    some (getCallName name blkNum k, getCondFuncName name blkNum k, wpktName callee 0)
  | _ => none

/-- `genFuncTables` -/
def genFuncTables (name : String) : List WritePktStmt × ℕ → String × Sym
  | (blk, n) => (funcsName name n, .funcs (blk.zipIdx.filterMap (funcEntry name n)))

/-- `genCallsTables`, which does not count the blocks. -/
def genCallsTables (name : String) : List WritePktStmt × ℕ → String × Sym
  | (blk, n) => (callsName name 0, .calls (blk.zipIdx.filterMap (callEntry name n)))

/-- `genWpktStructs` on a block -/
def genWpktStruct (name : String) : List WritePktStmt × ℕ → String × Sym
  | (blk, n) => (wpktName name n, .wpkt
    { funcC := (blk.zipIdx.filterMap (funcEntry name n)).length
      funcs := funcsName name n
      callC := (blk.zipIdx.filterMap (callEntry name n)).length
      calls := callsName name n
      next := if n = 0 then none else some (wpktName name (n - 1)) })

/-- `WritePkt::genCode` and `WritePkt::genTables` -/
def WritePkt.syms (p : WritePkt) : Syms :=
  p.blocks.zipIdx.flatMap (fun (blk, n) => blk.zipIdx.flatMap (stmtSyms p.name n)) ++
    (p.blocks.zipIdx.map (genFuncTables p.name) ++ (p.blocks.zipIdx.map (genCallsTables p.name) ++
      (p.blocks.zipIdx.map (genWpktStruct p.name)).reverse))

/-- `WritePktStmt::genProto` asserts that it is overridden. -/
def WritePktStmt.HasProto : WritePktStmt → Prop
  | .other => False
  | _ => True

/-- `gen_writepkts` and `TableGen::genWritePktTables`; the assertion of `genProto` stops the compiler. -/
def Generates (wpkts : List WritePkt) (syms : Syms) : Prop :=
  (∀ p ∈ wpkts, ∀ blk ∈ p.blocks, ∀ s ∈ blk, s.HasProto) ∧ syms = wpkts.flatMap WritePkt.syms

/-! ## Linking -/

/-- The first definition of a name. -/
def lookup (syms : Syms) (name : String) : Option Sym :=
  (syms.find? fun s => s.1 = name).map Prod.snd

def loadFunc (syms : Syms) (name : String) : Option (Params → Prog (List WlogEnt)) :=
  match lookup syms name with
  | some (.func code) => some code
  | _ => none

def loadCall (syms : Syms) (c : String × String × String) : Option (WpktCall String) :=
  match lookup syms c.1, lookup syms c.2.1, lookup syms c.2.2 with
  | some (.params f), some (.cond g), some (.wpkt _) => some ⟨g, f, c.2.2⟩
  | _, _, _ => none

def loadAll {α β : Type} (f : α → Option β) : List α → Option (List β)
  | [] => some []
  | a :: l => do
    let b ← f a
    let rest ← loadAll f l
    return b :: rest

/-- A packet with its names resolved. `fsl_io_do_wpkt` asserts that there is no next one. -/
def loadWpkt (syms : Syms) (w : RttWpkt) : Option (Wpkt String) :=
  match lookup syms w.funcs, lookup syms w.calls, w.next with
  | some (.funcs fs), some (.calls cs), none => do
    let funcs ← loadAll (loadFunc syms) (fs.take w.funcC)
    let calls ← loadAll (loadCall syms) (cs.take w.callC)
    return ⟨funcs, calls⟩
  | _, _, _ => none

/-- Code and tables compile and link to `tbl`: no name is defined twice, and every packet has what it
refers to. -/
structure Linked (syms : Syms) (tbl : String → Wpkt String) : Prop where
  nodup : (syms.map Prod.fst).Nodup
  load : ∀ name w, (name, Sym.wpkt w) ∈ syms → loadWpkt syms w = some (tbl name)

/-! ## Different names -/

/-- The names of a program whose packets have one block each. -/
inductive Key
  | func (name : String) (stmtNum : ℕ)
  | params (name : String) (stmtNum : ℕ)
  | cond (name : String) (stmtNum : ℕ)
  | funcs (name : String)
  | calls (name : String)
  | wpkt (name : String)

/-- The packet that a name is made from. -/
def Key.name : Key → String
  | .func name _ | .params name _ | .cond name _ | .funcs name | .calls name | .wpkt name => name

def Key.text : Key → String
  | .func name k => getFuncName name 0 k
  | .params name k => getCallName name 0 k
  | .cond name k => getCondFuncName name 0 k
  | .funcs name => funcsName name 0
  | .calls name => callsName name 0
  | .wpkt name => wpktName name 0

/-- What is behind the last underscore of a name. -/
theorem split_last {a b x y : List Char} (h : a ++ '_' :: x = b ++ '_' :: y) (hx : '_' ∉ x)
    (hy : '_' ∉ y) : a = b ∧ x = y := by
  rcases List.append_eq_append_iff.mp h with ⟨c, hb, hc⟩ | ⟨c, ha, hc⟩
  · cases c with
    | nil =>
      rw [List.append_nil] at hb
      exact ⟨hb.symm, (List.cons.inj hc).2⟩
    | cons d c =>
      rw [List.cons_append] at hc
      exact absurd ((List.cons.inj hc).2 ▸ List.mem_append_right c List.mem_cons_self) hx
  · cases c with
    | nil =>
      rw [List.append_nil] at ha
      exact ⟨ha, (List.cons.inj hc).2.symm⟩
    | cons d c =>
      rw [List.cons_append] at hc
      exact absurd ((List.cons.inj hc).2 ▸ List.mem_append_right c List.mem_cons_self) hy

theorem toDigits_inj {m n : ℕ} (h : Nat.toDigits 10 m = Nat.toDigits 10 n) : m = n := by
  have hback := congrArg (Nat.ofDigitChars 10 · 0) h
  simpa using hback

theorem getFuncName_toList (name : String) (b k : ℕ) : (getFuncName name b k).toList =
    '_' :: '_' :: 'w' :: 'p' :: 'k' :: 't' :: '_' ::
      (name.toList ++ '_' :: 'b' :: (Nat.toDigits 10 b ++ '_' :: 's' :: Nat.toDigits 10 k)) := by
  simp [getFuncName]

theorem getCallName_toList (name : String) (b k : ℕ) : (getCallName name b k).toList =
    '_' :: '_' :: 'w' :: 'p' :: 'k' :: 't' :: 'c' :: 'a' :: 'l' :: 'l' :: '_' ::
      (name.toList ++ '_' :: 'b' :: (Nat.toDigits 10 b ++ '_' :: 's' :: Nat.toDigits 10 k)) := by
  simp [getCallName]

/-- A name and a number are known from their text. -/
theorem suffix_inj {x y : List Char} {b b' k k' : ℕ}
    (h : x ++ '_' :: 'b' :: (Nat.toDigits 10 b ++ '_' :: 's' :: Nat.toDigits 10 k) =
      y ++ '_' :: 'b' :: (Nat.toDigits 10 b' ++ '_' :: 's' :: Nat.toDigits 10 k')) :
    x = y ∧ b = b' ∧ k = k' := by
  have hs : ∀ k, '_' ∉ 's' :: Nat.toDigits 10 k := fun k => by simp
  have hb : ∀ b, '_' ∉ 'b' :: Nat.toDigits 10 b := fun b => by simp
  rw [← List.cons_append, ← List.cons_append, ← List.append_assoc, ← List.cons_append,
    ← List.cons_append, ← List.append_assoc] at h
  obtain ⟨hfront, hk⟩ := split_last h (hs k) (hs k')
  obtain ⟨hname, hb⟩ := split_last hfront (hb b) (hb b')
  exact ⟨hname, toDigits_inj (List.cons.inj hb).2, toDigits_inj (List.cons.inj hk).2⟩

theorem getFuncName_inj {name name' : String} {b b' k k' : ℕ}
    (h : getFuncName name b k = getFuncName name' b' k') : name = name' ∧ b = b' ∧ k = k' := by
  have hlist := congrArg String.toList h
  simp only [getFuncName_toList, List.cons.injEq, true_and] at hlist
  obtain ⟨hname, hb, hk⟩ := suffix_inj hlist
  exact ⟨String.toList_inj.mp hname, hb, hk⟩

theorem getCallName_inj {name name' : String} {b b' k k' : ℕ}
    (h : getCallName name b k = getCallName name' b' k') : name = name' ∧ b = b' ∧ k = k' := by
  have hlist := congrArg String.toList h
  simp only [getCallName_toList, List.cons.injEq, true_and] at hlist
  obtain ⟨hname, hb, hk⟩ := suffix_inj hlist
  exact ⟨String.toList_inj.mp hname, hb, hk⟩

theorem getCallName_ne_cond (name name' : String) (b b' k k' : ℕ) :
    getCallName name b k ≠ getCondFuncName name' b' k' := by
  intro h
  have hlist := congrArg String.toList h
  simp only [getCondFuncName, String.toList_append, getCallName_toList, List.cons_append,
    List.cons.injEq, true_and, List.append_assoc] at hlist
  -- behind the last underscores there are a number and no number
  have hback : name.toList ++ '_' :: 'b' :: Nat.toDigits 10 b ++ '_' :: 's' :: Nat.toDigits 10 k =
      name'.toList ++ '_' :: 'b' :: (Nat.toDigits 10 b' ++ '_' :: 's' :: Nat.toDigits 10 k') ++
        '_' :: "cond".toList := by
    simpa using hlist
  have hcond := (split_last hback (by simp) (by decide)).2
  simp at hcond

theorem funcsName_inj {name name' : String} (h : funcsName name 0 = funcsName name' 0) :
    name = name' := by
  have hlist := congrArg String.toList h
  simpa [funcsName, String.toList_inj] using hlist

theorem callsName_inj {name name' : String} (h : callsName name 0 = callsName name' 0) :
    name = name' := by
  have hlist := congrArg String.toList h
  simpa [callsName, String.toList_inj] using hlist

theorem wpktName_inj {name name' : String} (h : wpktName name 0 = wpktName name' 0) :
    name = name' := by
  have hlist := congrArg String.toList h
  simpa [wpktName, String.toList_inj] using hlist

theorem funcsName_eq_wpktName_iff {name name' : String} :
    funcsName name 0 = wpktName name' 0 ↔ name' = "funcs_" ++ name := by
  have hfuncs : funcsName name 0 = wpktName ("funcs_" ++ name) 0 := by
    simp only [funcsName, wpktName, ← String.toList_inj, String.toList_append]
    simp
  rw [hfuncs]
  exact ⟨fun h => (wpktName_inj h).symm, fun h => by rw [h]⟩

theorem callsName_eq_wpktName_iff {name name' : String} :
    callsName name 0 = wpktName name' 0 ↔ name' = "calls_" ++ name := by
  have hcalls : callsName name 0 = wpktName ("calls_" ++ name) 0 := by
    simp only [callsName, wpktName, ← String.toList_inj, String.toList_append]
    simp
  rw [hcalls]
  exact ⟨fun h => (wpktName_inj h).symm, fun h => by rw [h]⟩

/-- A table of a packet and the packet that is called like it. -/
def Clash : Key → Key → Prop
  | .funcs name, .wpkt name' => name' = "funcs_" ++ name
  | .calls name, .wpkt name' => name' = "calls_" ++ name
  | _, _ => False

/-- Other names are different. -/
theorem Key.text_inj {x y : Key} (h : x.text = y.text) (hxy : ¬ Clash x y) (hyx : ¬ Clash y x) :
    x = y := by
  have hlist := congrArg String.toList h
  cases x with
  | func name k =>
    cases y with
    | func name' k' =>
      obtain ⟨rfl, -, rfl⟩ := getFuncName_inj h
      rfl
    | _ => simp [Key.text, getFuncName_toList, getCondFuncName, getCallName_toList, funcsName,
        callsName, wpktName] at hlist
  | params name k =>
    cases y with
    | params name' k' =>
      obtain ⟨rfl, -, rfl⟩ := getCallName_inj h
      rfl
    | cond name' k' => exact absurd h (getCallName_ne_cond _ _ _ _ _ _)
    | _ => simp [Key.text, getFuncName_toList, getCallName_toList, funcsName, callsName,
        wpktName] at hlist
  | cond name k =>
    cases y with
    | params name' k' => exact absurd h.symm (getCallName_ne_cond _ _ _ _ _ _)
    | cond name' k' =>
      have hcall : getCallName name 0 k = getCallName name' 0 k' := by
        simpa [Key.text, getCondFuncName] using h
      obtain ⟨rfl, -, rfl⟩ := getCallName_inj hcall
      rfl
    | _ => simp [Key.text, getFuncName_toList, getCondFuncName, getCallName_toList, funcsName,
        callsName, wpktName] at hlist
  | funcs name =>
    cases y with
    | funcs name' => rw [funcsName_inj h]
    | wpkt name' => exact absurd (funcsName_eq_wpktName_iff.mp h) hxy
    | _ => simp [Key.text, getFuncName_toList, getCondFuncName, getCallName_toList, funcsName,
        callsName] at hlist
  | calls name =>
    cases y with
    | calls name' => rw [callsName_inj h]
    | wpkt name' => exact absurd (callsName_eq_wpktName_iff.mp h) hxy
    | _ => simp [Key.text, getFuncName_toList, getCondFuncName, getCallName_toList, funcsName,
        callsName] at hlist
  | wpkt name =>
    cases y with
    | funcs name' => exact absurd (funcsName_eq_wpktName_iff.mp h.symm) hyx
    | calls name' => exact absurd (callsName_eq_wpktName_iff.mp h.symm) hyx
    | wpkt name' => rw [wpktName_inj h]
    | _ => simp [Key.text, getFuncName_toList, getCondFuncName, getCallName_toList,
        wpktName] at hlist

/-! ## When the tables compile -/

/-- The names of a statement in the only block of a packet. -/
def stmtKeys (name : String) : WritePktStmt × ℕ → List Key
  | (.struct _ _ _ _, k) => [.func name k]
  | (.call _ _ _, k) => [.params name k, .cond name k]
  | (.other, _) => []

def keys (name : String) (blk : List WritePktStmt) : List Key :=
  blk.zipIdx.flatMap (stmtKeys name) ++ [.funcs name, .calls name, .wpkt name]

theorem keys_text (name : String) (blk : List WritePktStmt) :
    (keys name blk).map Key.text = (WritePkt.syms ⟨name, [blk]⟩).map Prod.fst := by
  have hstmt : ∀ s : WritePktStmt × ℕ,
      (stmtKeys name s).map Key.text = (stmtSyms name 0 s).map Prod.fst := by
    rintro ⟨s, k⟩
    cases s <;> rfl
  simp only [keys, WritePkt.syms, List.zipIdx_cons, List.zipIdx_nil, List.flatMap_cons,
    List.flatMap_nil, List.map_append, List.map_flatMap, hstmt, List.append_nil]
  rfl

theorem name_of_mem_keys {name : String} {blk : List WritePktStmt} {x : Key} (hx : x ∈ keys name blk) :
    x.name = name := by
  rcases List.mem_append.mp hx with hx | hx
  · obtain ⟨⟨s, k⟩, -, hx⟩ := List.mem_flatMap.mp hx
    cases s with
    | struct => simp_all [stmtKeys, Key.name]
    | call => rcases List.mem_pair.mp hx with rfl | rfl <;> rfl
    | other => cases hx
  · simp only [List.mem_cons, List.not_mem_nil, or_false] at hx
    rcases hx with rfl | rfl | rfl <;> rfl

theorem nodup_keys (name : String) (blk : List WritePktStmt) : (keys name blk).Nodup := by
  rw [keys, List.nodup_append]
  refine ⟨?_, by simp, ?_⟩
  · rw [List.nodup_flatMap]
    refine ⟨fun s _ => ?_, ?_⟩
    · obtain ⟨s, k⟩ := s
      cases s <;> simp [stmtKeys]
    · have hidx : (blk.zipIdx.map Prod.snd).Nodup := by
        rw [List.zipIdx_map_snd]
        exact List.nodup_range'
      refine (List.pairwise_map.mp hidx).imp ?_
      rintro ⟨s, k⟩ ⟨s', k'⟩ hne x hx hx'
      have hof : ∀ s k, x ∈ stmtKeys name (s, k) →
          x = .func name k ∨ x = .params name k ∨ x = .cond name k := by
        intro s k hx
        cases s <;> simp_all [stmtKeys]
      have h := hof s k hx
      have h' := hof s' k' hx'
      grind
  · rintro x hx y hy rfl
    obtain ⟨⟨s, k⟩, -, hx⟩ := List.mem_flatMap.mp hx
    cases s <;> simp_all [stmtKeys]
    grind

theorem callsName_mem {p : WritePkt} (hp : p.blocks ≠ []) :
    callsName p.name 0 ∈ p.syms.map Prod.fst := by
  obtain ⟨blk, rest, hb⟩ := List.exists_cons_of_ne_nil hp
  simp [WritePkt.syms, hb, genCallsTables]

theorem funcsName_mem {p : WritePkt} (hp : p.blocks ≠ []) :
    funcsName p.name 0 ∈ p.syms.map Prod.fst := by
  obtain ⟨blk, rest, hb⟩ := List.exists_cons_of_ne_nil hp
  simp [WritePkt.syms, hb, genFuncTables]

theorem wpktName_mem {p : WritePkt} (hp : p.blocks ≠ []) :
    wpktName p.name 0 ∈ p.syms.map Prod.fst := by
  obtain ⟨blk, rest, hb⟩ := List.exists_cons_of_ne_nil hp
  simp [WritePkt.syms, hb, genWpktStruct]

/-- Two blocks define the table of calls twice. -/
theorem length_blocks {p : WritePkt} (hn : (p.syms.map Prod.fst).Nodup) : p.blocks.length ≤ 1 := by
  have hcalls : (p.blocks.zipIdx.map (genCallsTables p.name)).map Prod.fst =
      List.replicate p.blocks.length (callsName p.name 0) := by
    rw [List.map_map, List.eq_replicate_iff]
    refine ⟨by simp, fun x hx => ?_⟩
    obtain ⟨⟨blk, n⟩, -, rfl⟩ := List.mem_map.mp hx
    rfl
  have hsub : List.Sublist (List.replicate p.blocks.length (callsName p.name 0))
      (p.syms.map Prod.fst) := by
    rw [← hcalls]
    refine List.Sublist.map _ ?_
    exact ((List.sublist_append_left _ _).trans (List.sublist_append_right _ _)).trans
      (List.sublist_append_right _ _)
  exact List.nodup_replicate.mp (hn.sublist hsub)

/-- No name is defined twice if and only if every packet has one block, no two packets have the same
name, and none is called like a table of another. -/
theorem nodup_syms_iff {wpkts : List WritePkt} (hblk : ∀ p ∈ wpkts, p.blocks ≠ []) :
    ((wpkts.flatMap WritePkt.syms).map Prod.fst).Nodup ↔
      (∀ p ∈ wpkts, p.blocks.length = 1) ∧ (wpkts.map WritePkt.name).Nodup ∧
        ∀ p ∈ wpkts, ∀ q ∈ wpkts, q.name ≠ "funcs_" ++ p.name ∧ q.name ≠ "calls_" ++ p.name := by
  constructor
  · intro hn
    rw [List.map_flatMap, List.nodup_flatMap] at hn
    obtain ⟨hself, hpair⟩ := hn
    have hne : ∀ p ∈ wpkts, ∀ q ∈ wpkts, ∀ x, x ∈ p.syms.map Prod.fst → x ∈ q.syms.map Prod.fst →
        p = q := by
      intro p hp q hq x hx hx'
      by_contra hpq
      have hsymm : Std.Symm (Function.onFun List.Disjoint fun p : WritePkt => p.syms.map Prod.fst) :=
        ⟨fun _ _ h => h.symm⟩
      exact hpair.forall hp hq hpq hx hx'
    have hlen : ∀ name name' : String, name ≠ "funcs_" ++ name ∧ name ≠ "calls_" ++ name := by
      intro name _
      constructor <;> intro h <;> simpa using congrArg String.length h
    refine ⟨fun p hp => ?_, ?_, fun p hp q hq => ⟨fun h => ?_, fun h => ?_⟩⟩
    · have hle := length_blocks (hself p hp)
      have hpos := List.length_pos_of_ne_nil (hblk p hp)
      omega
    · refine List.pairwise_map.mpr (hpair.imp_of_mem ?_)
      intro p q hp hq hdisj hname
      have hmem := callsName_mem (hblk q hq)
      rw [← hname] at hmem
      exact hdisj (callsName_mem (hblk p hp)) hmem
    · have hmem := wpktName_mem (hblk q hq)
      rw [← funcsName_eq_wpktName_iff.mpr h] at hmem
      have hpq := hne p hp q hq _ (funcsName_mem (hblk p hp)) hmem
      rw [← hpq] at h
      exact (hlen p.name p.name).1 h
    · have hmem := wpktName_mem (hblk q hq)
      rw [← callsName_eq_wpktName_iff.mpr h] at hmem
      have hpq := hne p hp q hq _ (callsName_mem (hblk p hp)) hmem
      rw [← hpq] at h
      exact (hlen p.name p.name).2 h
  · rintro ⟨hone, hnames, hclash⟩
    have hkeys : (wpkts.flatMap WritePkt.syms).map Prod.fst =
        (wpkts.flatMap fun p => keys p.name (p.blocks.headD [])).map Key.text := by
      rw [List.map_flatMap, List.map_flatMap]
      refine List.flatMap_congr fun p hp => ?_
      obtain ⟨blk, hb⟩ := List.length_eq_one_iff.mp (hone p hp)
      rw [keys_text, hb]
      obtain ⟨name, blocks⟩ := p
      rw [show blocks = [blk] from hb]
      rfl
    have hname : ∀ x ∈ wpkts.flatMap fun p => keys p.name (p.blocks.headD []),
        ∃ p ∈ wpkts, x.name = p.name := by
      intro x hx
      obtain ⟨p, hp, hx⟩ := List.mem_flatMap.mp hx
      exact ⟨p, hp, name_of_mem_keys hx⟩
    have hno : ∀ x ∈ wpkts.flatMap (fun p => keys p.name (p.blocks.headD [])),
        ∀ y ∈ wpkts.flatMap (fun p => keys p.name (p.blocks.headD [])), ¬ Clash x y := by
      intro x hx y hy hc
      obtain ⟨p, hp, hxp⟩ := hname x hx
      obtain ⟨q, hq, hyq⟩ := hname y hy
      cases x <;> cases y <;> simp only [Clash] at hc
      · exact (hclash p hp q hq).1 (by rw [← hxp, ← hyq]; exact hc)
      · exact (hclash p hp q hq).2 (by rw [← hxp, ← hyq]; exact hc)
    rw [hkeys]
    refine List.Nodup.map_on (fun x hx y hy h => Key.text_inj h (hno x hx y hy) (hno y hy x hx)) ?_
    rw [List.nodup_flatMap]
    refine ⟨fun p _ => nodup_keys _ _, (List.pairwise_map.mp hnames).imp ?_⟩
    intro p q hpq x hx hx'
    exact hpq ((name_of_mem_keys hx).symm.trans (name_of_mem_keys hx'))

/-! ## What is loaded -/

/-- The function of a statement. -/
def funcOf : WritePktStmt → Option (Params → Prog (List WlogEnt))
  | .struct cond loc size val => some (genStruct cond loc size val)
  | _ => none

/-- The call of a statement. -/
def callOf : WritePktStmt → Option (WpktCall String)
  | .call cond name exprs => some ⟨evalCond cond, exprs, wpktName name 0⟩
  | _ => none

variable {wpkts : List WritePkt} {syms : Syms}

theorem lookup_of_mem (hn : (syms.map Prod.fst).Nodup) {name : String} {x : Sym}
    (hx : (name, x) ∈ syms) : lookup syms name = some x := by
  induction syms with
  | nil => cases hx
  | cons s syms ih =>
    rw [List.map_cons, List.nodup_cons] at hn
    rw [lookup, List.find?_cons]
    rcases List.mem_cons.mp hx with rfl | hx
    · simp
    · have hne : s.1 ≠ name := fun h => hn.1 (h ▸ List.mem_map_of_mem hx)
      rw [decide_eq_false hne]
      exact ih hn.2 hx

theorem mem_of_lookup {name : String} {x : Sym} (hx : lookup syms name = some x) :
    (name, x) ∈ syms := by
  obtain ⟨⟨name', x'⟩, hfind, rfl⟩ := Option.map_eq_some_iff.mp hx
  have hname : name' = name := by simpa using List.find?_some hfind
  rw [← hname]
  exact List.mem_of_find?_eq_some hfind

theorem loadAll_filterMap {α β γ : Type} {l : List γ} {g : γ → Option α} {f : α → Option β}
    {r : γ → Option β} (h : ∀ x ∈ l, (g x).map f = (r x).map some) :
    loadAll f (l.filterMap g) = some (l.filterMap r) := by
  induction l with
  | nil => rfl
  | cons x l ih =>
    have hx := h x List.mem_cons_self
    have hl := ih fun y hy => h y (List.mem_cons_of_mem x hy)
    cases hg : g x with
    | none =>
      have hr : r x = none := by simpa [hg] using hx.symm
      rw [List.filterMap_cons_none hg, List.filterMap_cons_none hr]
      exact hl
    | some a =>
      obtain ⟨b, hr, hb⟩ : ∃ b, r x = some b ∧ f a = some b := by
        rw [hg, Option.map_some, eq_comm, Option.map_eq_some_iff] at hx
        obtain ⟨b, hb, hf⟩ := hx
        exact ⟨b, hb, hf.symm⟩
      rw [List.filterMap_cons_some hg, List.filterMap_cons_some hr, loadAll, hb, hl]
      rfl

theorem isSome_of_loadAll {α β : Type} {f : α → Option β} {l : List α} {l' : List β}
    (h : loadAll f l = some l') : ∀ a ∈ l, ∃ b, f a = some b := by
  induction l generalizing l' with
  | nil => exact fun a ha => absurd ha List.not_mem_nil
  | cons a l ih =>
    rw [loadAll] at h
    obtain ⟨b, hb, h⟩ := Option.bind_eq_some_iff.mp h
    obtain ⟨rest, hrest, -⟩ := Option.bind_eq_some_iff.mp h
    exact List.forall_mem_cons.mpr ⟨⟨b, hb⟩, ih hrest⟩

theorem filterMap_zipIdx {α β : Type} (f : α → Option β) (l : List α) :
    l.zipIdx.filterMap (fun x => f x.1) = l.filterMap f := by
  have hmap : l.zipIdx.filterMap (fun x => f x.1) = (l.zipIdx.map Prod.fst).filterMap f := by
    rw [List.filterMap_map]
    rfl
  rw [hmap, List.zipIdx_map_fst]

/-- The names that a program refers to. -/
def CallsKnown (wpkts : List WritePkt) : Prop :=
  ∀ p ∈ wpkts, ∀ blk ∈ p.blocks, ∀ cond name exprs, WritePktStmt.call cond name exprs ∈ blk →
    ∃ q ∈ wpkts, q.name = name

theorem mem_syms {p : WritePkt} (hp : p ∈ wpkts) {x : String × Sym} (hx : x ∈ p.syms) :
    x ∈ wpkts.flatMap WritePkt.syms := List.mem_flatMap.mpr ⟨p, hp, hx⟩

/-- The table entry of a packet with one block. -/
def rttOf (name : String) (blk : List WritePktStmt) : RttWpkt where
  funcC := (blk.zipIdx.filterMap (funcEntry name 0)).length
  funcs := funcsName name 0
  callC := (blk.zipIdx.filterMap (callEntry name 0)).length
  calls := callsName name 0
  next := none

theorem syms_of_blocks {p : WritePkt} {blk : List WritePktStmt} (hb : p.blocks = [blk]) :
    p.syms = blk.zipIdx.flatMap (stmtSyms p.name 0) ++
      [(funcsName p.name 0, .funcs (blk.zipIdx.filterMap (funcEntry p.name 0))),
        (callsName p.name 0, .calls (blk.zipIdx.filterMap (callEntry p.name 0))),
        (wpktName p.name 0, .wpkt (rttOf p.name blk))] := by
  simp only [WritePkt.syms, hb, List.zipIdx_cons, List.zipIdx_nil, List.flatMap_cons,
    List.flatMap_nil, List.append_nil]
  rfl

theorem wpkt_mem_syms {p : WritePkt} {blk : List WritePktStmt} (hb : p.blocks = [blk])
    {name : String} {w : RttWpkt} (h : (name, Sym.wpkt w) ∈ p.syms) :
    name = wpktName p.name 0 ∧ w = rttOf p.name blk := by
  rw [syms_of_blocks hb] at h
  rcases List.mem_append.mp h with h | h
  · obtain ⟨⟨s, k⟩, -, h⟩ := List.mem_flatMap.mp h
    cases s <;> simp [stmtSyms] at h
  · simpa using h

/-- What is loaded of a packet: the functions of its writes, and its calls. -/
theorem loadWpkt_eq (hn : ((wpkts.flatMap WritePkt.syms).map Prod.fst).Nodup)
    (hone : ∀ p ∈ wpkts, p.blocks.length = 1) (hcalls : CallsKnown wpkts) {p : WritePkt}
    (hp : p ∈ wpkts) {blk : List WritePktStmt} (hb : p.blocks = [blk]) :
    loadWpkt (wpkts.flatMap WritePkt.syms) (rttOf p.name blk) =
      some ⟨blk.filterMap funcOf, blk.filterMap callOf⟩ := by
  have hsyms := syms_of_blocks hb
  have hfuncs : lookup (wpkts.flatMap WritePkt.syms) (funcsName p.name 0) =
      some (.funcs (blk.zipIdx.filterMap (funcEntry p.name 0))) :=
    lookup_of_mem hn (mem_syms hp (by simp [hsyms]))
  have hcallTab : lookup (wpkts.flatMap WritePkt.syms) (callsName p.name 0) =
      some (.calls (blk.zipIdx.filterMap (callEntry p.name 0))) :=
    lookup_of_mem hn (mem_syms hp (by simp [hsyms]))
  have hstmt : ∀ s ∈ blk.zipIdx, ∀ x ∈ stmtSyms p.name 0 s,
      lookup (wpkts.flatMap WritePkt.syms) x.1 = some x.2 := by
    intro s hs x hx
    refine lookup_of_mem hn (mem_syms hp ?_)
    rw [hsyms]
    exact List.mem_append_left _ (List.mem_flatMap.mpr ⟨s, hs, hx⟩)
  have hloadFuncs : loadAll (loadFunc (wpkts.flatMap WritePkt.syms))
      (blk.zipIdx.filterMap (funcEntry p.name 0)) = some (blk.filterMap funcOf) := by
    rw [← filterMap_zipIdx funcOf]
    refine loadAll_filterMap fun x hx => ?_
    obtain ⟨s, k⟩ := x
    cases s with
    | struct cond loc size val =>
      have hl := hstmt _ hx _ List.mem_cons_self
      simp only [funcEntry, funcOf, Option.map_some, loadFunc, hl]
    | call cond name exprs => rfl
    | other => rfl
  have hloadCalls : loadAll (loadCall (wpkts.flatMap WritePkt.syms))
      (blk.zipIdx.filterMap (callEntry p.name 0)) = some (blk.filterMap callOf) := by
    rw [← filterMap_zipIdx callOf]
    refine loadAll_filterMap fun x hx => ?_
    obtain ⟨s, k⟩ := x
    cases s with
    | struct cond loc size val => rfl
    | call cond name exprs =>
      have hs : WritePktStmt.call cond name exprs ∈ blk := (List.mem_zipIdx' hx).2 ▸ List.getElem_mem _
      obtain ⟨q, hq, rfl⟩ := hcalls p hp blk (by simp [hb]) cond name exprs hs
      obtain ⟨blk', hb'⟩ := List.length_eq_one_iff.mp (hone q hq)
      have hcallee : lookup (wpkts.flatMap WritePkt.syms) (wpktName q.name 0) =
          some (.wpkt (rttOf q.name blk')) :=
        lookup_of_mem hn (mem_syms hq (by simp [syms_of_blocks hb']))
      have hparams := hstmt _ hx _ List.mem_cons_self
      have hcond := hstmt _ hx _ (List.mem_cons_of_mem _ List.mem_cons_self)
      simp only [callEntry, callOf, Option.map_some, loadCall, hparams, hcond, hcallee]
    | other => rfl
  simp only [loadWpkt, rttOf, hfuncs, hcallTab, List.take_length, hloadFuncs, hloadCalls]
  rfl

/-- What names and calls are like in a program that compiles and links. -/
structure Sound (wpkts : List WritePkt) : Prop where
  one : ∀ p ∈ wpkts, p.blocks.length = 1
  names : (wpkts.map WritePkt.name).Nodup
  tables : ∀ p ∈ wpkts, ∀ q ∈ wpkts, q.name ≠ "funcs_" ++ p.name ∧ q.name ≠ "calls_" ++ p.name
  calls : CallsKnown wpkts

theorem Linked.sound (hblk : ∀ p ∈ wpkts, p.blocks ≠ []) {tbl : String → Wpkt String}
    (hl : Linked (wpkts.flatMap WritePkt.syms) tbl) : Sound wpkts := by
  obtain ⟨hone, hnames, hclash⟩ := (nodup_syms_iff hblk).mp hl.nodup
  refine ⟨hone, hnames, hclash, ?_⟩
  intro p hp blk hb cond name exprs hs
  obtain ⟨blk', hb'⟩ := List.length_eq_one_iff.mp (hone p hp)
  have hblk' : blk = blk' := by simpa [hb'] using hb
  subst hblk'
  have hload := hl.load (wpktName p.name 0) (rttOf p.name blk)
    (mem_syms hp (by simp [syms_of_blocks hb']))
  -- the entry of the call has been loaded
  obtain ⟨k, hk⟩ : ∃ k, (WritePktStmt.call cond name exprs, k) ∈ blk.zipIdx := by
    obtain ⟨k, hk, heq⟩ := List.getElem_of_mem hs
    exact ⟨k, by rw [← heq]; simp [List.mem_zipIdx_iff_getElem?, hk]⟩
  have hentry : (getCallName p.name 0 k, getCondFuncName p.name 0 k, wpktName name 0) ∈
      blk.zipIdx.filterMap (callEntry p.name 0) :=
    List.mem_filterMap.mpr ⟨_, hk, rfl⟩
  have hcallTab : lookup (wpkts.flatMap WritePkt.syms) (callsName p.name 0) =
      some (.calls (blk.zipIdx.filterMap (callEntry p.name 0))) :=
    lookup_of_mem hl.nodup (mem_syms hp (by simp [syms_of_blocks hb']))
  have hfuncs : lookup (wpkts.flatMap WritePkt.syms) (funcsName p.name 0) =
      some (.funcs (blk.zipIdx.filterMap (funcEntry p.name 0))) :=
    lookup_of_mem hl.nodup (mem_syms hp (by simp [syms_of_blocks hb']))
  simp only [loadWpkt, rttOf, hfuncs, hcallTab, List.take_length] at hload
  obtain ⟨fs, -, hload⟩ := Option.bind_eq_some_iff.mp hload
  obtain ⟨cs, hcs, -⟩ := Option.bind_eq_some_iff.mp hload
  obtain ⟨c, hc⟩ := isSome_of_loadAll hcs _ hentry
  have hcallee : ∃ w, lookup (wpkts.flatMap WritePkt.syms) (wpktName name 0) = some (.wpkt w) := by
    rw [loadCall] at hc
    split at hc
    next hw => exact ⟨_, hw⟩
    next => cases hc
  obtain ⟨w, hw⟩ := hcallee
  obtain ⟨q, hq, hmem⟩ := List.mem_flatMap.mp (mem_of_lookup hw)
  obtain ⟨blk'', hb''⟩ := List.length_eq_one_iff.mp (hone q hq)
  exact ⟨q, hq, (wpktName_inj (wpkt_mem_syms hb'' hmem).1).symm⟩

theorem Sound.exists_linked (hs : Sound wpkts) :
    ∃ tbl, Linked (wpkts.flatMap WritePkt.syms) tbl := by
  have hblk : ∀ p ∈ wpkts, p.blocks ≠ [] := fun p hp hnil => by simpa [hnil] using hs.one p hp
  have hn := (nodup_syms_iff hblk).mpr ⟨hs.one, hs.names, hs.tables⟩
  refine ⟨fun name => ((lookup (wpkts.flatMap WritePkt.syms) name).bind fun x =>
    match x with
    | .wpkt w => loadWpkt (wpkts.flatMap WritePkt.syms) w
    | _ => none).getD ⟨[], []⟩, hn, fun name w hmem => ?_⟩
  obtain ⟨p, hp, hmem'⟩ := List.mem_flatMap.mp hmem
  obtain ⟨blk, hb⟩ := List.length_eq_one_iff.mp (hs.one p hp)
  obtain ⟨-, rfl⟩ := wpkt_mem_syms hb hmem'
  rw [lookup_of_mem hn hmem]
  simp only [Option.bind_some, loadWpkt_eq hn hs.one hs.calls hp hb, Option.getD_some]

/-- Code and tables compile and link if and only if every packet has one block, packets have different
names, none is called like a table of another, and every packet that is called is there. -/
theorem linked_iff (hblk : ∀ p ∈ wpkts, p.blocks ≠ []) (hgen : Generates wpkts syms) :
    (∃ tbl, Linked syms tbl) ↔
      (∀ p ∈ wpkts, p.blocks.length = 1) ∧ (wpkts.map WritePkt.name).Nodup ∧
        (∀ p ∈ wpkts, ∀ q ∈ wpkts, q.name ≠ "funcs_" ++ p.name ∧ q.name ≠ "calls_" ++ p.name) ∧
        CallsKnown wpkts := by
  obtain ⟨-, rfl⟩ := hgen
  constructor
  · rintro ⟨tbl, hl⟩
    have hs := hl.sound hblk
    exact ⟨hs.one, hs.names, hs.tables, hs.calls⟩
  · rintro ⟨hone, hnames, htables, hcalls⟩
    exact Sound.exists_linked ⟨hone, hnames, htables, hcalls⟩

/-- A packet that sets a bit and calls one that writes a byte. -/
def twoPackets : List WritePkt :=
  [⟨"write_fat", [[.call none "write_fat_n" pure,
      .struct none (fun _ => pure 0) (fun _ => pure 1) fun _ => pure 1]]⟩,
    ⟨"write_fat_n", [[.struct none (fun _ => pure 8) (fun _ => pure 8) fun _ => pure 2]]⟩]

theorem twoPackets_generates : Generates twoPackets (twoPackets.flatMap WritePkt.syms) :=
  ⟨by simp [twoPackets, WritePktStmt.HasProto], rfl⟩

theorem twoPackets_blocks : ∀ p ∈ twoPackets, p.blocks ≠ [] := by simp [twoPackets]

theorem twoPackets_sound : Sound twoPackets where
  one := by simp [twoPackets]
  names := by decide
  tables := by
    simp only [twoPackets, List.forall_mem_cons, List.not_mem_nil, false_imp_iff, implies_true]
    decide
  calls := by
    simp only [twoPackets, CallsKnown, List.mem_cons, List.not_mem_nil]
    simp +contextual

theorem linked_iff_twoPackets : (∃ tbl, Linked (twoPackets.flatMap WritePkt.syms) tbl) ↔
    (∀ p ∈ twoPackets, p.blocks.length = 1) ∧ (twoPackets.map WritePkt.name).Nodup ∧
      (∀ p ∈ twoPackets, ∀ q ∈ twoPackets,
        q.name ≠ "funcs_" ++ p.name ∧ q.name ≠ "calls_" ++ p.name) ∧ CallsKnown twoPackets :=
  linked_iff twoPackets_blocks twoPackets_generates

end Fsl.PacketTables
