import Fsl.Compiler.Memo

/-!
# The order in which the table is filled

A function's slot is right exactly when its value does not depend on the functions from itself on,
in the order of the table. Filling the table is followed slot by slot: before function `f`, the slots
of the functions before it hold their values and the others hold zeros.
-/

namespace Fsl.Memo

open ParamBuf

variable {σ : Type}

namespace Program

variable {p : Program σ} {mode : Mode} {d : Disk}

/-! ## Runs -/

theorem mem_memoised {f : Func σ} : f ∈ p.memoised ↔ f ∈ p.funcsList ∧ f.numArgs = 0 := by
  simp [memoised]

theorem callee_spec {name : String} {args : List Val} {f : Func σ}
    (h : p.callee name args = some f) : f ∈ p.funcsList ∧ args.length = f.numArgs := by
  obtain ⟨hfind, hargs⟩ := Option.filter_eq_some_iff.mp h
  exact ⟨List.mem_of_find?_eq_some hfind, by simpa using hargs⟩

/-- A run asks the table for memoised functions only. -/
theorem eval_congr {m m' : Func σ → Option Val} (h : ∀ g ∈ p.memoised, m g = m' g) (n : ℕ) (s : σ) :
    p.eval mode d (some m) n s = p.eval mode d (some m') n s := by
  induction n generalizing s with
  | zero => rfl
  | succ n ih =>
    rw [eval, eval]
    cases p.next s with
    | ret v => rfl
    | tau s => exact ih s
    | read addr width k =>
      cases hr : Pread.diskPhys mode d addr.toNat width with
      | ok v =>
        simp only [hr]
        exact ih _
      | error e => simp only [hr]
    | call f args k =>
      cases hf : p.callee f args with
      | none => simp only [hf, Option.bind_none]
      | some g =>
        simp only [hf, Option.bind_some, ih]
        by_cases h0 : g.numArgs = 0
        · rw [if_pos h0, if_pos h0, h g (mem_memoised.mpr ⟨(callee_spec hf).1, h0⟩)]
        · rw [if_neg h0, if_neg h0]

theorem bind_mono {α β : Type} {x y : Option α} {f g : α → Option β}
    (hx : ∀ a, x = some a → y = some a) (hf : ∀ a b, f a = some b → g a = some b) {b : β}
    (h : x.bind f = some b) : y.bind g = some b := by
  obtain ⟨a, ha, hb⟩ := Option.bind_eq_some_iff.mp h
  exact Option.bind_eq_some_iff.mpr ⟨a, hx a ha, hf a b hb⟩

theorem eval_succ {memo : Option (Func σ → Option Val)} {n : ℕ} {s : σ} {v : Val}
    (h : p.eval mode d memo n s = some v) : p.eval mode d memo (n + 1) s = some v := by
  induction n generalizing s v with
  | zero => cases h
  | succ n ih =>
    rw [eval] at h ⊢
    cases hs : p.next s with
    | ret w =>
      rw [hs] at h
      exact h
    | tau s =>
      rw [hs] at h
      exact ih h
    | read addr width k =>
      rw [hs] at h
      cases hr : Pread.diskPhys mode d addr.toNat width with
      | ok w =>
        simp only [hr] at h ⊢
        exact ih h
      | error e =>
        simp only [hr] at h
        cases h
    | call f args k =>
      rw [hs] at h
      refine bind_mono (fun g hg => hg) (fun g w hw => ?_) h
      refine bind_mono (fun a ha => ?_) (fun a b hb => ih hb) hw
      have hcall : ∀ {b}, (p.eval mode d memo n (g.entry args)).bind g.ret.returns = some b →
          (p.eval mode d memo (n + 1) (g.entry args)).bind g.ret.returns = some b :=
        fun hb => bind_mono (fun _ => ih) (fun _ _ hc => hc) hb
      cases memo with
      | none => exact hcall ha
      | some m =>
        by_cases h0 : g.numArgs = 0
        · simpa only [if_pos h0] using ha
        · simp only [if_neg h0] at ha ⊢
          exact hcall ha

theorem eval_mono {memo : Option (Func σ → Option Val)} {n n' : ℕ} (hn : n ≤ n') {s : σ} {v : Val}
    (h : p.eval mode d memo n s = some v) : p.eval mode d memo n' s = some v := by
  induction hn with
  | refl => exact h
  | step _ ih => exact eval_succ ih

theorem callFunc_mono {memo : Option (Func σ → Option Val)} {n n' : ℕ} (hn : n ≤ n') {f : Func σ}
    {args : List Val} {v : Val} (h : p.callFunc mode d memo n f args = some v) :
    p.callFunc mode d memo n' f args = some v :=
  bind_mono (fun _ => eval_mono hn) (fun _ _ hc => hc) h

theorem Direct.unique {f : Func σ} {v w : Val} (hv : p.Direct mode d f v)
    (hw : p.Direct mode d f w) : v = w := by
  obtain ⟨n, hn⟩ := hv
  obtain ⟨m, hm⟩ := hw
  have hv' := callFunc_mono (le_max_left n m) hn
  rw [callFunc_mono (le_max_right n m) hm] at hv'
  exact (Option.some.inj hv').symm

end Program

/-! ## Slots -/

/-- The functions with their indices, from `i` on. -/
def slots : ℕ → List (Func σ) → List (Func σ × ℕ)
  | _, [] => []
  | i, f :: fs => (f, i) :: slots (i + f.ret.getNumTabEntries) fs

theorem map_fst_slots (i : ℕ) (fs : List (Func σ)) : (slots i fs).map Prod.fst = fs := by
  induction fs generalizing i with
  | nil => rfl
  | cons f fs ih => rw [slots, List.map_cons, ih]

theorem foldl_registerFunction (fs : List (Func σ)) (mt : MemoTab σ) :
    fs.foldl MemoTab.registerFunction mt =
      ⟨mt.entries ++ slots mt.last fs, mt.last + (fs.map fun f => f.ret.getNumTabEntries).sum⟩ := by
  induction fs generalizing mt with
  | nil => simp [slots]
  | cons f fs ih =>
    rw [List.foldl_cons, ih]
    simp [MemoTab.registerFunction, slots, Nat.add_assoc]

/-- The entries of a slot. -/
def InSlot (e : Func σ × ℕ) (i : ℕ) : Prop := e.2 ≤ i ∧ i < e.2 + e.1.ret.getNumTabEntries

theorem le_of_mem_slots {i : ℕ} {fs : List (Func σ)} {e : Func σ × ℕ} (he : e ∈ slots i fs) :
    i ≤ e.2 ∧ e.2 + e.1.ret.getNumTabEntries ≤
      i + (fs.map fun f => f.ret.getNumTabEntries).sum := by
  induction fs generalizing i with
  | nil => cases he
  | cons f fs ih =>
    rw [List.map_cons, List.sum_cons]
    rcases List.mem_cons.mp he with rfl | he
    · exact ⟨le_rfl, Nat.add_le_add_left (Nat.le_add_right _ _) _⟩
    · have hrest := ih he
      omega

theorem pairwise_slots (i : ℕ) (fs : List (Func σ)) :
    (slots i fs).Pairwise fun e e' => e.2 + e.1.ret.getNumTabEntries ≤ e'.2 := by
  induction fs generalizing i with
  | nil => exact List.Pairwise.nil
  | cons f fs ih => exact List.Pairwise.cons (fun e he => (le_of_mem_slots he).1) (ih _)

/-! ## One slot -/

section Slot

variable {tab tab' : Table} {e : Func σ × ℕ}

/-- The slot was not touched. -/
def ZeroAt (tab : Table) (e : Func σ × ℕ) : Prop := ∀ i, InSlot e i → tab i = .word 0

/-- The pointer to the parameters, where there is one, leads to the words after the closure. -/
def PtrAt (tab : Table) (e : Func σ × ℕ) : Prop :=
  ∀ paramC, e.1.ret = .type paramC → tab (e.2 + 1) = .ptr (e.2 + 3)

theorem copyWords_congr {idx n : ℕ} (h : ∀ i, idx ≤ i → i < idx + n → tab i = tab' i) :
    copyWords tab idx n = copyWords tab' idx n := by
  induction n generalizing idx with
  | zero => rfl
  | succ n ih =>
    rw [copyWords, copyWords, h idx le_rfl (by omega), ih fun i hi hi' => h i (by omega) (by omega)]

/-- The words of a list that lies in the table. -/
theorem copyWords_eq {idx : ℕ} {ws : List UInt64}
    (h : ∀ i (hi : i < ws.length), tab (idx + i) = .word (ws.get ⟨i, hi⟩)) :
    copyWords tab idx ws.length = some ws := by
  induction ws generalizing idx with
  | nil => rfl
  | cons w ws ih =>
    have hhead : tab idx = .word w := h 0 (by simp)
    have htail : copyWords tab (idx + 1) ws.length = some ws := by
      refine ih fun i hi => ?_
      have hi' := h (i + 1) (by simpa using hi)
      rwa [← Nat.add_assoc, Nat.add_right_comm] at hi'
    rw [List.length_cons, copyWords, hhead, htail]
    rfl

theorem inSlot_zero : InSlot e e.2 := by
  refine ⟨le_rfl, Nat.lt_add_of_pos_right ?_⟩
  cases e.1.ret with
  | bool => exact Nat.one_pos
  | prim => exact Nat.one_pos
  | type paramC => exact Nat.add_pos_left (by decide) paramC

theorem inSlot_of_type {paramC i : ℕ} (h : e.1.ret = .type paramC) (hi : i < 3 + paramC) :
    InSlot e (e.2 + i) := by
  refine ⟨by omega, ?_⟩
  rw [h, Ret.getNumTabEntries, rtCloElems]
  omega

/-- A filled slot keeps its value while only other slots change. -/
theorem memoFuncCall_congr (hptr : PtrAt tab e) (h : ∀ i, InSlot e i → tab i = tab' i) :
    memoFuncCall tab e.2 e.1.ret = memoFuncCall tab' e.2 e.1.ret := by
  cases hret : e.1.ret with
  | bool => rw [memoFuncCall, memoFuncCall, h _ inSlot_zero]
  | prim => rw [memoFuncCall, memoFuncCall, h _ inSlot_zero]
  | type paramC =>
    have hoff := h _ inSlot_zero
    have hxlate := h _ (inSlot_of_type hret (show 2 < 3 + paramC by omega))
    have hparams := h _ (inSlot_of_type hret (show 1 < 3 + paramC by omega))
    have hwords : copyWords tab (e.2 + 3) paramC = copyWords tab' (e.2 + 3) paramC := by
      refine copyWords_congr fun i hi hi' => ?_
      have hslot := inSlot_of_type hret (show i - e.2 < 3 + paramC by omega)
      rw [Nat.add_sub_cancel' (by omega : e.2 ≤ i)] at hslot
      exact h i hslot
    rw [memoFuncCall, memoFuncCall, ← hoff, ← hxlate, ← hparams, hptr paramC hret, copyParams,
      copyParams, hwords]

theorem memoFuncCall_zero (h : ZeroAt tab e) :
    memoFuncCall tab e.2 e.1.ret = Program.unfilled e.1.ret := by
  have hoff := h _ inSlot_zero
  cases hret : e.1.ret with
  | bool =>
    rw [memoFuncCall, hoff]
    rfl
  | prim =>
    rw [memoFuncCall, hoff]
    rfl
  | type paramC =>
    rw [memoFuncCall, hoff, h _ (inSlot_of_type hret (show 2 < 3 + paramC by omega)),
      h _ (inSlot_of_type hret (show 1 < 3 + paramC by omega))]
    cases paramC <;> rfl

theorem prepare_type (tab : Table) (idx paramC : ℕ) :
    Program.prepare tab idx (.type paramC) = Function.update tab (idx + 1) (.ptr (idx + 3)) := rfl

theorem keep_closure (junk : UInt64) (tab : Table) (idx paramC : ℕ) (c : Closure) (i : ℕ) :
    Program.keep junk tab idx (.type paramC) (.closure c) i =
      if i = idx then .word c.offset
      else if i = idx + 2 then .word c.xlate
      else if idx + 3 ≤ i ∧ i < idx + 3 + paramC then .word (c.params.getD (i - (idx + 3)) 0)
      else tab i := rfl

theorem prepare_of_ne {i : ℕ} (h : ¬ InSlot e i) : Program.prepare tab e.2 e.1.ret i = tab i := by
  cases hret : e.1.ret with
  | bool => rfl
  | prim => rfl
  | type paramC =>
    have hne : i ≠ e.2 + 1 := by
      rintro rfl
      exact h (inSlot_of_type hret (by omega))
    rw [prepare_type, Function.update_of_ne hne]

theorem keep_of_ne {junk : UInt64} {v : Val} {i : ℕ} (h : ¬ InSlot e i) :
    Program.keep junk tab e.2 e.1.ret v i = tab i := by
  have hne : i ≠ e.2 := by
    rintro rfl
    exact h inSlot_zero
  cases hret : e.1.ret with
  | bool =>
    cases v with
    | scalar w => exact Function.update_of_ne hne _ _
    | closure c => rfl
  | prim =>
    cases v with
    | scalar w => exact Function.update_of_ne hne _ _
    | closure c => rfl
  | type paramC =>
    cases v with
    | scalar w => rfl
    | closure c =>
      have hout : ¬ (e.2 ≤ i ∧ i < e.2 + (3 + paramC)) := by
        rw [InSlot, hret] at h
        exact h
      rw [keep_closure, if_neg hne, if_neg (by omega), if_neg (by omega)]

theorem memoFuncCall_prepare (h : ZeroAt tab e) :
    memoFuncCall (Program.prepare tab e.2 e.1.ret) e.2 e.1.ret =
      some (Program.filling e.1.ret) := by
  have hoff := h _ inSlot_zero
  cases hret : e.1.ret with
  | bool =>
    rw [Program.prepare, memoFuncCall, hoff]
    · rfl
    · simp
  | prim =>
    rw [Program.prepare, memoFuncCall, hoff]
    · rfl
    · simp
  | type paramC =>
    have hxlate := h _ (inSlot_of_type hret (show 2 < 3 + paramC by omega))
    have hwords : copyWords (Program.prepare tab e.2 (.type paramC)) (e.2 + 3) paramC =
        some (List.replicate paramC 0) := by
      rw [← congrArg (copyWords _ _) (List.length_replicate (n := paramC))]
      refine copyWords_eq fun i hi => ?_
      rw [List.length_replicate] at hi
      have hne : e.2 + 3 + i ≠ e.2 + 1 := by omega
      rw [prepare_type, Function.update_of_ne hne, Nat.add_assoc,
        h _ (inSlot_of_type hret (show 3 + i < 3 + paramC by omega))]
      simp
    rw [prepare_type] at hwords
    rw [memoFuncCall, prepare_type, Function.update_self, Function.update_of_ne (by omega),
      Function.update_of_ne (by omega), hoff, hxlate, copyParams, hwords]
    rfl

theorem ptrAt_keep (junk : UInt64) (tab : Table) (e : Func σ × ℕ) (v : Val) :
    PtrAt (Program.keep junk (Program.prepare tab e.2 e.1.ret) e.2 e.1.ret v) e := by
  intro paramC hret
  rw [hret]
  cases v with
  | scalar w => exact Function.update_self _ _ _
  | closure c =>
    rw [keep_closure, if_neg (by omega), if_neg (by omega), if_neg (by omega), prepare_type,
      Function.update_self]

/-- The bit survives whatever the rest of the register holds. -/
theorem low_bit (junk w : UInt64) : (2 * junk + w % 2) % 2 = w % 2 := by
  refine UInt64.toNat_inj.mp ?_
  have htwo : (2 : UInt64).toNat = 2 := rfl
  rw [UInt64.toNat_mod, UInt64.toNat_mod, UInt64.toNat_add, UInt64.toNat_mul, UInt64.toNat_mod, htwo]
  omega

theorem memoFuncCall_keep {junk : UInt64} {v w : Val} (h : e.1.ret.returns w = some v) :
    memoFuncCall (Program.keep junk (Program.prepare tab e.2 e.1.ret) e.2 e.1.ret v) e.2 e.1.ret =
      some v := by
  cases hret : e.1.ret with
  | bool =>
    rw [hret] at h
    cases w with
    | closure c => cases h
    | scalar w =>
      cases h
      rw [Program.keep, memoFuncCall, Function.update_self]
      exact congrArg some (congrArg Val.scalar (low_bit junk w))
  | prim =>
    rw [hret] at h
    cases w with
    | closure c => cases h
    | scalar w =>
      cases h
      rw [Program.keep, memoFuncCall, Function.update_self]
      rfl
  | type paramC =>
    rw [hret] at h
    cases w with
    | scalar w => cases h
    | closure c =>
      rw [Ret.returns] at h
      split at h
      case isFalse => cases h
      case isTrue hlen =>
        cases h
        have hptr := ptrAt_keep junk tab e (.closure ⟨c.offset, c.params.take paramC, c.xlate⟩)
        have hwords : copyWords (Program.keep junk (Program.prepare tab e.2 (.type paramC)) e.2
            (.type paramC) (.closure ⟨c.offset, c.params.take paramC, c.xlate⟩)) (e.2 + 3)
            (c.params.take paramC).length = some (c.params.take paramC) := by
          refine copyWords_eq fun i hi => ?_
          have hi' : i < paramC := by
            rw [List.length_take] at hi
            omega
          rw [keep_closure, if_neg (by omega), if_neg (by omega), if_pos (by omega),
            Nat.add_sub_cancel_left, List.getD_eq_getElem _ _ hi]
          rfl
        have hptr' := hptr paramC hret
        rw [hret] at hptr'
        rw [List.length_take, Nat.min_eq_left hlen] at hwords
        rw [memoFuncCall, hptr', copyParams, hwords, keep_closure, keep_closure, if_pos rfl,
          if_neg (by omega), if_pos rfl]
        rfl

end Slot

/-! ## Filling the table -/

namespace Program

variable {p : Program σ} {mode : Mode} {d : Disk} {junk : UInt64} {D : Func σ → Val}

theorem entries_eq (p : Program σ) : p.memoTab.entries = slots 0 p.memoised := by
  rw [memoTab, foldl_registerFunction]
  rfl

theorem last_eq (p : Program σ) :
    p.memoTab.last = (p.memoised.map fun f => f.ret.getNumTabEntries).sum := by
  rw [memoTab, foldl_registerFunction]
  exact Nat.zero_add _

theorem map_fst_entries (p : Program σ) : p.memoTab.entries.map Prod.fst = p.memoised := by
  rw [entries_eq, map_fst_slots]

theorem nodup_names (p : Program σ) : (p.memoised.map Func.name).Nodup :=
  List.Nodup.sublist (List.filter_sublist.map _) p.distinct

/-- A memoised function is found under its own index. -/
theorem getFuncIdx_eq {e : Func σ × ℕ} (he : e ∈ p.memoTab.entries) :
    p.memoTab.getFuncIdx e.1 = some e.2 := by
  have hnames : (p.memoTab.entries.map fun e => e.1.name).Nodup := by
    have hnames := p.nodup_names
    rwa [← map_fst_entries, List.map_map] at hnames
  rw [MemoTab.getFuncIdx, List.find?_of_nodup_map hnames he]
  rfl

theorem tabCall_eq {e : Func σ × ℕ} (he : e ∈ p.memoTab.entries) (tab : Table) :
    p.tabCall tab e.1 = memoFuncCall tab e.2 e.1.ret := by
  rw [tabCall, getFuncIdx_eq he]
  rfl

/-- The slots of `done` hold the values, those of `todo` were not touched. -/
structure FilledUpTo (D : Func σ → Val) (done todo : List (Func σ × ℕ)) (tab : Table) : Prop where
  value : ∀ e ∈ done, memoFuncCall tab e.2 e.1.ret = some (D e.1)
  ptr : ∀ e ∈ done, PtrAt tab e
  zero : ∀ e ∈ todo, ZeroAt tab e

theorem disjoint_of_entries {done todo : List (Func σ × ℕ)} {e e' : Func σ × ℕ}
    (hsplit : p.memoTab.entries = done ++ e :: todo) (he' : e' ∈ done ∨ e' ∈ todo) {i : ℕ}
    (hi : InSlot e' i) : ¬ InSlot e i := by
  have hpair := pairwise_slots 0 p.memoised
  rw [← entries_eq, hsplit, List.pairwise_append, List.pairwise_cons] at hpair
  obtain ⟨-, ⟨hafter, -⟩, hbefore⟩ := hpair
  rw [InSlot] at hi ⊢
  rcases he' with he' | he'
  · have hle := hbefore e' he' e (List.mem_cons_self)
    omega
  · have hle := hafter e' he'
    omega

/-- Where the functions stand in the order of the table. -/
theorem idxOf_lt_of_split {done todo : List (Func σ × ℕ)} {e e' : Func σ × ℕ}
    (hsplit : p.memoTab.entries = done ++ e :: todo) (he' : e' ∈ p.memoTab.entries) :
    (e' ∈ done ∧ (p.memoised.map Func.name).idxOf e'.1.name <
      (p.memoised.map Func.name).idxOf e.1.name) ∨ e' = e ∨
    (e' ∈ todo ∧ e'.1.name ≠ e.1.name ∧ ¬ (p.memoised.map Func.name).idxOf e'.1.name <
      (p.memoised.map Func.name).idxOf e.1.name) := by
  have hnames : p.memoised.map Func.name =
      done.map (fun e => e.1.name) ++ e.1.name :: todo.map fun e => e.1.name := by
    rw [← map_fst_entries, hsplit]
    simp [Function.comp_def]
  have hnodup := p.nodup_names
  rw [hnames, List.nodup_append] at hnodup
  obtain ⟨-, hnodup, hdisj⟩ := hnodup
  have hfresh : e.1.name ∉ done.map fun e => e.1.name :=
    fun hmem => hdisj _ hmem _ List.mem_cons_self rfl
  have hidx : (p.memoised.map Func.name).idxOf e.1.name = done.length := by
    rw [hnames, List.idxOf_append_of_notMem hfresh, List.idxOf_cons_self, List.length_map,
      Nat.add_zero]
  rw [hidx]
  rw [hsplit, List.mem_append, List.mem_cons] at he'
  rcases he' with he' | rfl | he'
  · left
    have hmem : e'.1.name ∈ done.map fun e => e.1.name := List.mem_map_of_mem he'
    rw [hnames, List.idxOf_append_of_mem hmem]
    exact ⟨he', by simpa using List.idxOf_lt_length_of_mem hmem⟩
  · exact Or.inr (Or.inl rfl)
  · right
    right
    have hmem : e'.1.name ∈ todo.map fun e => e.1.name := List.mem_map_of_mem he'
    have hne : e'.1.name ≠ e.1.name := fun heq => (List.nodup_cons.mp hnodup).1 (heq ▸ hmem)
    have hnot : e'.1.name ∉ done.map fun e => e.1.name :=
      fun hdone => hdisj _ hdone _ (List.mem_cons_of_mem _ hmem) rfl
    refine ⟨he', hne, ?_⟩
    rw [hnames, List.idxOf_append_of_notMem hnot, List.length_map]
    omega

/-- While `e` is filled, the table answers as `upTo` says. -/
theorem FilledUpTo.tabCall_prepare {done todo : List (Func σ × ℕ)} {e : Func σ × ℕ} {tab : Table}
    (hsplit : p.memoTab.entries = done ++ e :: todo) (h : FilledUpTo D done (e :: todo) tab) :
    ∀ g ∈ p.memoised, p.tabCall (prepare tab e.2 e.1.ret) g = p.upTo D e.1 g := by
  intro g hg
  rw [← map_fst_entries] at hg
  obtain ⟨e', he', rfl⟩ := List.mem_map.mp hg
  have hother : ∀ i, (e' ∈ done ∨ e' ∈ todo) → InSlot e' i →
      tab i = prepare tab e.2 e.1.ret i :=
    fun i hmem hi => (prepare_of_ne (disjoint_of_entries hsplit hmem hi)).symm
  rw [tabCall_eq he', upTo]
  rcases idxOf_lt_of_split hsplit he' with ⟨hmem, hlt⟩ | rfl | ⟨hmem, hne, hge⟩
  · rw [if_pos hlt, ← h.value e' hmem]
    exact (memoFuncCall_congr (h.ptr e' hmem) fun i hi => hother i (Or.inl hmem) hi).symm
  · rw [if_neg (lt_irrefl _), if_pos rfl]
    exact memoFuncCall_prepare (h.zero e' List.mem_cons_self)
  · rw [if_neg hge, if_neg hne]
    refine memoFuncCall_zero fun i hi => ?_
    rw [← hother i (Or.inr hmem) hi]
    exact h.zero e' (List.mem_cons_of_mem _ hmem) i hi

/-- One slot is filled. -/
theorem FilledUpTo.step {done todo : List (Func σ × ℕ)} {e : Func σ × ℕ} {tab : Table} {w : Val}
    (hsplit : p.memoTab.entries = done ++ e :: todo) (h : FilledUpTo D done (e :: todo) tab)
    (hw : e.1.ret.returns w = some (D e.1)) :
    FilledUpTo D (done ++ [e]) todo
      (keep junk (prepare tab e.2 e.1.ret) e.2 e.1.ret (D e.1)) := by
  have hother : ∀ e', (e' ∈ done ∨ e' ∈ todo) → ∀ i, InSlot e' i →
      tab i = keep junk (prepare tab e.2 e.1.ret) e.2 e.1.ret (D e.1) i := by
    intro e' hmem i hi
    have hnot := disjoint_of_entries hsplit hmem hi
    rw [keep_of_ne hnot, prepare_of_ne hnot]
  constructor
  · intro e' he'
    rcases List.mem_append.mp he' with hmem | hmem
    · rw [← h.value e' hmem]
      exact (memoFuncCall_congr (h.ptr e' hmem) (hother e' (Or.inl hmem))).symm
    · rw [List.mem_singleton.mp hmem]
      exact memoFuncCall_keep hw
  · intro e' he'
    rcases List.mem_append.mp he' with hmem | hmem
    · intro paramC hret
      rw [← hother e' (Or.inl hmem) _ (inSlot_of_type hret (by omega))]
      exact h.ptr e' hmem paramC hret
    · rw [List.mem_singleton.mp hmem]
      exact ptrAt_keep junk tab e (D e.1)
  · intro e' hmem i hi
    rw [← hother e' (Or.inr hmem) i hi]
    exact h.zero e' (List.mem_cons_of_mem _ hmem) i hi

/-- What `fsl_do_memo` did when it returned. -/
theorem doMemo_eq_some {n : ℕ} {tab tab' : Table} {e : Func σ × ℕ} :
    p.doMemo mode d junk n tab e = some tab' ↔
      ∃ v, p.callFunc mode d (some (p.tabCall (prepare tab e.2 e.1.ret))) n e.1 [] = some v ∧
        keep junk (prepare tab e.2 e.1.ret) e.2 e.1.ret v = tab' :=
  Option.map_eq_some_iff

theorem foldlM_doMemo_of_ne {n : ℕ} {l : List (Func σ × ℕ)} {tab tab' : Table}
    (h : l.foldlM (p.doMemo mode d junk n) tab = some tab') {i : ℕ} (hi : ∀ e ∈ l, ¬ InSlot e i) :
    tab' i = tab i := by
  induction l generalizing tab with
  | nil =>
    cases h
    rfl
  | cons e l ih =>
    obtain ⟨hie, hil⟩ := List.forall_mem_cons.mp hi
    rw [List.foldlM_cons] at h
    obtain ⟨tab1, h1, h⟩ := Option.bind_eq_some_iff.mp h
    obtain ⟨v, -, rfl⟩ := doMemo_eq_some.mp h1
    rw [ih h hil, keep_of_ne hie, prepare_of_ne hie]

theorem foldlM_doMemo_mono {n n' : ℕ} (hn : n ≤ n') {l : List (Func σ × ℕ)} {tab tab' : Table}
    (h : l.foldlM (p.doMemo mode d junk n) tab = some tab') :
    l.foldlM (p.doMemo mode d junk n') tab = some tab' := by
  induction l generalizing tab tab' with
  | nil => exact h
  | cons e l ih =>
    rw [List.foldlM_cons] at h ⊢
    refine bind_mono (fun tab1 h1 => ?_) (fun tab1 tab2 h2 => ih h2) h
    obtain ⟨v, hv, htab⟩ := doMemo_eq_some.mp h1
    exact doMemo_eq_some.mpr ⟨v, callFunc_mono hn hv, htab⟩

theorem callFunc_congr {m m' : Func σ → Option Val} (h : ∀ g ∈ p.memoised, m g = m' g) (n : ℕ)
    (f : Func σ) (args : List Val) :
    p.callFunc mode d (some m) n f args = p.callFunc mode d (some m') n f args := by
  rw [callFunc, callFunc, eval_congr h]

/-- The slots that are left are filled with the values exactly when these do not depend on them. -/
theorem FilledUpTo.fill_iff (mode : Mode) (d : Disk) (junk : UInt64)
    {done todo : List (Func σ × ℕ)} {tab : Table}
    (hsplit : p.memoTab.entries = done ++ todo) (h : FilledUpTo D done todo tab) :
    (∃ n tab', todo.foldlM (p.doMemo mode d junk n) tab = some tab' ∧
        ∀ e ∈ p.memoTab.entries, memoFuncCall tab' e.2 e.1.ret = some (D e.1)) ↔
      ∀ e ∈ todo, ∃ n, p.callFunc mode d (some (p.upTo D e.1)) n e.1 [] = some (D e.1) := by
  induction todo generalizing done tab with
  | nil =>
    rw [List.append_nil] at hsplit
    refine iff_of_true ⟨0, tab, rfl, fun e he => h.value e (hsplit ▸ he)⟩ fun e he => ?_
    cases he
  | cons e todo ih =>
    have hanswers := h.tabCall_prepare hsplit
    have hmem : e ∈ p.memoTab.entries := by
      rw [hsplit]
      exact List.mem_append_right _ List.mem_cons_self
    have hsplit' : p.memoTab.entries = (done ++ [e]) ++ todo := by
      rw [hsplit, List.append_assoc]
      rfl
    constructor
    · rintro ⟨n, tab', hfill, hvalues⟩
      rw [List.foldlM_cons] at hfill
      obtain ⟨tab1, h1, hfill⟩ := Option.bind_eq_some_iff.mp hfill
      obtain ⟨v, hv, rfl⟩ := doMemo_eq_some.mp h1
      rw [callFunc_congr hanswers] at hv
      obtain ⟨w, -, hw⟩ := Option.bind_eq_some_iff.mp hv
      -- the slot is not touched again, so `v` is what it holds in the end
      have hlater : memoFuncCall tab' e.2 e.1.ret = some v := by
        rw [← memoFuncCall_keep hw]
        refine (memoFuncCall_congr (ptrAt_keep junk tab e v) fun i hi => ?_).symm
        refine (foldlM_doMemo_of_ne hfill fun e' he' hi' => ?_).symm
        exact disjoint_of_entries hsplit (Or.inr he') hi' hi
      rw [hvalues e hmem] at hlater
      cases hlater
      refine List.forall_mem_cons.mpr ⟨⟨n, hv⟩, ?_⟩
      exact (ih hsplit' (h.step hsplit hw)).mp ⟨n, tab', hfill, hvalues⟩
    · intro hordered
      obtain ⟨⟨n, hv⟩, hrest⟩ := List.forall_mem_cons.mp hordered
      obtain ⟨w, -, hw⟩ := Option.bind_eq_some_iff.mp hv
      obtain ⟨n', tab', hfill, hvalues⟩ := (ih hsplit' (h.step hsplit hw)).mpr hrest
      refine ⟨max n n', tab', ?_, hvalues⟩
      rw [List.foldlM_cons]
      refine Option.bind_eq_some_iff.mpr ⟨_, doMemo_eq_some.mpr ⟨D e.1, ?_, rfl⟩,
        foldlM_doMemo_mono (le_max_right n n') hfill⟩
      rw [callFunc_congr hanswers]
      exact callFunc_mono (le_max_left n n') hv

theorem filledUpTo_zero (p : Program σ) (D : Func σ → Val) :
    FilledUpTo D [] p.memoTab.entries Table.zero := by
  constructor
  · intro e he
    cases he
  · intro e he
    cases he
  · intro e _ i _
    rfl

theorem pairwise_entries (p : Program σ) :
    p.memoTab.entries.Pairwise fun e e' =>
      ∀ i, ¬ (e.2 ≤ i ∧ i < e.2 + e.1.ret.getNumTabEntries ∧
        e'.2 ≤ i ∧ i < e'.2 + e'.1.ret.getNumTabEntries) := by
  rw [entries_eq]
  refine (pairwise_slots 0 p.memoised).imp fun hle i hi => ?_
  omega

theorem le_last (p : Program σ) {e : Func σ × ℕ} (he : e ∈ p.memoTab.entries) :
    e.2 + e.1.ret.getNumTabEntries ≤ p.memoTab.last := by
  rw [last_eq]
  rw [entries_eq] at he
  have hle := (le_of_mem_slots he).2
  omega

theorem forall_memoised_iff {q : Func σ → Prop} :
    (∀ f ∈ p.memoised, q f) ↔ ∀ e ∈ p.memoTab.entries, q e.1 := by
  rw [← map_fst_entries]
  exact List.forall_mem_map

/-- For every program whose functions without arguments have values on the disk, the table is sound
exactly when none of these values depends on the functions from itself on. -/
theorem sound_iff_ordered {D : Func σ → Val} (hD : ∀ f ∈ p.memoised, p.Direct mode d f (D f)) :
    p.Sound mode d junk ↔ p.Ordered mode d D := by
  have hvalues : ∀ tab : Table, (∀ f ∈ p.memoised, ∀ v, p.Direct mode d f v →
      p.tabCall tab f = some v) ↔
      ∀ e ∈ p.memoTab.entries, memoFuncCall tab e.2 e.1.ret = some (D e.1) := by
    intro tab
    constructor
    · intro h e he
      have hmem : e.1 ∈ p.memoised := by
        rw [← map_fst_entries]
        exact List.mem_map_of_mem he
      rw [← tabCall_eq he]
      exact h e.1 hmem (D e.1) (hD e.1 hmem)
    · intro h f hf v hv
      obtain ⟨e, he, rfl⟩ := List.mem_map.mp ((map_fst_entries p).symm ▸ hf)
      rw [tabCall_eq he, h e he, hv.unique (hD e.1 hf)]
  have hfill := (p.filledUpTo_zero D).fill_iff mode d junk (List.nil_append _).symm
  rw [Ordered, forall_memoised_iff, ← hfill]
  constructor
  · rintro ⟨⟨n, tab, hload, htab⟩, -⟩
    exact ⟨n, tab, hload, (hvalues tab).mp htab⟩
  · rintro ⟨n, tab, hload, htab⟩
    exact ⟨⟨n, tab, hload, (hvalues tab).mpr htab⟩, p.pairwise_entries, fun e he => p.le_last he⟩

/-! ## Functions that call earlier ones -/

/-- The values for the functions before `f`, and no answer for the others. -/
def before (p : Program σ) (D : Func σ → Val) (f g : Func σ) : Option Val :=
  let names := p.memoised.map Func.name
  if names.idxOf g.name < names.idxOf f.name then some (D g) else none

theorem eval_mono_memo {m m' : Func σ → Option Val} (h : ∀ g v, m g = some v → m' g = some v)
    {n : ℕ} {s : σ} {v : Val} (hv : p.eval mode d (some m) n s = some v) :
    p.eval mode d (some m') n s = some v := by
  induction n generalizing s v with
  | zero => cases hv
  | succ n ih =>
    rw [eval] at hv ⊢
    cases hs : p.next s with
    | ret w =>
      rw [hs] at hv
      exact hv
    | tau s =>
      rw [hs] at hv
      exact ih hv
    | read addr width k =>
      rw [hs] at hv
      cases hr : Pread.diskPhys mode d addr.toNat width with
      | ok w =>
        simp only [hr] at hv ⊢
        exact ih hv
      | error e =>
        simp only [hr] at hv
        cases hv
    | call f args k =>
      rw [hs] at hv
      refine bind_mono (fun g hg => hg) (fun g w hw => ?_) hv
      refine bind_mono (fun a ha => ?_) (fun a b hb => ih hb) hw
      by_cases h0 : g.numArgs = 0
      · simp only [if_pos h0] at ha ⊢
        exact h g a ha
      · simp only [if_neg h0] at ha ⊢
        exact bind_mono (fun _ => ih) (fun _ _ hc => hc) ha

/-- Answers that are the values of the functions can be replaced by their evaluation. -/
theorem eval_direct {m : Func σ → Option Val}
    (h : ∀ g ∈ p.memoised, ∀ v, m g = some v → p.Direct mode d g v) {n : ℕ} {s : σ} {v : Val}
    (hv : p.eval mode d (some m) n s = some v) : ∃ n', p.eval mode d none n' s = some v := by
  induction n generalizing s v with
  | zero => cases hv
  | succ n ih =>
    rw [eval] at hv
    cases hs : p.next s with
    | ret w =>
      rw [hs] at hv
      refine ⟨1, ?_⟩
      rw [eval, hs]
      exact hv
    | tau s' =>
      rw [hs] at hv
      obtain ⟨n', hn'⟩ := ih hv
      refine ⟨n' + 1, ?_⟩
      rw [eval, hs]
      exact hn'
    | read addr width k =>
      rw [hs] at hv
      cases hr : Pread.diskPhys mode d addr.toNat width with
      | ok w =>
        simp only [hr] at hv
        obtain ⟨n', hn'⟩ := ih hv
        refine ⟨n' + 1, ?_⟩
        rw [eval, hs]
        simp only [hr]
        exact hn'
      | error e =>
        simp only [hr] at hv
        cases hv
    | call f args k =>
      rw [hs] at hv
      obtain ⟨g, hg, hv⟩ := Option.bind_eq_some_iff.mp hv
      obtain ⟨w, hw, hv⟩ := Option.bind_eq_some_iff.mp hv
      obtain ⟨n₂, hn₂⟩ := ih hv
      -- the callee has the value `w`, whether it was asked for or run
      obtain ⟨n₁, hn₁⟩ : ∃ n₁, p.callFunc mode d none n₁ g args = some w := by
        by_cases h0 : g.numArgs = 0
        · simp only [if_pos h0] at hw
          have hargs : args = [] := by
            rw [← List.length_eq_zero_iff, (callee_spec hg).2, h0]
          rw [hargs]
          exact h g (mem_memoised.mpr ⟨(callee_spec hg).1, h0⟩) w hw
        · simp only [if_neg h0] at hw
          obtain ⟨u, hu, hret⟩ := Option.bind_eq_some_iff.mp hw
          obtain ⟨n₁, hn₁⟩ := ih hu
          exact ⟨n₁, Option.bind_eq_some_iff.mpr ⟨u, hn₁, hret⟩⟩
      refine ⟨max n₁ n₂ + 1, ?_⟩
      rw [eval, hs]
      refine Option.bind_eq_some_iff.mpr ⟨g, hg, Option.bind_eq_some_iff.mpr ⟨w, ?_, ?_⟩⟩
      · exact callFunc_mono (le_max_left n₁ n₂) hn₁
      · exact eval_mono (le_max_right n₁ n₂) hn₂

/-- A program in which each function only calls functions before it, directly or through functions
with arguments, is ordered. -/
theorem ordered_of_before (hD : ∀ f ∈ p.memoised, p.Direct mode d f (D f))
    (h : ∀ f ∈ p.memoised, ∃ n v, p.callFunc mode d (some (p.before D f)) n f [] = some v) :
    p.Ordered mode d D := by
  intro f hf
  obtain ⟨n, v, hv⟩ := h f hf
  have hvalue : D f = v := by
    obtain ⟨u, hu, hret⟩ := Option.bind_eq_some_iff.mp hv
    have hanswers : ∀ g ∈ p.memoised, ∀ w, p.before D f g = some w → p.Direct mode d g w := by
      intro g hg w hw
      rw [before] at hw
      split at hw
      · cases hw
        exact hD g hg
      · cases hw
    obtain ⟨n', hn'⟩ := eval_direct hanswers hu
    exact (hD f hf).unique ⟨n', Option.bind_eq_some_iff.mpr ⟨u, hn', hret⟩⟩
  rw [hvalue]
  refine ⟨n, bind_mono (fun u hu => eval_mono_memo (fun g w hw => ?_) hu) (fun _ _ hc => hc) hv⟩
  rw [before] at hw
  split at hw
  case isTrue hlt =>
    rwa [upTo, if_pos hlt]
  case isFalse => cases hw

end Program

/-! ## Two functions of the minix description -/

/-- The states of the two functions. -/
inductive MinixState
  | getVersion
  | getZoneSize
  | zoneSizeOf (version : Val)
  | done (v : UInt64)

/-- `minix_func.fsl`, with the magic number read where the third version keeps it. -/
def getVersion : Func MinixState := ⟨"get_version", 0, .prim, fun _ => .getVersion⟩

/-- `minix_fsck.fsl` -/
def getZoneSize : Func MinixState := ⟨"get_zone_size", 0, .prim, fun _ => .getZoneSize⟩

def minixNext : MinixState → Act MinixState
  | .getVersion => .read (8 * (1024 + 24)) ⟨16, by decide⟩ fun m =>
    .done (if m = 0x4d5a then 2 else 0)
  | .getZoneSize => .call "get_version" [] .zoneSizeOf
  | .zoneSizeOf version =>
    if version = .scalar 2 then .read (8 * (1024 + 12)) ⟨16, by decide⟩ .done
    else .read (8 * (1024 + 10)) ⟨16, by decide⟩ .done
  | .done v => .ret (.scalar v)

/-- The main file includes `minix_func.fsl` and then `minix_fsck.fsl`. -/
def minix : Program MinixState where
  first := none
  rest := [.incl (some getVersion) [], .incl (some getZoneSize) []]
  next := minixNext
  distinct := by decide

/-- The same with the two files in the other order. -/
def minixSwapped : Program MinixState where
  first := none
  rest := [.incl (some getZoneSize) [], .incl (some getVersion) []]
  next := minixNext
  distinct := by decide

/-- A disk of the third version whose first data zone is 42 and whose zone size is 0. -/
def minix3Disk : Disk :=
  Disk.ofFn 2048 (fun i => if i = 1048 then 0x5a else if i = 1049 then 0x4d
    else if i = 1034 then 42 else 0) (by norm_num)

/-- The values the two functions have on that disk. -/
def minixValue (f : Func MinixState) : Val := .scalar (if f.name = "get_version" then 2 else 0)

/-- With the second file included first, the table is sound. -/
theorem sound_minixSwapped : minixSwapped.Sound .little minix3Disk 0 := by
  have hD : ∀ f ∈ [getVersion, getZoneSize],
      minixSwapped.Direct .little minix3Disk f (minixValue f) := by
    simp only [List.forall_mem_cons, List.not_mem_nil, false_imp_iff, implies_true, and_true]
    exact ⟨⟨10, by decide +kernel⟩, ⟨10, by decide +kernel⟩⟩
  refine (Program.sound_iff_ordered hD).mpr ?_
  show ∀ f ∈ [getVersion, getZoneSize], _
  simp only [List.forall_mem_cons, List.not_mem_nil, false_imp_iff, implies_true, and_true]
  exact ⟨⟨10, by decide +kernel⟩, ⟨10, by decide +kernel⟩⟩

/-- As the files are included, the slot of `get_zone_size` holds the first data zone. -/
theorem not_sound_minix : ¬ minix.Sound .little minix3Disk 0 := by
  rintro ⟨⟨n, tab, hload, htab⟩, -⟩
  have hdirect : minix.Direct .little minix3Disk getZoneSize (.scalar 0) :=
    ⟨10, by decide +kernel⟩
  have hslot : (minix.loadMemo .little minix3Disk 0 10 Table.zero).bind
      (fun tab => minix.tabCall tab getZoneSize) = some (.scalar 42) := by decide +kernel
  obtain ⟨tab', hload', hslot⟩ := Option.bind_eq_some_iff.mp hslot
  have htabs : tab = tab' := by
    have hmax := Program.foldlM_doMemo_mono (le_max_left n 10) hload
    rw [Program.foldlM_doMemo_mono (le_max_right n 10) hload'] at hmax
    exact (Option.some.inj hmax).symm
  have hread := htab getZoneSize List.mem_cons_self (.scalar 0) hdirect
  rw [htabs, hslot] at hread
  exact absurd hread (by decide)

end Fsl.Memo
