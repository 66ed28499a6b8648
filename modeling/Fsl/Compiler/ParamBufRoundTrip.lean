import Fsl.Compiler.ParamBuf

/-!
# Parameter buffers round-trip

The words that an argument takes follow one another in the buffer, with no gap and no overlap, and
the encoder, the decoder and the two index functions agree on where each begins. What is loaded is
then what was stored, unless a scalar has the name of a value that was made before it, or an argument
that of the pointer to a later closure.
-/

namespace Fsl.ParamBuf

section Words

variable (Γ : Types)

/-- `elems_stored` for an argument. -/
def elemsStored (arg : String × String) : ℕ :=
  match Γ.find arg.1 with
  | some _ => Γ.getParamBufEntryCount arg.1 + 2
  | none => 1

/-- The index at which the loop stores argument `i`. -/
def startIdx (args : ArgsList) (i : ℕ) : ℕ := ((args.take i).map (elemsStored Γ)).sum

/-- The words of the buffer that belong to argument `i`. -/
def slots (args : ArgsList) (i : Fin args.length) : Set ℕ :=
  Set.Ico (startIdx Γ args i) (startIdx Γ args i + elemsStored Γ (args.get i))

/-- The value is one of the type: the buffer of a closure is that of its type. -/
def Val.HasType (ty : String) : Val → Prop
  | .scalar _ => Γ.find ty = none
  | .closure c => (Γ.find ty).isSome ∧ c.params.length = Γ.getParamBufEntryCount ty

def Typed (args : ArgsList) (vs : List Val) : Prop :=
  List.Forall₂ (fun arg v => Val.HasType Γ arg.1 v) args vs

end Words

/-- The words of a value, in the order of the buffer. -/
def Val.words : Val → List UInt64
  | .scalar v => [v]
  | .closure c => c.offset :: c.xlate :: c.params

variable {Γ : Types}

theorem getParamBufEntryCount_of_args_none {ty : String} {t : Ty} (ht : Γ.find ty = some t)
    (hargs : t.args = none) : Γ.getParamBufEntryCount ty = 0 := by
  rw [Types.getParamBufEntryCount]
  split
  · rfl
  · next t' ht' =>
    obtain rfl : t = t' := Option.some.inj (ht.symm.trans ht')
    split
    · rfl
    · next as has => exact absurd (hargs.symm.trans has) (by simp)

theorem getParamBufEntryCount_of_args {ty : String} {t : Ty} {as : ArgsList}
    (ht : Γ.find ty = some t) (hargs : t.args = some as) :
    Γ.getParamBufEntryCount ty = Γ.getNumParamBufEntries as := by
  rw [Types.getParamBufEntryCount]
  split
  · next hn => exact absurd (ht.symm.trans hn) (by simp)
  · next t' ht' =>
    obtain rfl : t = t' := Option.some.inj (ht.symm.trans ht')
    split
    · next hn => exact absurd (hargs.symm.trans hn) (by simp)
    · next as' has =>
      obtain rfl : as = as' := Option.some.inj (hargs.symm.trans has)
      unfold Types.getNumParamBufEntries Types.argEntries
      congr 1
      refine List.map_congr_left fun a _ => ?_
      split <;> rename_i h <;> rw [h]

theorem getParamBufEntryCount_of_no_args {ty : String} {t : Ty} (ht : Γ.find ty = some t)
    (hargs : t.getNumArgs = 0) : Γ.getParamBufEntryCount ty = 0 := by
  cases h : t.args with
  | none => exact getParamBufEntryCount_of_args_none ht h
  | some as =>
    have hnil : as = [] := by simpa [Ty.getNumArgs, h] using hargs
    rw [getParamBufEntryCount_of_args ht h, hnil]
    rfl

theorem Val.HasType.length_words {arg : String × String} {v : Val} (h : v.HasType Γ arg.1) :
    v.words.length = elemsStored Γ arg := by
  cases v with
  | scalar v =>
    rw [HasType] at h
    simp [words, elemsStored, h]
  | closure c =>
    obtain ⟨hsome, hlen⟩ := h
    obtain ⟨t, ht⟩ := Option.isSome_iff_exists.mp hsome
    simp [words, elemsStored, ht, hlen]

/-! ## Names -/

theorem lookupType_of_nodup {as : ArgsList} (h : (as.map Prod.snd).Nodup) {a : String × String}
    (ha : a ∈ as) : lookupType as a.2 = some a.1 := by
  cases hl : lookupType as a.2 with
  | none =>
    rw [lookupType, Option.map_eq_none_iff, List.find?_eq_none] at hl
    exact absurd (BEq.rfl : (a.2 == a.2) = true) (hl a (List.mem_reverse.mpr ha))
  | some ty =>
    obtain ⟨b, hb, rfl, hname⟩ := exists_mem_of_lookupType hl
    rw [List.inj_on_of_nodup_map h hb ha hname]

theorem getType_of_nodup {as : ArgsList} (h : (as.map Prod.snd).Nodup) {a : String × String}
    (ha : a ∈ as) : Γ.getType as a.2 = if (Γ.find a.1).isSome then some a.1 else none := by
  rw [Types.getType, lookupType_of_nodup h ha]
  rfl

/-- The index functions count for an argument what is stored for it. -/
theorem argEntries_of_nodup {as : ArgsList} (h : (as.map Prod.snd).Nodup) {a : String × String}
    (ha : a ∈ as) : Γ.argEntries as a.2 = elemsStored Γ a := by
  rw [Types.argEntries, getType_of_nodup h ha, elemsStored]
  cases Γ.find a.1 <;> rfl

theorem getParamBufBaseIdx_of_nodup {as : ArgsList} (h : (as.map Prod.snd).Nodup) (i : ℕ) :
    Γ.getParamBufBaseIdx as i = startIdx Γ as i := by
  rw [Types.getParamBufBaseIdx, startIdx]
  congr 1
  exact List.map_congr_left fun a ha => argEntries_of_nodup h (List.mem_of_mem_take ha)

theorem getNumParamBufEntries_of_nodup {as : ArgsList} (h : (as.map Prod.snd).Nodup) :
    Γ.getNumParamBufEntries as = startIdx Γ as as.length := by
  rw [startIdx, List.take_length, Types.getNumParamBufEntries]
  congr 1
  exact List.map_congr_left fun a ha => argEntries_of_nodup h ha

/-! ## Slots -/

theorem startIdx_succ {args : ArgsList} {i : ℕ} (hi : i < args.length) :
    startIdx Γ args (i + 1) = startIdx Γ args i + elemsStored Γ (args.get ⟨i, hi⟩) := by
  rw [startIdx, startIdx, List.take_succ_eq_append_getElem hi, List.map_append, List.sum_append]
  simp

theorem startIdx_mono (args : ArgsList) : Monotone (startIdx Γ args) := by
  refine monotone_nat_of_le_succ fun i => ?_
  by_cases hi : i < args.length
  · rw [startIdx_succ hi]
    omega
  · rw [startIdx, startIdx, List.take_of_length_le (by omega), List.take_of_length_le (by omega)]

theorem slots_eq (args : ArgsList) (i : Fin args.length) :
    slots Γ args i = Set.Ico (startIdx Γ args i) (startIdx Γ args (i + 1)) := by
  rw [slots, startIdx_succ i.isLt]

theorem disjoint_slots {args : ArgsList} {i j : Fin args.length} (h : i ≠ j) :
    Disjoint (slots Γ args i) (slots Γ args j) := by
  wlog hlt : i < j generalizing i j with H
  · exact (H h.symm (lt_of_le_of_ne (not_lt.mp hlt) h.symm)).symm
  · have hle : startIdx Γ args (i + 1) ≤ startIdx Γ args j := startIdx_mono args hlt
    rw [slots_eq, slots_eq, Set.disjoint_left]
    intro k hk hk'
    rw [Set.mem_Ico] at hk hk'
    omega

/-- A word below the end of the first `n` arguments belongs to one of them. -/
theorem exists_startIdx_le_lt {args : ArgsList} {n k : ℕ} (hk : k < startIdx Γ args n) :
    ∃ i < n, startIdx Γ args i ≤ k ∧ k < startIdx Γ args (i + 1) := by
  induction n with
  | zero => simp [startIdx] at hk
  | succ n ih =>
    by_cases hn : k < startIdx Γ args n
    · obtain ⟨i, hi, h⟩ := ih hn
      exact ⟨i, by omega, h⟩
    · exact ⟨n, by omega, not_lt.mp hn, hk⟩

theorem iUnion_slots (args : ArgsList) :
    ⋃ i, slots Γ args i = Set.Ico 0 (startIdx Γ args args.length) := by
  ext k
  simp only [Set.mem_iUnion, slots_eq, Set.mem_Ico, Nat.zero_le, true_and]
  constructor
  · rintro ⟨i, -, hk⟩
    exact hk.trans_le (startIdx_mono args i.isLt)
  · intro hk
    obtain ⟨i, hi, h⟩ := exists_startIdx_le_lt hk
    exact ⟨⟨i, hi⟩, h⟩

/-! ## Storing -/

theorem store_eq {buf : List UInt64} {i : ℕ} (h : i < buf.length) (v : UInt64) :
    store buf i v = some (buf.overwrite i [v]) := by
  rw [store, if_pos h, List.set_eq_overwrite h]

/-- A closure of the type goes to the buffer as its words. -/
theorem storeClosureIntoParamBuf_eq {ty : String} {t : Ty} (ht : Γ.find ty = some t) {c : Closure}
    (hc : c.params.length = Γ.getParamBufEntryCount ty) {buf : List UInt64} {pbIdx : ℕ}
    (hbuf : pbIdx + (Val.closure c).words.length ≤ buf.length) :
    storeClosureIntoParamBuf Γ buf pbIdx ty t c =
      some (buf.overwrite pbIdx (Val.closure c).words) := by
  simp only [Val.words, List.length_cons] at hbuf
  have h1 : (buf.overwrite pbIdx [c.offset]).length = buf.length :=
    List.length_overwrite (by simp; omega)
  have h2 : (buf.overwrite pbIdx [c.offset]).overwrite (pbIdx + 1) [c.xlate] =
      buf.overwrite pbIdx [c.offset, c.xlate] :=
    List.overwrite_overwrite [c.offset] _ (by simp; omega)
  have hlen : (buf.overwrite pbIdx [c.offset, c.xlate]).length = buf.length :=
    List.length_overwrite (by simp; omega)
  rw [storeClosureIntoParamBuf, store_eq (by omega), Option.bind_eq_bind, Option.bind_some,
    store_eq (by omega), Option.bind_some, h2]
  cases hargs : t.args with
  | none =>
    have hnil : c.params = [] := by
      rw [← List.length_eq_zero_iff, hc, getParamBufEntryCount_of_args_none ht hargs]
    rw [Val.words, hnil]
    rfl
  | some as =>
    have h3 : (buf.overwrite pbIdx [c.offset, c.xlate]).overwrite (pbIdx + 2) c.params =
        buf.overwrite pbIdx ([c.offset, c.xlate] ++ c.params) :=
      List.overwrite_overwrite [c.offset, c.xlate] _ (by simp; omega)
    rw [memcpy64, if_pos ⟨by omega, by omega⟩, ← hc, List.take_length, h3]
    rfl

theorem storeExprIntoParamBuf_eq {arg : String × String} {v : Val} (hv : v.HasType Γ arg.1)
    {buf : List UInt64} {pbIdx : ℕ} (hbuf : pbIdx + elemsStored Γ arg ≤ buf.length) :
    storeExprIntoParamBuf Γ arg v buf pbIdx =
      some (buf.overwrite pbIdx v.words, elemsStored Γ arg) := by
  cases v with
  | scalar v =>
    have hfind : Γ.find arg.1 = none := hv
    have helems : elemsStored Γ arg = 1 := by rw [elemsStored, hfind]
    simp only [storeExprIntoParamBuf, hfind, store_eq (show pbIdx < buf.length by omega), helems]
    rfl
  | closure c =>
    obtain ⟨hsome, hlen⟩ := hv
    obtain ⟨t, ht⟩ := Option.isSome_iff_exists.mp hsome
    have hwords : (Val.closure c).words.length = elemsStored Γ arg :=
      Val.HasType.length_words ⟨hsome, hlen⟩
    have helems : elemsStored Γ arg = Γ.getParamBufEntryCount arg.1 + 2 := by rw [elemsStored, ht]
    simp only [storeExprIntoParamBuf, ht, storeClosureIntoParamBuf_eq ht hlen (hwords ▸ hbuf),
      helems]
    rfl

theorem Typed.length_words {args : ArgsList} {vs : List Val} (h : Typed Γ args vs) :
    (vs.flatMap Val.words).length = (args.map (elemsStored Γ)).sum := by
  induction h with
  | nil => rfl
  | cons hv _ ih =>
    rw [List.flatMap_cons, List.length_append, ih, hv.length_words, List.map_cons, List.sum_cons]

/-- The loop lays the words of the values out one after the other. -/
theorem storeExprs_eq {args : ArgsList} {vs : List Val} (h : Typed Γ args vs) {buf : List UInt64}
    {pbIdx : ℕ} (hbuf : pbIdx + (args.map (elemsStored Γ)).sum ≤ buf.length) :
    storeExprs Γ args vs buf pbIdx =
      some (buf.overwrite pbIdx (vs.flatMap Val.words), pbIdx + (args.map (elemsStored Γ)).sum) := by
  induction h generalizing buf pbIdx with
  | nil => simp [storeExprs, List.overwrite_nil]
  | @cons arg v args vs hv _ ih =>
    rw [List.map_cons, List.sum_cons] at hbuf ⊢
    have hwords := hv.length_words
    have hlen : (buf.overwrite pbIdx v.words).length = buf.length :=
      List.length_overwrite (by omega)
    have hnext : (buf.overwrite pbIdx v.words).overwrite (pbIdx + elemsStored Γ arg)
        (vs.flatMap Val.words) = buf.overwrite pbIdx (v.words ++ vs.flatMap Val.words) := by
      rw [← hwords]
      exact List.overwrite_overwrite _ _ (by omega)
    rw [storeExprs, storeExprIntoParamBuf_eq hv (by omega), Option.bind_eq_bind, Option.bind_some]
    dsimp only
    rw [ih (by omega), hnext, List.flatMap_cons, Nat.add_assoc]

/-! ## Names of the emitted function -/

section Names

variable (Γ : Types) (uniq : List String → String → String)

/-- The names of the function's values after an argument is loaded. -/
def argSyms (syms : List String) (arg : String × String) : List String :=
  match Γ.find arg.1 with
  | some t => addNames uniq syms (cloSyms t arg.2)
  | none => arg.2 :: syms

/-- Each scalar has a name that no value bears when it is loaded. -/
def ScalarsFree : List String → ArgsList → Prop
  | _, [] => True
  | syms, arg :: args =>
    (Γ.find arg.1 = none → arg.2 ∉ syms) ∧ ScalarsFree (argSyms Γ uniq syms arg) args

/-- No argument has the name of the pointer to the closure of a later one. -/
def PtrsFree (args : ArgsList) : Prop :=
  args.Pairwise fun a b => (Γ.find b.1).isSome → a.2 ≠ "__ptr_" ++ b.2

end Names

variable {uniq : List String → String → String}

/-! ## Loading -/

/-- What is bound when an argument is loaded, the last first. -/
def bindings (arg : String × String) : Val → List (String × Val)
  | .scalar v => [(arg.2, .scalar v)]
  | .closure c => [(arg.2, .closure c), ("__ptr_" ++ arg.2, .closure c)]

/-- The variables after all arguments are loaded. -/
def varsAfter (vars : List (String × Val)) : ArgsList → List Val → List (String × Val)
  | arg :: args, v :: vs => varsAfter (bindings arg v ++ vars) args vs
  | _, _ => vars

/-- The closure is read back from its words. -/
theorem loadClosure_eq {ty : String} {t : Ty} (ht : Γ.find ty = some t) {c : Closure}
    (hc : c.params.length = Γ.getParamBufEntryCount ty) {buf post : List UInt64} {idx : ℕ}
    (hbuf : buf.drop idx = (Val.closure c).words ++ post) :
    loadClosure Γ buf ty t idx = some c := by
  have hget (k : ℕ) : buf[idx + k]? = ((Val.closure c).words ++ post)[k]? := by
    rw [← hbuf, List.getElem?_drop]
  have hoff : buf[idx]? = some c.offset := hget 0
  have hxl : buf[idx + 1]? = some c.xlate := hget 1
  have hdrop : buf.drop (idx + 2) = c.params ++ post := by
    rw [← List.drop_drop, hbuf]
    rfl
  rw [loadClosure, hoff, hxl]
  simp only [Option.bind_eq_bind, Option.bind_some]
  split
  · next h0 =>
    have hnil : c.params = [] := by
      rw [← List.length_eq_zero_iff, hc, getParamBufEntryCount_of_no_args ht h0]
    cases c
    simp_all
  · have hle : Γ.getParamBufEntryCount ty ≤ (c.params ++ post).length := by
      rw [List.length_append]
      omega
    rw [hdrop, memcpy64, if_pos ⟨hle, by simp⟩, ← hc, List.take_left,
      List.overwrite_zero_of_length (by simp)]
    rfl

theorem loadArg_eq (hu : Renames uniq) {arg : String × String} {v : Val}
    (hv : v.HasType Γ arg.1) {buf post : List UInt64} {idx : ℕ}
    (hbuf : buf.drop idx = v.words ++ post) (s : VarScope) :
    loadArg Γ uniq buf arg idx s =
      if Γ.find arg.1 = none → arg.2 ∉ s.syms
      then some (⟨bindings arg v ++ s.vars, argSyms Γ uniq s.syms arg⟩, idx + elemsStored Γ arg)
      else none := by
  cases v with
  | scalar v =>
    have hfind : Γ.find arg.1 = none := hv
    have hget : buf[idx]? = some v := by
      rw [← Nat.add_zero idx, ← List.getElem?_drop, hbuf]
      rfl
    have hiff : symName uniq s.syms arg.2 = arg.2 ↔ arg.2 ∉ s.syms := symName_eq_iff hu
    simp only [loadArg, hfind, hget, elemsStored, argSyms, createTmpI64, Option.bind_eq_bind,
      Option.bind_some, forall_const]
    by_cases hmem : arg.2 ∉ s.syms
    · rw [if_pos (hiff.mpr hmem), if_pos hmem, addName, hiff.mpr hmem]
      rfl
    · rw [if_neg fun h => hmem (hiff.mp h), if_neg hmem]
      rfl
  | closure c =>
    obtain ⟨hsome, hlen⟩ := hv
    obtain ⟨t, ht⟩ := Option.isSome_iff_exists.mp hsome
    have hbind : bindClosure uniq s t arg.2 c =
        ⟨bindings arg (.closure c) ++ s.vars, argSyms Γ uniq s.syms arg⟩ := by
      simp only [bindClosure, VarScope.bind, argSyms, ht, bindings]
      rfl
    simp only [loadArg, ht, loadClosure_eq ht hlen hbuf, elemsStored, Option.bind_eq_bind,
      Option.bind_some, hbind, reduceCtorEq, false_implies, if_true]
    rfl

/-- The loop stops at a scalar whose name is taken; otherwise every argument is bound to the value whose
words it finds. -/
theorem loadArgs_eq (hu : Renames uniq) {args : ArgsList} {vs : List Val} (hv : Typed Γ args vs)
    {buf post : List UInt64} {idx : ℕ} (hbuf : buf.drop idx = vs.flatMap Val.words ++ post)
    (s : VarScope) :
    (ScalarsFree Γ uniq s.syms args →
      (loadArgs Γ uniq buf args idx s).map VarScope.vars = some (varsAfter s.vars args vs)) ∧
    (¬ ScalarsFree Γ uniq s.syms args → loadArgs Γ uniq buf args idx s = none) := by
  induction hv generalizing idx s with
  | nil => exact ⟨fun _ => rfl, fun h => absurd trivial h⟩
  | @cons arg v args vs hv _ ih =>
    rw [List.flatMap_cons, List.append_assoc] at hbuf
    have hdrop : buf.drop (idx + elemsStored Γ arg) = vs.flatMap Val.words ++ post := by
      rw [← List.drop_drop, hbuf, ← hv.length_words, List.drop_left]
    rw [loadArgs, loadArg_eq hu hv hbuf, ScalarsFree]
    by_cases hfree : Γ.find arg.1 = none → arg.2 ∉ s.syms
    · rw [if_pos hfree, Option.bind_eq_bind, Option.bind_some, and_iff_right hfree]
      exact ih hdrop ⟨bindings arg v ++ s.vars, argSyms Γ uniq s.syms arg⟩
    · rw [if_neg hfree]
      exact ⟨fun h => absurd h.1 hfree, fun _ => rfl⟩

theorem lookup_bindings_of_ne {arg : String × String} {v : Val} {x : String} (hne : x ≠ arg.2)
    (hptr : (Γ.find arg.1).isSome → x ≠ "__ptr_" ++ arg.2) (hv : v.HasType Γ arg.1) (vars : List (String × Val)) :
    (bindings arg v ++ vars).lookup x = vars.lookup x := by
  cases v with
  | scalar v => rw [bindings, List.singleton_append, List.lookup_cons, beq_false_of_ne hne]
  | closure c =>
    rw [bindings, List.cons_append, List.lookup_cons, beq_false_of_ne hne, List.singleton_append,
      List.lookup_cons, beq_false_of_ne (hptr hv.1)]

/-- A variable that no later argument binds keeps its value. -/
theorem lookup_varsAfter {args : ArgsList} {vs : List Val} (hv : Typed Γ args vs) {x : String}
    (hx : ∀ b ∈ args, x ≠ b.2 ∧ ((Γ.find b.1).isSome → x ≠ "__ptr_" ++ b.2))
    (vars : List (String × Val)) : (varsAfter vars args vs).lookup x = vars.lookup x := by
  induction hv generalizing vars with
  | nil => rfl
  | @cons arg v args vs hv _ ih =>
    obtain ⟨harg, hargs⟩ := List.forall_mem_cons.mp hx
    rw [varsAfter, ih hargs, lookup_bindings_of_ne harg.1 harg.2 hv]

theorem lookup_bindings_self (arg : String × String) (v : Val) (vars : List (String × Val)) :
    (bindings arg v ++ vars).lookup arg.2 = some v := by
  cases v <;> simp [bindings]

/-- Where no pointer takes the name of an earlier argument, every argument has its value. -/
theorem forall₂_lookup_varsAfter {args : ArgsList} {vs : List Val} (hv : Typed Γ args vs)
    (hnodup : (args.map Prod.snd).Nodup) (hptrs : PtrsFree Γ args) (vars : List (String × Val)) :
    List.Forall₂ (fun arg v => (varsAfter vars args vs).lookup arg.2 = some v) args vs := by
  induction hv generalizing vars with
  | nil => exact .nil
  | @cons arg v args vs hv hvs ih =>
    rw [List.map_cons, List.nodup_cons] at hnodup
    obtain ⟨hfirst, hrest⟩ := List.pairwise_cons.mp hptrs
    refine .cons ?_ (ih hnodup.2 hrest _)
    have hx : ∀ b ∈ args, arg.2 ≠ b.2 ∧ ((Γ.find b.1).isSome → arg.2 ≠ "__ptr_" ++ b.2) := by
      refine fun b hb => ⟨fun heq => hnodup.1 ?_, hfirst b hb⟩
      exact List.mem_map.mpr ⟨b, hb, heq.symm⟩
    rw [varsAfter, lookup_varsAfter hvs hx, lookup_bindings_self]

/-! ## The round trip -/

theorem Typed.take {args : ArgsList} {vs : List Val} (h : Typed Γ args vs) (n : ℕ) :
    Typed Γ (args.take n) (vs.take n) :=
  List.forall₂_take n h

theorem Typed.get {args : ArgsList} {vs : List Val} (h : Typed Γ args vs) (i : Fin args.length) :
    (vs.get (i.cast h.length_eq)).HasType Γ (args.get i).1 :=
  List.Forall₂.get h i.isLt (h.length_eq ▸ i.isLt)

theorem sum_take_elemsStored (args : ArgsList) (i : ℕ) :
    ((args.take i).map (elemsStored Γ)).sum = startIdx Γ args i := rfl

/-- Where the loop stores argument `i`: it comes to the argument with the index `startIdx`, and
storing it leaves every word outside of its slots alone. -/
def StoredInSlots (Γ : Types) (args : ArgsList) (vs : List Val) (buf : List UInt64)
    (i : Fin args.length) : Prop :=
  ∃ b b', storeExprs Γ (args.take i) (vs.take i) buf 0 = some (b, startIdx Γ args i) ∧
    storeExprs Γ (args.take (i + 1)) (vs.take (i + 1)) buf 0 =
      some (b', startIdx Γ args (i + 1)) ∧
    ∀ j ∉ slots Γ args i, b'[j]? = b[j]?

theorem storedInSlots {args : ArgsList} {vs : List Val} (hv : Typed Γ args vs)
    {buf : List UInt64} (hbuf : startIdx Γ args args.length ≤ buf.length) (i : Fin args.length) :
    StoredInSlots Γ args vs buf i := by
  have hle (n : ℕ) (hn : n ≤ args.length) : startIdx Γ args n ≤ buf.length :=
    (startIdx_mono args hn).trans hbuf
  have hrun (n : ℕ) (hn : n ≤ args.length) : storeExprs Γ (args.take n) (vs.take n) buf 0 =
      some (buf.overwrite 0 ((vs.take n).flatMap Val.words), startIdx Γ args n) := by
    have hsum := hle n hn
    rw [← sum_take_elemsStored] at hsum ⊢
    rw [storeExprs_eq (hv.take n) (by omega), Nat.zero_add]
  have hlen : ((vs.take i).flatMap Val.words).length = startIdx Γ args i := (hv.take i).length_words
  have hwords : (vs.get (i.cast hv.length_eq)).words.length = elemsStored Γ (args.get i) :=
    (hv.get i).length_words
  have hend : startIdx Γ args i + elemsStored Γ (args.get i) ≤ buf.length := by
    have h := hle (i + 1) i.isLt
    rwa [startIdx_succ i.isLt] at h
  have hstep : buf.overwrite 0 ((vs.take (i + 1)).flatMap Val.words) =
      (buf.overwrite 0 ((vs.take i).flatMap Val.words)).overwrite (startIdx Γ args i)
        (vs.get (i.cast hv.length_eq)).words := by
    have hi : (i : ℕ) < vs.length := hv.length_eq ▸ i.isLt
    rw [List.take_succ_eq_append_getElem hi, List.flatMap_append, List.flatMap_singleton,
      ← List.overwrite_overwrite _ _ (by omega), hlen, Nat.zero_add]
    rfl
  refine ⟨_, _, hrun i i.isLt.le, hrun (i + 1) i.isLt, fun j hj => ?_⟩
  rw [hstep]
  refine List.getElem?_overwrite_of_not_mem ?_ ?_
  · rw [List.length_overwrite (by omega)]
    omega
  · rwa [hwords]

theorem storeExprList_eq {args : ArgsList} (hnodup : (args.map Prod.snd).Nodup) {vs : List Val}
    (hv : Typed Γ args vs) {buf : List UInt64} (hbuf : buf.length = Γ.getNumParamBufEntries args) :
    storeExprListIntoParamBuf Γ args vs buf =
      some (vs.flatMap Val.words, Γ.getNumParamBufEntries args) := by
  have hsum : (args.map (elemsStored Γ)).sum = Γ.getNumParamBufEntries args := by
    rw [getNumParamBufEntries_of_nodup hnodup, startIdx, List.take_length]
  have hwords : (vs.flatMap Val.words).length = buf.length := by rw [hv.length_words, hsum, hbuf]
  rw [storeExprListIntoParamBuf, storeExprs_eq hv (by omega), List.overwrite_zero_of_length hwords,
    hsum, Nat.zero_add]

/-- Storing the values and loading them back gives every argument its value; the arguments take the
words of the buffer between them, each where the index functions say. -/
structure RoundTrips (Γ : Types) (uniq : List String → String → String) (syms : List String)
    (args : ArgsList) (vs : List Val) (buf : List UInt64) : Prop where
  loads : ∃ buf' s,
    storeExprListIntoParamBuf Γ args vs buf = some (buf', Γ.getNumParamBufEntries args) ∧
    loadArgsFromArray Γ uniq buf' args ⟨[], syms⟩ = some s ∧
    List.Forall₂ (fun arg v => s.getVar arg.2 = some v) args vs
  stores : ∀ i, StoredInSlots Γ args vs buf i
  disjoint : ∀ i j, i ≠ j → Disjoint (slots Γ args i) (slots Γ args j)
  cover : ⋃ i, slots Γ args i = Set.Ico 0 (Γ.getNumParamBufEntries args)
  base : ∀ i : Fin args.length, Γ.getParamBufBaseIdx args i = startIdx Γ args i

theorem roundTrips_of_free (hu : Renames uniq) {syms : List String} {args : ArgsList}
    (hnodup : (args.map Prod.snd).Nodup) (hscalars : ScalarsFree Γ uniq syms args)
    (hptrs : PtrsFree Γ args) {vs : List Val} (hv : Typed Γ args vs) {buf : List UInt64}
    (hbuf : buf.length = Γ.getNumParamBufEntries args) :
    RoundTrips Γ uniq syms args vs buf := by
  have hnum : Γ.getNumParamBufEntries args = startIdx Γ args args.length :=
    getNumParamBufEntries_of_nodup hnodup
  have hdrop : (vs.flatMap Val.words).drop 0 = vs.flatMap Val.words ++ [] := by simp
  have hload := (loadArgs_eq hu hv hdrop ⟨[], syms⟩).1 hscalars
  obtain ⟨s, hs, hvars⟩ := Option.map_eq_some_iff.mp hload
  refine ⟨⟨_, s, storeExprList_eq hnodup hv hbuf, hs, ?_⟩, fun i => ?_, fun i j h => disjoint_slots h,
    ?_, fun i => ?_⟩
  · have hvals := forall₂_lookup_varsAfter hv hnodup hptrs []
    rw [← hvars] at hvals
    exact hvals
  · exact storedInSlots hv (by omega) i
  · rw [iUnion_slots, hnum]
  · exact getParamBufBaseIdx_of_nodup hnodup i

/-- A value for every argument; of the closures one is at 0 and the others at 1. -/
def sample (Γ : Types) (x : String) (arg : String × String) : Val :=
  match Γ.find arg.1 with
  | none => .scalar 0
  | some _ =>
    .closure ⟨if arg.2 = x then 0 else 1, List.replicate (Γ.getParamBufEntryCount arg.1) 0, 0⟩

theorem typed_sample (Γ : Types) (x : String) (args : ArgsList) :
    Typed Γ args (args.map (sample Γ x)) := by
  rw [Typed, List.forall₂_map_right_iff, List.forall₂_same]
  intro arg _
  cases h : Γ.find arg.1 with
  | none => simp only [sample, h, Val.HasType]
  | some t => simp [sample, h, Val.HasType]

theorem varsAfter_append (vars : List (String × Val)) (f : String × String → Val)
    (args args' : ArgsList) :
    varsAfter vars (args ++ args') ((args ++ args').map f) =
      varsAfter (varsAfter vars args (args.map f)) args' (args'.map f) := by
  induction args generalizing vars with
  | nil => rfl
  | cons arg args ih => exact ih _

/-- The pointer to a closure takes the name of an earlier argument. -/
theorem lookup_varsAfter_ptr {pre post : ArgsList} {a b : String × String} (ha : a ∈ pre)
    (hnodup : ((pre ++ b :: post).map Prod.snd).Nodup) (hb : (Γ.find b.1).isSome)
    (hptr : a.2 = "__ptr_" ++ b.2) (vars : List (String × Val)) :
    (varsAfter vars (pre ++ b :: post) ((pre ++ b :: post).map (sample Γ a.2))).lookup a.2 =
      some (sample Γ a.2 b) := by
  rw [List.map_append, List.map_cons, List.nodup_append, List.nodup_cons] at hnodup
  obtain ⟨-, ⟨hbpost, -⟩, hapart⟩ := hnodup
  have hapart' : ∀ d ∈ b :: post, a.2 ≠ d.2 := fun d hd =>
    hapart _ (List.mem_map_of_mem ha) _ (List.mem_map_of_mem hd)
  have hpost : ∀ d ∈ post, a.2 ≠ d.2 ∧ ((Γ.find d.1).isSome → a.2 ≠ "__ptr_" ++ d.2) := by
    refine fun d hd => ⟨hapart' d (List.mem_cons_of_mem b hd), fun _ heq => hbpost ?_⟩
    have hname : b.2 = d.2 := String.append_right_inj _ |>.mp (hptr.symm.trans heq)
    exact List.mem_map.mpr ⟨d, hd, hname.symm⟩
  obtain ⟨t, ht⟩ := Option.isSome_iff_exists.mp hb
  rw [varsAfter_append, List.map_cons, varsAfter,
    lookup_varsAfter (typed_sample Γ a.2 post) hpost]
  have hne : a.2 ≠ b.2 := hapart' b List.mem_cons_self
  obtain ⟨c, hc⟩ : ∃ c, sample Γ a.2 b = .closure c := by
    rw [sample, ht]
    exact ⟨_, rfl⟩
  rw [hc, bindings, List.cons_append, List.lookup_cons, beq_false_of_ne hne, ← hptr,
    List.singleton_append, List.lookup_cons, BEq.rfl]

theorem sample_ne {a b : String × String} (hb : (Γ.find b.1).isSome) (hne : b.2 ≠ a.2) :
    sample Γ a.2 a ≠ sample Γ a.2 b := by
  obtain ⟨t, ht⟩ := Option.isSome_iff_exists.mp hb
  cases ha : Γ.find a.1 with
  | none => simp [sample, ha, ht]
  | some t' => simp [sample, ha, ht, hne]

/-- Whatever the values are, the arguments make the round trip exactly if no scalar has a name that is
taken when it is loaded, and no argument has the name of the pointer to the closure of a later one. -/
theorem roundTrips_iff (hu : Renames uniq) (syms : List String) {args : ArgsList}
    (hnodup : (args.map Prod.snd).Nodup) :
    (∀ vs buf, Typed Γ args vs → buf.length = Γ.getNumParamBufEntries args →
      RoundTrips Γ uniq syms args vs buf) ↔
    ScalarsFree Γ uniq syms args ∧ PtrsFree Γ args := by
  constructor
  · intro h
    have hloads : ∀ x, ∃ s, loadArgs Γ uniq ((args.map (sample Γ x)).flatMap Val.words) args 0
        ⟨[], syms⟩ = some s ∧
          ∀ a ∈ args, s.getVar a.2 = some (sample Γ x a) := by
      intro x
      have hv := typed_sample Γ x args
      have hlen : (List.replicate (Γ.getNumParamBufEntries args) (0 : UInt64)).length =
          Γ.getNumParamBufEntries args := List.length_replicate
      obtain ⟨buf', s, hstore, hload, hvals⟩ := (h _ _ hv hlen).loads
      rw [storeExprList_eq hnodup hv hlen] at hstore
      cases hstore
      refine ⟨s, hload, ?_⟩
      rwa [List.forall₂_map_right_iff, List.forall₂_same] at hvals
    have hdrop : ∀ x, ((args.map (sample Γ x)).flatMap Val.words).drop 0 =
        (args.map (sample Γ x)).flatMap Val.words ++ [] := fun x => by simp
    have hscalars : ScalarsFree Γ uniq syms args := by
      by_contra hnot
      obtain ⟨s, hload, -⟩ := hloads ""
      rw [(loadArgs_eq hu (typed_sample Γ "" args) (hdrop "") ⟨[], syms⟩).2 hnot] at hload
      cases hload
    refine ⟨hscalars, ?_⟩
    rw [PtrsFree, List.pairwise_iff_getElem]
    intro i j hi hj hij hb hptr
    obtain ⟨s, hload, hvals⟩ := hloads args[i].2
    have hvars := (loadArgs_eq hu (typed_sample Γ args[i].2 args) (hdrop _) ⟨[], syms⟩).1 hscalars
    rw [hload] at hvars
    have hsplit : args = args.take j ++ args[j] :: args.drop (j + 1) := by
      rw [← List.drop_eq_getElem_cons hj, List.take_append_drop]
    have hmem : args[i] ∈ args.take j := List.mem_take_iff_getElem.mpr ⟨i, by omega, rfl⟩
    have hptrval := lookup_varsAfter_ptr hmem (hsplit ▸ hnodup) hb hptr []
    rw [← hsplit] at hptrval
    have hval := hvals args[i] (List.getElem_mem hi)
    rw [VarScope.getVar, Option.some.inj hvars, hptrval] at hval
    have hne : args[j].2 ≠ args[i].2 := by
      have hpair := List.pairwise_iff_getElem.mp (List.pairwise_map.mp hnodup) i j hi hj hij
      exact hpair.symm
    exact sample_ne hb hne (Option.some.inj hval).symm
  · rintro ⟨hscalars, hptrs⟩ vs buf hv hbuf
    exact roundTrips_of_free hu hnodup hscalars hptrs hv hbuf

/-! ## A name that is taken -/

/-- `type t(u64 x)` -/
def oneParam : Types where
  find n := if n = "t" then some ⟨some [("u64", "x")]⟩ else none
  rank n := if n = "t" then 1 else 0
  acyclic := by
    intro n t as a hn hargs ha hsome
    obtain ⟨rfl, rfl⟩ : n = "t" ∧ t = ⟨some [("u64", "x")]⟩ := by
      split at hn
      · exact ⟨‹_›, (Option.some.inj hn).symm⟩
      · exact absurd hn (by simp)
    obtain rfl : as = [("u64", "x")] := (Option.some.inj hargs).symm
    obtain rfl : a = ("u64", "x") := List.mem_singleton.mp ha
    exact absurd hsome (by decide)

theorem oneParam_entryCount : oneParam.getParamBufEntryCount "t" = 1 := by
  rw [getParamBufEntryCount_of_args (t := ⟨some [("u64", "x")]⟩) rfl rfl]
  rfl

theorem oneParam_typed (x y : String) (c v w : UInt64) (p : UInt64) :
    Typed oneParam [("t", x), ("u64", y)] [.closure ⟨c, [p], v⟩, .scalar w] :=
  .cons ⟨rfl, by rw [oneParam_entryCount]; rfl⟩ (.cons rfl .nil)

theorem oneParam_numEntries {x y : String} (h : x ≠ y) :
    oneParam.getNumParamBufEntries [("t", x), ("u64", y)] = 4 := by
  have hnodup : (([("t", x), ("u64", y)] : ArgsList).map Prod.snd).Nodup := by simpa using h
  rw [getNumParamBufEntries_of_nodup hnodup]
  change oneParam.getParamBufEntryCount "t" + 2 + (1 + 0) = 4
  rw [oneParam_entryCount]

/-- A scalar may have the name that the buffer of a closure asks for, if it comes before the closure. -/
theorem roundTrips_scalar_first :
    RoundTrips oneParam firstFree ["entry"] [("u64", "a_params"), ("t", "a")]
      [.scalar 7, .closure ⟨8, [5], 0⟩] (List.replicate 4 0) := by
  have hnodup : (([("u64", "a_params"), ("t", "a")] : ArgsList).map Prod.snd).Nodup := by decide
  refine (roundTrips_iff renames_firstFree ["entry"] hnodup).mpr ⟨⟨fun _ => by decide, ?_⟩, ?_⟩ _ _ ?_ ?_
  · exact ⟨fun h => by simp [oneParam] at h, trivial⟩
  · rw [PtrsFree, List.pairwise_pair]
    exact fun _ => by decide
  · exact .cons rfl (.cons ⟨rfl, by rw [oneParam_entryCount]; rfl⟩ .nil)
  · rw [getNumParamBufEntries_of_nodup hnodup]
    change _ = 1 + (oneParam.getParamBufEntryCount "t" + 2 + 0)
    rw [oneParam_entryCount]
    rfl

/-- The buffer that a closure named `a` is copied to is itself named `a_params`, so a scalar argument
of that name does not get it. -/
theorem loadArgs_params_name (buf : List UInt64) :
    loadArgsFromArray oneParam firstFree buf [("t", "a"), ("u64", "a_params")] ⟨[], []⟩ = none := by
  have hfind : oneParam.find "t" = some ⟨some [("u64", "x")]⟩ := rfl
  rw [loadArgsFromArray, loadArgs, loadArg]
  simp only [hfind]
  cases loadClosure oneParam buf "t" ⟨some [("u64", "x")]⟩ 0 with
  | none => rfl
  | some c =>
    have hmem : "a_params" ∈
        (bindClosure firstFree ⟨[], []⟩ ⟨some [("u64", "x")]⟩ "a" c).syms := by
      change _ ∈ addNames firstFree [] (cloSyms ⟨some [("u64", "x")]⟩ "a")
      decide
    have hname : ∀ s : VarScope, "a_params" ∈ s.syms →
        symName firstFree s.syms "a_params" ≠ "a_params" := by
      intro s hs h
      exact (symName_eq_iff renames_firstFree).mp h hs
    have hscalar : oneParam.find "u64" = none := rfl
    simp only [Option.bind_eq_bind, Option.bind_some, pure, loadArgs, loadArg, hscalar,
      createTmpI64, if_neg (hname _ hmem)]
    cases buf[0 + (oneParam.getParamBufEntryCount "t" + 2)]? <;> rfl

theorem not_roundTrips_params_name :
    ¬ ∀ (Γ : Types) (uniq : List String → String → String) (syms : List String) (args : ArgsList)
      (vs : List Val) (buf : List UInt64), Renames uniq → (args.map Prod.snd).Nodup →
      (∀ a ∈ args, a.2 ∉ syms) → Typed Γ args vs → buf.length = Γ.getNumParamBufEntries args →
      RoundTrips Γ uniq syms args vs buf := by
  intro h
  have hne : "a" ≠ "a_params" := by decide
  have hlen : (List.replicate 4 (0 : UInt64)).length =
      oneParam.getNumParamBufEntries [("t", "a"), ("u64", "a_params")] := by
    rw [oneParam_numEntries hne]
    rfl
  obtain ⟨buf', s, -, hload, -⟩ := (h oneParam firstFree [] [("t", "a"), ("u64", "a_params")]
    [.closure ⟨8, [5], 0⟩, .scalar 7] (List.replicate 4 0) renames_firstFree (by decide)
    (by simp) (oneParam_typed _ _ _ _ _ _) hlen).loads
  rw [loadArgs_params_name] at hload
  cases hload

end Fsl.ParamBuf
