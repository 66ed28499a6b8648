import Fsl.Compiler.LayoutBuild
import Fsl.Compiler.LayoutLim

/-!
# The layout functions follow the walk

The offset of the next field, as an expression over the functions of the fields so far, is followed
along the walk of the reference layout: it evaluates to the cursor, or to nothing once an array was
passed that is too long to be measured. A conditional keeps this by its invisible field, whichever
branch is taken; the fields of the other branch are absent.
-/

namespace Fsl.Layout

open OptionLim

/-- The functions of a type as equations for the calls `R`. -/
structure Solves (typesize : String → Clo → Option UInt64) (usize : String → Clo → Option UInt64)
    (d : Disk) (t : ThunkType) (clo : Clo) (R : Calls) : Prop where
  off : ∀ {f tf}, t.find f = some tf → R.thunk .off f = tf.off.eval d clo R
  elems : ∀ {f tf}, t.find f = some tf → R.thunk .elems f = tf.elems.eval R d clo 0
  size : ∀ {f tf}, t.find f = some tf →
    R.thunk .size f = tf.size.eval typesize (fun _ => usize) d clo 0 R tf
  arrayBits : ∀ {f tf ty} (num : UInt64), t.find f = some tf → tf.size = .user ty →
    R.arrayBits f num = (firstElem d clo R tf).bind fun first =>
      lim fun m => arrayLoop (typesize ty) (fun i => evalParams R d clo i tf.params) num m 0 first 0

theorem result_solves {typesize : String → Clo → Option UInt64}
    {unionsize : ℕ → String → Clo → Option UInt64} (hu : ∀ u c, Stable fun n => unionsize n u c)
    (d : Disk) (t : ThunkType) (clo : Clo) :
    Solves typesize (fun u c => lim fun n => unionsize n u c) d t clo
      (result typesize unionsize d t clo) where
  off h := result_off hu h
  elems h := result_elems hu h
  size h := result_size hu h
  arrayBits num h hty := result_arrayBits hu h hty num

/-! ## Elements -/

theorem elemBits_const (s : UInt64) (k i : ℕ) (off : UInt64) :
    elemBits (fun _ _ => some s) k i off = some (s * UInt64.ofNat k) := by
  induction k generalizing i off with
  | zero =>
    rw [elemBits]
    simp
  | succ k ih =>
    rw [elemBits, Option.bind_some, ih, Option.map_some]
    refine congrArg some ?_
    rw [UInt64.ofNat_add]
    grind

/-- Elements of one size. -/
theorem elemBits_filter {g : ℕ → UInt64 → Option UInt64} {s r : UInt64} {k i : ℕ} {off : UInt64}
    (h : elemBits (fun i off => (g i off).filter (· == s)) k i off = some r) :
    r = s * UInt64.ofNat k := by
  induction k generalizing i off r with
  | zero =>
    cases h
    simp
  | succ k ih =>
    rw [elemBits] at h
    obtain ⟨s', hs', h⟩ := Option.bind_eq_some_iff.mp h
    obtain ⟨r', hr', rfl⟩ := Option.map_eq_some_iff.mp h
    have hs : s' = s := by simpa using (Option.filter_eq_some_iff.mp hs').2
    rw [ih hr', hs, UInt64.ofNat_add]
    grind

theorem elemBits_mono {g g' : ℕ → UInt64 → Option UInt64}
    (h : ∀ i off v, g i off = some v → g' i off = some v) {k i : ℕ} {off r : UInt64}
    (hr : elemBits g k i off = some r) : elemBits g' k i off = some r := by
  induction k generalizing i off r with
  | zero => exact hr
  | succ k ih =>
    rw [elemBits] at hr ⊢
    obtain ⟨x, hx, hr⟩ := Option.bind_eq_some_iff.mp hr
    obtain ⟨y, hy, hr⟩ := Option.map_eq_some_iff.mp hr
    exact Option.bind_eq_some_iff.mpr ⟨x, h i off x hx, Option.map_eq_some_iff.mpr ⟨y, ih hy, hr⟩⟩

theorem toUInt64_ofNat {i : ℕ} (hi : i < 2 ^ 32) :
    (UInt32.ofNat i).toUInt64 = UInt64.ofNat i := by
  refine UInt64.toNat_inj.mp ?_
  rw [UInt32.toNat_toUInt64, UInt32.toNat_ofNat', UInt64.toNat_ofNat', Nat.mod_eq_of_lt hi,
    Nat.mod_eq_of_lt (by omega)]

/-- The loop of `__computeArrayBits` adds up the elements, if their number fits its counter. -/
theorem arrayLoop_elemBits {size : Clo → Option UInt64} {P : UInt64 → Option (List UInt64)}
    {num : UInt64} (hnum : num.toNat < 2 ^ 32) {k i : ℕ} (hk : i + k = num.toNat) {cur : Clo}
    {total r : UInt64} (hcur : 0 < k → P (UInt64.ofNat i) = some cur.params)
    (h : elemBits (fun i off => (P (UInt64.ofNat i)).bind fun ps => size ⟨off, ps⟩) k i cur.offset =
      some r) :
    arrayLoop size P num (k + 1) (UInt32.ofNat i) cur total = some (total + r) := by
  have hi : (UInt64.ofNat i).toNat = i := by
    rw [UInt64.toNat_ofNat', Nat.mod_eq_of_lt (by omega)]
  induction k generalizing i cur total r with
  | zero =>
    have hend : ¬ UInt64.ofNat i < num := by
      rw [UInt64.lt_iff_toNat_lt, hi]
      omega
    cases h
    rw [arrayLoop, toUInt64_ofNat (by omega), if_neg hend]
    simp
  | succ k ih =>
    have hlt : UInt64.ofNat i < num := by
      rw [UInt64.lt_iff_toNat_lt, hi]
      omega
    have hnext : UInt32.ofNat i + 1 = UInt32.ofNat (i + 1) := by
      rw [UInt32.ofNat_add]
      rfl
    rw [elemBits, hcur (Nat.succ_pos k), Option.bind_some] at h
    obtain ⟨s, hs, h⟩ := Option.bind_eq_some_iff.mp h
    obtain ⟨r', hr', rfl⟩ := Option.map_eq_some_iff.mp h
    -- the parameters of the next element, if there is one
    obtain ⟨ps, hps, hparams⟩ : ∃ ps, (if UInt64.ofNat i ≠ num - 1 then P (UInt64.ofNat (i + 1))
        else some cur.params) = some ps ∧ (0 < k → P (UInt64.ofNat (i + 1)) = some ps) := by
      have hlast : UInt64.ofNat i = num - 1 ↔ k = 0 := by
        have hone : (1 : UInt64).toNat = 1 := rfl
        have hle : 1 ≤ num := by
          rw [UInt64.le_iff_toNat_le, hone]
          omega
        rw [← UInt64.toNat_inj, hi, UInt64.toNat_sub_of_le _ _ hle, hone]
        omega
      cases k with
      | zero => exact ⟨cur.params, if_neg (not_not.mpr (hlast.mpr rfl)), fun h => absurd h (lt_irrefl 0)⟩
      | succ k =>
        rw [elemBits] at hr'
        obtain ⟨_, helem, -⟩ := Option.bind_eq_some_iff.mp hr'
        obtain ⟨ps, hps, -⟩ := Option.bind_eq_some_iff.mp helem
        have hne : UInt64.ofNat i ≠ num - 1 := fun h => absurd (hlast.mp h) (Nat.succ_ne_zero k)
        rw [if_pos hne]
        exact ⟨ps, hps, fun _ => hps⟩
    rw [arrayLoop, toUInt64_ofNat (by omega), if_pos hlt, hnext, toUInt64_ofNat (by omega), hs,
      Option.bind_some, hps, Option.bind_some]
    rw [ih (by omega) hparams hr' ?_]
    · refine congrArg some ?_
      grind
    · rw [UInt64.toNat_ofNat', Nat.mod_eq_of_lt (by omega)]

/-! ## Conditions -/

section Conds

variable {R : Calls} {d : Disk} {clo : Clo}

theorem foldl_and_true {cs : List Cond} {c : Cond} (hc : c.eval R d clo = some true)
    (hcs : ∀ k ∈ cs, k.eval R d clo = some true) : (cs.foldl .and c).eval R d clo = some true := by
  induction cs generalizing c with
  | nil => exact hc
  | cons c' cs ih =>
    obtain ⟨hc', hcs⟩ := List.forall_mem_cons.mp hcs
    refine ih ?_ hcs
    rw [Cond.eval, hc, Option.bind_some, if_pos rfl, hc']

theorem foldl_and_false {cs : List Cond} {c : Cond} (hc : c.eval R d clo = some false) :
    (cs.foldl .and c).eval R d clo = some false := by
  induction cs generalizing c with
  | nil => exact hc
  | cons c' cs ih =>
    refine ih ?_
    rw [Cond.eval, hc]
    rfl

theorem getConds_true {cs : List Cond} {k : Cond} (hk : getConds cs = some k)
    (hcs : ∀ c ∈ cs, c.eval R d clo = some true) : k.eval R d clo = some true := by
  cases cs with
  | nil => cases hk
  | cons c cs =>
    cases hk
    obtain ⟨hc, hcs⟩ := List.forall_mem_cons.mp hcs
    exact foldl_and_true hc hcs

/-- The first condition that does not hold has a value, and so have those before it. -/
def Fails (R : Calls) (d : Disk) (clo : Clo) (cs : List Cond) : Prop :=
  ∃ pre c post, cs = pre ++ c :: post ∧ (∀ k ∈ pre, k.eval R d clo = some true) ∧
    c.eval R d clo = some false

theorem Fails.append {cs : List Cond} (h : Fails R d clo cs) (cs' : List Cond) :
    Fails R d clo (cs ++ cs') := by
  obtain ⟨pre, c, post, rfl, hpre, hc⟩ := h
  exact ⟨pre, c, post ++ cs', by simp, hpre, hc⟩

theorem fails_of_last {cs : List Cond} {c : Cond} (hcs : ∀ k ∈ cs, k.eval R d clo = some true)
    (hc : c.eval R d clo = some false) : Fails R d clo (cs ++ [c]) := ⟨cs, c, [], rfl, hcs, hc⟩

theorem Fails.getConds {cs : List Cond} (h : Fails R d clo cs) :
    ∃ k, getConds cs = some k ∧ k.eval R d clo = some false := by
  obtain ⟨pre, c, post, rfl, hpre, hc⟩ := h
  cases pre with
  | nil => exact ⟨_, rfl, foldl_and_false hc⟩
  | cons c' pre =>
    obtain ⟨hc', hpre⟩ := List.forall_mem_cons.mp hpre
    refine ⟨(pre ++ c :: post).foldl .and c', rfl, ?_⟩
    rw [List.foldl_append, List.foldl_cons]
    refine foldl_and_false ?_
    rw [Cond.eval, foldl_and_true hc' hpre, Option.bind_some, if_pos rfl, hc]

end Conds

/-- What `tf_cond` returns. -/
def presence (R : Calls) (d : Disk) (clo : Clo) (tf : ThunkField) : Option Bool :=
  match tf.off with
  | .raw _ => some true
  | .cond k _ _ => k.eval R d clo

section Absent

variable {R : Calls} {d : Disk} {clo : Clo} {toPhys : Disk → UInt64 → Option UInt64}

/-- Below a condition that fails, every declared field is absent. -/
theorem absent_of_fails {st : Stmt} (hplain : st.Plain false) {s s' : Builder}
    (h : Builder.visit toPhys st s = some s') (hf : Fails R d clo s.conds) {tf : ThunkField}
    (htf : tf ∈ s'.fields) {f : String} (hname : tf.name = .field f) :
    tf ∈ s.fields ∨ presence R d clo tf = some false := by
  induction st generalizing s s' with
  | skip =>
    cases h
    exact Or.inl htf
  | seq a b iha ihb =>
    obtain ⟨s₁, h₁, h₂⟩ := Option.bind_eq_some_iff.mp h
    have hf₁ : Fails R d clo s₁.conds := by rwa [(Builder.extends_visit h₁).conds]
    rcases ihb hplain.2 h₂ hf₁ htf with htf | habs
    · exact iha hplain.1 h₁ hf htf
    · exact Or.inr habs
  | decl dl =>
    cases h
    rcases List.mem_append.mp htf with htf | htf
    · exact Or.inl htf
    · right
      rw [List.mem_singleton.mp htf]
      obtain ⟨k, hk, hfalse⟩ := hf.getConds
      have hoff : (s.declField dl).off = .cond k s.copyCurrentOffset .fail := by
        show s.fieldOff = _
        rw [Builder.fieldOff, hk]
      rw [presence, hoff]
      exact hfalse
  | func f args => cases hplain.1
  | ifThen c t iht =>
    obtain ⟨s₁, k, h₁, -, rfl⟩ := Builder.visit_ifThen h
    rcases List.mem_append.mp htf with htf | htf
    · have habs := iht hplain h₁ (hf.append [c]) htf
      exact habs
    · rw [List.mem_singleton.mp htf] at hname
      cases hname
  | ifElse c t e iht ihe =>
    obtain ⟨s₁, s₂, k, h₁, h₂, -, rfl⟩ := Builder.visit_ifElse h
    rcases List.mem_append.mp htf with htf | htf
    · rcases ihe hplain.2 h₂ (hf.append [.not c]) htf with htf | habs
      · have habs := iht hplain.1 h₁ (hf.append [c]) htf
        exact habs
      · exact Or.inr habs
    · rw [List.mem_singleton.mp htf] at hname
      cases hname
  | union name members array => cases hplain

end Absent

/-! ## Following the walk -/

/-- The builder has followed the walk: the conditions around it hold, the offset of the next field is
the cursor unless that is lost, the functions of the fields that are there return what the walk
found, and all others are absent. -/
structure Follows (R : Calls) (d : Disk) (clo : Clo) (s : Builder) (w : Walk) : Prop where
  conds : ∀ k ∈ s.conds, k.eval R d clo = some true
  cur : s.copyCurrentOffset.eval R d clo 0 = if w.lost then none else some w.cursor
  off : ∀ {f info}, w.fields f = some info → R.thunk .off (.field f) = some info.off
  size : ∀ {f info}, w.fields f = some info → R.thunk .size (.field f) = info.size
  elems : ∀ {f info}, w.fields f = some info → R.thunk .elems (.field f) = some info.elems
  present : ∀ {tf}, tf ∈ s.fields → ∀ {f}, tf.name = .field f →
    presence R d clo tf = some (w.fields f).isSome

/-- A field of the walk whose offset is never returned. -/
def Stuck (R : Calls) (w : Walk) : Prop :=
  ∃ f info, w.fields f = some info ∧ R.thunk .off (.field f) = none

section Follow

variable {typesize usize : String → Clo → Option UInt64} {d : Disk} {t : ThunkType} {clo : Clo}
variable {R : Calls} {s : Builder} {w : Walk}

theorem Follows.le (h : Follows R d clo s w) : w.calls.Le R := by
  constructor
  · intro p f v hv
    cases f with
    | base => cases p <;> cases hv
    | inv k => cases p <;> cases hv
    | field f =>
      cases p with
      | off =>
        obtain ⟨info, hinfo, rfl⟩ := Option.map_eq_some_iff.mp hv
        exact h.off hinfo
      | size =>
        obtain ⟨info, hinfo, hv⟩ := Option.bind_eq_some_iff.mp hv
        rw [h.size hinfo, hv]
      | elems =>
        obtain ⟨info, hinfo, rfl⟩ := Option.map_eq_some_iff.mp hv
        exact h.elems hinfo
  · intro f k v hv
    cases hv

/-- An expression with a value does not use `from_base_bits()`. -/
theorem Expr.eval_subst {c : Calls} (h : c.Le R) {idx v : UInt64} {e : Expr} (new : Expr)
    (hv : e.eval c d clo idx = some v) : (e.subst new).eval R d clo idx = some v := by
  induction e generalizing v with
  | num n => exact hv
  | argOff => exact hv
  | argIdx => exact hv
  | param i => exact hv
  | fromBase => cases hv
  | thunk p f => exact h.thunk hv
  | arrayBits f n ih =>
    obtain ⟨k, hk, hv⟩ := Option.bind_eq_some_iff.mp hv
    exact Option.bind_eq_some_iff.mpr ⟨k, ih hk, h.arrayBits hv⟩
  | fail => cases hv
  | add a b iha ihb =>
    obtain ⟨x, hx, hv⟩ := Option.bind_eq_some_iff.mp hv
    obtain ⟨y, hy, hv⟩ := Option.map_eq_some_iff.mp hv
    exact Option.bind_eq_some_iff.mpr ⟨x, iha hx, Option.map_eq_some_iff.mpr ⟨y, ihb hy, hv⟩⟩
  | sub a b iha ihb =>
    obtain ⟨x, hx, hv⟩ := Option.bind_eq_some_iff.mp hv
    obtain ⟨y, hy, hv⟩ := Option.map_eq_some_iff.mp hv
    exact Option.bind_eq_some_iff.mpr ⟨x, iha hx, Option.map_eq_some_iff.mpr ⟨y, ihb hy, hv⟩⟩
  | mul a b iha ihb =>
    obtain ⟨x, hx, hv⟩ := Option.bind_eq_some_iff.mp hv
    obtain ⟨y, hy, hv⟩ := Option.map_eq_some_iff.mp hv
    exact Option.bind_eq_some_iff.mpr ⟨x, iha hx, Option.map_eq_some_iff.mpr ⟨y, ihb hy, hv⟩⟩
  | call g args ih =>
    obtain ⟨x, hx, hv⟩ := Option.bind_eq_some_iff.mp hv
    exact Option.bind_eq_some_iff.mpr
      ⟨x, evalArgs_eq_some.mpr fun i => ih i (evalArgs_eq_some.mp hx i), hv⟩

/-- Where all conditions hold, a field declared here starts at the offset of the next field. -/
theorem fieldOff_eval (h : ∀ k ∈ s.conds, k.eval R d clo = some true) :
    s.fieldOff.eval d clo R = s.copyCurrentOffset.eval R d clo 0 := by
  rw [Builder.fieldOff]
  cases hk : getConds s.conds with
  | none => rfl
  | some k =>
    show (k.eval R d clo).bind _ = _
    rw [getConds_true hk h]
    rfl

theorem fieldOff_presence (h : ∀ k ∈ s.conds, k.eval R d clo = some true) (dl : Decl) :
    presence R d clo (s.declField dl) = some true := by
  have hoff : (s.declField dl).off = s.fieldOff := rfl
  rw [presence, hoff, Builder.fieldOff]
  cases hk : getConds s.conds with
  | none => rfl
  | some k => exact getConds_true hk h

variable (hR : Solves typesize usize d t clo R)

include hR

/-- An invisible field adds its size to its offset. -/
theorem cur_createInvisible {n : ℕ} {off : Off} {size : Expr}
    (hf : t.find (.inv n) = some (.createInvisible n off size)) :
    (ThunkField.createInvisible n off size).copyNextOffset.eval R d clo 0 =
      (off.eval d clo R).bind fun x => (size.eval R d clo 0).map fun y => x + y := by
  show ((R.thunk .off (.inv n)).bind fun x => (R.thunk .size (.inv n)).map fun y => x + y) = _
  rw [hR.off hf, hR.size hf]
  rfl

section Decl

variable {dl : Decl} {num bits : UInt64} {ps : List UInt64}

/-- A single element, as a scalar or as an array of the literal length one. -/
def Decl.Single (dl : Decl) : Prop := dl.array = none ∨ dl.array = some (.num 1)

omit hR in
theorem Decl.Single.num_eq (h : dl.Single) (hnum : dl.num d clo w = some num) : num = 1 := by
  rw [Decl.num] at hnum
  rcases h with h | h <;> rw [h] at hnum <;> exact (Option.some.inj hnum).symm

omit hR in
theorem isSingleton_declField (hnum : dl.num d clo w = some num) :
    (s.declField dl).isSingleton = true ↔ dl.Single := by
  rw [Decl.num] at hnum
  have helems : (s.declField dl).elems = Builder.elemsOf s.copyCurrentOffset dl.array := rfl
  rw [ThunkField.isSingleton, helems, Decl.Single]
  cases harr : dl.array with
  | none => simp [Builder.elemsOf]
  | some len =>
    rw [harr] at hnum
    cases len with
    | fromBase => cases hnum
    | num n => simp [Builder.elemsOf, Expr.subst]
    | _ => simp [Builder.elemsOf, Expr.subst]

omit hR in
theorem elemBits_one {g : ℕ → UInt64 → Option UInt64} {off r : UInt64}
    (h : elemBits g 1 0 off = some r) : g 0 off = some r := by
  rw [elemBits] at h
  obtain ⟨x, hx, h⟩ := Option.bind_eq_some_iff.mp h
  rw [hx, ← h]
  exact congrArg some (UInt64.add_zero x).symm

omit hR in
/-- A single element is the first. -/
theorem Decl.Single.bits_eq (h : dl.Single) (hnum : dl.num d clo w = some num)
    (hbits : dl.bits typesize d clo w num = some bits) :
    dl.elemSize typesize d clo w 0 w.cursor = some bits := by
  have hone : (1 : UInt64).toNat = 1 := rfl
  rw [h.num_eq hnum, Decl.bits, hone] at hbits
  split at hbits
  · obtain ⟨x, hx, hbits⟩ := Option.bind_eq_some_iff.mp hbits
    exact (Option.filter_eq_some_iff.mp (elemBits_one hbits)).1
  · exact elemBits_one hbits

variable (hf : t.find (.field dl.name) = some (s.declField dl)) (hle : w.calls.Le R)

include hf hle

theorem decl_elems (hnum : dl.num d clo w = some num) :
    R.thunk .elems (.field dl.name) = some num := by
  rw [hR.elems hf]
  show (Builder.elemsOf s.copyCurrentOffset dl.array).eval R d clo 0 = some num
  rw [Decl.num] at hnum
  cases harr : dl.array with
  | none =>
    rw [harr] at hnum
    exact hnum
  | some len =>
    rw [harr] at hnum
    exact Expr.eval_subst hle _ hnum

variable (hoff : R.thunk .off (.field dl.name) = some w.cursor)
variable (hps : evalParams w.calls d clo 0 dl.params = some ps)

include hoff hps

omit hR hf in
theorem decl_firstElem : firstElem d clo R (s.declField dl) = some ⟨w.cursor, ps⟩ := by
  show ((R.thunk .off (.field dl.name)).bind fun off =>
    (evalParams R d clo 0 dl.params).map fun ps => Clo.mk off ps) = _
  rw [hoff, evalParams_mono hle hps]
  rfl

theorem decl_size :
    R.thunk .size (.field dl.name) = dl.elemSize typesize d clo w 0 w.cursor := by
  rw [hR.size hf, Decl.elemSize]
  show (Builder.sizeOf dl.ty).eval typesize (fun _ => usize) d clo 0 R (s.declField dl) = _
  cases dl.ty with
  | prim b => rfl
  | user ty =>
    show (firstElem d clo R (s.declField dl)).bind (typesize ty) = _
    have hzero : UInt64.ofNat 0 = 0 := rfl
    rw [decl_firstElem hle hoff hps, hzero, hps]
    rfl

/-- The size of one element times their number, for elements of one size. -/
theorem decl_mul (hnum : dl.num d clo w = some num)
    (hsame : (∃ b, dl.ty = .prim b) ∨ (dl.array.isSome && dl.fixed) = true)
    (hbits : dl.bits typesize d clo w num = some bits) :
    (Expr.mul (.thunk .size (.field dl.name)) (.thunk .elems (.field dl.name))).eval R d clo 0 =
      some bits := by
  show ((R.thunk .size _).bind fun x => (R.thunk .elems _).map fun y => x * y) = _
  rw [decl_elems hR hf hle hnum, decl_size hR hf hle hoff hps]
  rw [Decl.bits] at hbits
  split at hbits
  case isTrue =>
    obtain ⟨x, hx, hbits⟩ := Option.bind_eq_some_iff.mp hbits
    rw [hx, elemBits_filter hbits, UInt64.ofNat_toNat]
    rfl
  case isFalse hfix =>
    obtain ⟨b, hty⟩ := hsame.resolve_right hfix
    have hconst : dl.elemSize typesize d clo w = fun _ _ => some b := by
      funext i off
      rw [Decl.elemSize, hty]
    rw [hconst, elemBits_const, UInt64.ofNat_toNat] at hbits
    rw [hconst, ← hbits]
    rfl

/-- The bits of an array whose elements are measured one by one. -/
theorem decl_arrayBits {ty : String} (hty : dl.ty = .user ty)
    (hfix : (dl.array.isSome && dl.fixed) = false) (hnum : dl.num d clo w = some num)
    (hbits : dl.bits typesize d clo w num = some bits) :
    (Expr.arrayBits (.field dl.name) (.thunk .elems (.field dl.name))).eval R d clo 0 =
      if 2 ^ 32 ≤ num.toNat then none else some bits := by
  have hsize : (s.declField dl).size = .user ty := by
    show Builder.sizeOf dl.ty = _
    rw [hty]
    rfl
  show (R.thunk .elems _).bind (R.arrayBits (.field dl.name)) = _
  rw [decl_elems hR hf hle hnum, Option.bind_some, hR.arrayBits num hf hsize,
    decl_firstElem hle hoff hps, Option.bind_some]
  by_cases hlong : 2 ^ 32 ≤ num.toNat
  · rw [if_pos hlong, lim_eq_none]
    exact fun m => arrayLoop_of_le hlong _ m _ _ _
  · rw [if_neg hlong, (stable_arrayLoop _ _ _ _).lim_eq_some]
    refine ⟨num.toNat + 1, ?_⟩
    rw [Decl.bits, hfix, if_neg Bool.false_ne_true] at hbits
    have helems : elemBits (fun i off => (evalParams R d clo (UInt64.ofNat i) dl.params).bind
        fun ps => typesize ty ⟨off, ps⟩) num.toNat 0 w.cursor = some bits := by
      refine elemBits_mono (fun i off v hv => ?_) hbits
      rw [Decl.elemSize, hty] at hv
      obtain ⟨qs, hqs, hv⟩ := Option.bind_eq_some_iff.mp hv
      exact Option.bind_eq_some_iff.mpr ⟨qs, evalParams_mono hle hqs, hv⟩
    have hloop : arrayLoop (typesize ty) (fun i => evalParams R d clo i dl.params) num
        (num.toNat + 1) (UInt32.ofNat 0) ⟨w.cursor, ps⟩ 0 = some (0 + bits) :=
      arrayLoop_elemBits (not_le.mp hlong) (Nat.zero_add _) (fun _ => evalParams_mono hle hps) helems
    rwa [UInt64.zero_add] at hloop

/-- The bits of a declaration, unless its elements cannot be counted. -/
theorem decl_numBits (hnum : dl.num d clo w = some num)
    (hbits : dl.bits typesize d clo w num = some bits) :
    (s.declField dl).copyNumBits.eval R d clo 0 = if dl.TooLong num then none else some bits := by
  have hname : (s.declField dl).name = .field dl.name := rfl
  have hfixed : (s.declField dl).fixed = (dl.array.isSome && dl.fixed) := rfl
  rw [ThunkField.copyNumBits, hname]
  by_cases hsingle : dl.Single
  · have hlong : dl.TooLong num = false := by
      rw [Decl.TooLong]
      rcases hsingle with h | h <;> rw [h] <;> cases dl.ty <;> rfl
    rw [if_pos ((isSingleton_declField hnum).mpr hsingle), hlong, if_neg Bool.false_ne_true]
    exact (decl_size hR hf hle hoff hps).trans (hsingle.bits_eq hnum hbits)
  · rw [if_neg (mt (isSingleton_declField hnum).mp hsingle)]
    cases hty : dl.ty with
    | prim b =>
      have hsize : (s.declField dl).size = .raw (.num b) := by
        show Builder.sizeOf dl.ty = _
        rw [hty]
        rfl
      have hlong : dl.TooLong num = false := by rw [Decl.TooLong, hty]
      rw [hsize, hlong, if_neg Bool.false_ne_true]
      exact decl_mul hR hf hle hoff hps hnum (Or.inl ⟨b, hty⟩) hbits
    | user ty =>
      have hsize : (s.declField dl).size = .user ty := by
        show Builder.sizeOf dl.ty = _
        rw [hty]
        rfl
      have hsome : dl.array.isSome := by
        rw [Option.isSome_iff_ne_none]
        exact fun h => hsingle (Or.inl h)
      have hlong : dl.TooLong num = (!dl.fixed && decide (2 ^ 32 ≤ num.toNat)) := by
        rw [Decl.TooLong]
        split
        case h_1 harr => exact absurd (Or.inr harr) hsingle
        case h_2 => rfl
        case h_3 hnone =>
          obtain ⟨len, hlen⟩ := Option.isSome_iff_exists.mp hsome
          exact (hnone ty len hty hlen).elim
      rw [hsize, hlong, hfixed, hsome, Bool.true_and]
      cases hfix : dl.fixed with
      | true =>
        exact decl_mul hR hf hle hoff hps hnum (Or.inr (by rw [hsome, hfix]; rfl)) hbits
      | false =>
        rw [if_neg Bool.false_ne_true, Bool.not_false, Bool.true_and,
          decl_arrayBits hR hf hle hoff hps hty (by rw [hfix, Bool.and_false]) hnum hbits]
        simp

end Decl

omit hR in
/-- The parts of a declaration that is there. -/
theorem walk_decl {dl : Decl} {w' : Walk} (h : w.decl typesize d clo dl = some w') :
    ∃ num ps bits, dl.num d clo w = some num ∧ evalParams w.calls d clo 0 dl.params = some ps ∧
      dl.bits typesize d clo w num = some bits ∧
      w' = ⟨w.cursor + bits, Function.update w.fields dl.name
        (some ⟨w.cursor, dl.elemSize typesize d clo w 0 w.cursor, num⟩), w.lost || dl.TooLong num,
        w.asked || w.lost⟩ := by
  obtain ⟨num, hnum, h⟩ := Option.bind_eq_some_iff.mp h
  obtain ⟨ps, hps, h⟩ := Option.bind_eq_some_iff.mp h
  obtain ⟨bits, hbits, h⟩ := Option.bind_eq_some_iff.mp h
  exact ⟨num, ps, bits, hnum, hps, hbits, (Option.some.inj h).symm⟩

theorem Follows.decl {dl : Decl} {w' : Walk} (h : Follows R d clo s w)
    (hf : t.find (.field dl.name) = some (s.declField dl)) (hlost : w.lost = false)
    (hold : ∀ tf ∈ s.fields, tf.name ≠ .field dl.name)
    (hw : w.decl typesize d clo dl = some w') :
    Follows R d clo (s.addToCurrentSymTab dl) w' := by
  obtain ⟨num, ps, bits, hnum, hps, hbits, rfl⟩ := walk_decl hw
  have hcur := h.cur
  rw [hlost, if_neg Bool.false_ne_true] at hcur
  have hoff : R.thunk .off (.field dl.name) = some w.cursor := by
    rw [hR.off hf]
    exact (fieldOff_eval h.conds).trans hcur
  have hnumBits := decl_numBits hR hf h.le hoff hps hnum hbits
  constructor
  · exact h.conds
  · show ((R.thunk .off (.field dl.name)).bind fun x =>
      ((s.declField dl).copyNumBits.eval R d clo 0).map fun y => x + y) = _
    rw [hoff, hnumBits, hlost, Bool.false_or]
    cases dl.TooLong num <;> rfl
  · intro f info hinfo
    by_cases hname : f = dl.name
    · subst hname
      simp only [Function.update_self, Option.some.injEq] at hinfo
      rw [hoff, ← hinfo]
    · simp only [Function.update_of_ne hname] at hinfo
      exact h.off hinfo
  · intro f info hinfo
    by_cases hname : f = dl.name
    · subst hname
      simp only [Function.update_self, Option.some.injEq] at hinfo
      rw [decl_size hR hf h.le hoff hps, ← hinfo]
    · simp only [Function.update_of_ne hname] at hinfo
      exact h.size hinfo
  · intro f info hinfo
    by_cases hname : f = dl.name
    · subst hname
      simp only [Function.update_self, Option.some.injEq] at hinfo
      rw [decl_elems hR hf h.le hnum, ← hinfo]
    · simp only [Function.update_of_ne hname] at hinfo
      exact h.elems hinfo
  · intro tf htf f hname
    rcases List.mem_append.mp htf with htf | htf
    · have hne : f ≠ dl.name := by
        rintro rfl
        exact hold tf htf hname
      simp only [Function.update_of_ne hne]
      exact h.present htf hname
    · rw [List.mem_singleton.mp htf] at hname ⊢
      cases hname
      simp only [Function.update_self, Option.isSome_some]
      exact fieldOff_presence h.conds dl

/-- A field declared at a lost cursor is stuck. -/
theorem Follows.stuck {dl : Decl} {w' : Walk} (h : Follows R d clo s w)
    (hf : t.find (.field dl.name) = some (s.declField dl)) (hlost : w.lost = true)
    (hw : w.decl typesize d clo dl = some w') : Stuck R w' := by
  obtain ⟨num, ps, bits, hnum, hps, hbits, rfl⟩ := walk_decl hw
  have hcur := h.cur
  rw [hlost, if_pos rfl] at hcur
  refine ⟨dl.name, _, Function.update_self _ _ _, ?_⟩
  rw [hR.off hf]
  exact (fieldOff_eval h.conds).trans hcur

/-- An invisible field leaves the others as they were. -/
theorem Follows.inv {n : ℕ} {off : Off} {size : Expr} {w' : Walk} (h : Follows R d clo s w)
    (hf : t.find (.inv n) = some (.createInvisible n off size)) (hfields : w'.fields = w.fields)
    (hcur : ((off.eval d clo R).bind fun x => (size.eval R d clo 0).map fun y => x + y) =
      if w'.lost then none else some w'.cursor) :
    Follows R d clo (s.add (.createInvisible n off size)) w' := by
  constructor
  · exact h.conds
  · exact (cur_createInvisible hR hf).trans hcur
  · intro f info hinfo
    exact h.off (hfields ▸ hinfo)
  · intro f info hinfo
    exact h.size (hfields ▸ hinfo)
  · intro f info hinfo
    exact h.elems (hfields ▸ hinfo)
  · intro tf htf f hname
    rcases List.mem_append.mp htf with htf | htf
    · rw [hfields]
      exact h.present htf hname
    · rw [List.mem_singleton.mp htf] at hname
      cases hname

end Follow

end Fsl.Layout
