import Fsl.Compiler.FromBase

/-!
# Layout of a union

The members of a union all start where the union starts, and the size of the union is the greatest of
their sizes. The functions `__max2` to `__max7` stand for the greatest; `__max4`, on which the later
ones are built, returns its second argument where the third is the greatest.
-/

namespace Fsl.Layout

open OptionLim

/-! ## The greatest size -/

/-- The greatest element of a list. -/
structure Greatest (l : List UInt64) (m : UInt64) : Prop where
  mem : m ∈ l
  le : ∀ a ∈ l, a ≤ m

theorem Greatest.unique {l : List UInt64} {m m' : UInt64} (h : Greatest l m) (h' : Greatest l m') :
    m = m' := UInt64.le_antisymm (h'.le m h.mem) (h.le m' h'.mem)

/-- The third element is greater than the first two, and as great as all others; those from the
fifth on do not reach it. -/
def ThirdWins : List UInt64 → Prop
  | a₀ :: a₁ :: a₂ :: a₃ :: as => a₀ < a₂ ∧ a₁ < a₂ ∧ a₃ ≤ a₂ ∧ ∀ a ∈ as, a < a₂
  | _ => False

/-- One argument more, as in `__max5` to `__max7`. -/
def maxStep (m a : UInt64) : UInt64 := if m > a then m else a

theorem foldl_maxStep (as : List UInt64) (x : UInt64) :
    (as.foldl maxStep x = x ∨ as.foldl maxStep x ∈ as) ∧ x ≤ as.foldl maxStep x ∧
      ∀ a ∈ as, a ≤ as.foldl maxStep x := by
  induction as generalizing x with
  | nil => exact ⟨Or.inl rfl, UInt64.le_refl x, fun a h => absurd h List.not_mem_nil⟩
  | cons b as ih =>
    obtain ⟨hmem, hle, hall⟩ := ih (maxStep x b)
    have hx : x ≤ maxStep x b := by grind [maxStep]
    have hb : b ≤ maxStep x b := by grind [maxStep]
    have hor : maxStep x b = x ∨ maxStep x b = b := by grind [maxStep]
    rw [List.foldl_cons]
    refine ⟨?_, UInt64.le_trans hx hle, fun a ha => ?_⟩
    · grind
    · rcases List.mem_cons.mp ha with rfl | ha
      · exact UInt64.le_trans hb hle
      · exact hall a ha

/-- From four arguments on the greatest is returned unless the third wins. -/
theorem greatest_foldl_iff (a₀ a₁ a₂ a₃ : UInt64) (as : List UInt64) :
    Greatest (a₀ :: a₁ :: a₂ :: a₃ :: as) (as.foldl maxStep (maxN.max4 a₀ a₁ a₂ a₃)) ↔
      ¬ ThirdWins (a₀ :: a₁ :: a₂ :: a₃ :: as) := by
  obtain ⟨hmem, hle, hall⟩ := foldl_maxStep as (maxN.max4 a₀ a₁ a₂ a₃)
  by_cases hthird : a₀ < a₂ ∧ a₁ < a₂ ∧ a₃ ≤ a₂
  · -- the second argument is passed on; only a later one can make up for it
    have hfour : maxN.max4 a₀ a₁ a₂ a₃ = a₁ := by grind [maxN.max4]
    rw [hfour] at hmem hle hall ⊢
    constructor
    · rintro hgreatest ⟨-, -, -, hrest⟩
      have h₂ : a₂ ≤ as.foldl maxStep a₁ := hgreatest.le a₂ (by simp)
      rcases hmem with heq | hmem
      · grind
      · have := hrest _ hmem
        grind
    · intro hnot
      obtain ⟨a, ha, hge⟩ : ∃ a ∈ as, a₂ ≤ a := by
        by_contra hno
        push Not at hno
        exact hnot ⟨hthird.1, hthird.2.1, hthird.2.2, fun a ha => by grind⟩
      have htop := hall a ha
      refine ⟨?_, fun b hb => ?_⟩
      · rcases hmem with heq | hmem
        · grind
        · simp [hmem]
      · simp only [List.mem_cons] at hb
        rcases hb with rfl | rfl | rfl | rfl | hb
        · grind
        · grind
        · grind
        · grind
        · exact hall b hb
  · have hnot : ¬ ThirdWins (a₀ :: a₁ :: a₂ :: a₃ :: as) :=
      fun h => hthird ⟨h.1, h.2.1, h.2.2.1⟩
    refine ⟨fun _ => hnot, fun _ => ⟨?_, fun b hb => ?_⟩⟩
    · have hfour : maxN.max4 a₀ a₁ a₂ a₃ = a₀ ∨ maxN.max4 a₀ a₁ a₂ a₃ = a₁ ∨
          maxN.max4 a₀ a₁ a₂ a₃ = a₃ := by grind [maxN.max4]
      simp only [List.mem_cons]
      grind
    · have hfour : a₀ ≤ maxN.max4 a₀ a₁ a₂ a₃ ∧ a₁ ≤ maxN.max4 a₀ a₁ a₂ a₃ ∧
          a₂ ≤ maxN.max4 a₀ a₁ a₂ a₃ ∧ a₃ ≤ maxN.max4 a₀ a₁ a₂ a₃ := by grind [maxN.max4]
      simp only [List.mem_cons] at hb
      rcases hb with rfl | rfl | rfl | rfl | hb
      · exact UInt64.le_trans hfour.1 hle
      · exact UInt64.le_trans hfour.2.1 hle
      · exact UInt64.le_trans hfour.2.2.1 hle
      · exact UInt64.le_trans hfour.2.2.2 hle
      · exact hall b hb

/-- Whether the function for so many arguments is there and returns the greatest. -/
theorem maxN_greatest_iff (l : List UInt64) :
    (∃ m, maxN l.length l.get = some m ∧ Greatest l m) ↔
      2 ≤ l.length ∧ l.length ≤ 7 ∧ ¬ ThirdWins l := by
  have hmany : ∀ a₀ a₁ a₂ a₃ as, as.length ≤ 3 →
      maxN (a₀ :: a₁ :: a₂ :: a₃ :: as).length (a₀ :: a₁ :: a₂ :: a₃ :: as).get =
        some (as.foldl maxStep (maxN.max4 a₀ a₁ a₂ a₃)) := by
    intro a₀ a₁ a₂ a₃ as has
    rcases as with _ | ⟨a₄, _ | ⟨a₅, _ | ⟨a₆, _ | ⟨a₇, as⟩⟩⟩⟩
    · rfl
    · rfl
    · rfl
    · rfl
    · simp at has
      omega
  rcases l with _ | ⟨a₀, _ | ⟨a₁, _ | ⟨a₂, _ | ⟨a₃, as⟩⟩⟩⟩
  · refine ⟨fun ⟨m, h, _⟩ => ?_, fun h => absurd h.1 (by simp)⟩
    cases h
  · refine ⟨fun ⟨m, h, _⟩ => ?_, fun h => absurd h.1 (by simp)⟩
    cases h
  · refine ⟨fun _ => ⟨le_rfl, by simp, id⟩, fun _ => ⟨maxStep a₀ a₁, rfl, ?_⟩⟩
    constructor
    · grind [maxStep]
    · grind [maxStep]
  · refine ⟨fun _ => ⟨by simp, by simp, id⟩, fun _ => ⟨_, rfl, ?_⟩⟩
    show Greatest _ (if a₀ ≥ a₁ ∧ a₀ ≥ a₂ then a₀ else if a₁ ≥ a₀ ∧ a₁ ≥ a₂ then a₁ else a₂)
    constructor
    · grind
    · grind
  · by_cases has : as.length ≤ 3
    · rw [hmany _ _ _ _ _ has]
      constructor
      · rintro ⟨m, hm, hgreatest⟩
        cases hm
        have hlen : (a₀ :: a₁ :: a₂ :: a₃ :: as).length ≤ 7 := by
          simp only [List.length_cons]
          omega
        refine ⟨by simp, hlen, (greatest_foldl_iff _ _ _ _ _).mp hgreatest⟩
      · rintro ⟨-, -, hthird⟩
        exact ⟨_, rfl, (greatest_foldl_iff _ _ _ _ _).mpr hthird⟩
    · constructor
      · rintro ⟨m, hm, -⟩
        obtain ⟨k, hk⟩ : ∃ k, as.length = k + 4 := ⟨as.length - 4, by omega⟩
        have hnone : ∀ n (h : n = k + 8) (v : Fin n → UInt64), maxN n v = none := by
          rintro n rfl v
          rfl
        rw [hnone _ (by simp [hk])] at hm
        cases hm
      · rintro ⟨-, hle, -⟩
        simp at hle
        omega

/-! ## What a union leaves -/

namespace Builder

variable {toPhys : Disk → UInt64 → Option UInt64}

/-- The field of a member. -/
def memberField (unionOff : Expr) (dl : Decl) : ThunkField :=
  ⟨.field dl.name, .raw unionOff, sizeOf dl.ty, .num 1, false, dl.params⟩

theorem addMembers_fields {unionOff : Expr} {ds : List Decl} {s s' : Builder}
    (h : addMembers unionOff ds s = some s') :
    s'.fields = s.fields ++ ds.map (memberField unionOff) ∧ s'.unions = s.unions ∧
      ∀ dl ∈ ds, dl.array = none := by
  induction ds generalizing s with
  | nil =>
    cases h
    simp
  | cons dl ds ih =>
    obtain ⟨-, harr, h⟩ := addMembers_cons h
    obtain ⟨hfields, hunions, hrest⟩ := ih h
    refine ⟨?_, hunions, List.forall_mem_cons.mpr ⟨harr, hrest⟩⟩
    rw [hfields]
    simp [memberField]

theorem accepted_addMembers {unionOff : Expr} (unionOff' : Expr) {ds : List Decl} {s s' r : Builder}
    (h : addMembers unionOff ds s = some s') (hconds : r.conds = s.conds) :
    ∃ r', addMembers unionOff' ds r = some r' := by
  induction ds generalizing s r with
  | nil => exact ⟨r, rfl⟩
  | cons dl ds ih =>
    obtain ⟨hnil, harr, h⟩ := addMembers_cons h
    have hlen : ¬ r.conds.length ≠ 0 := by simp [hconds, hnil]
    rw [addMembers, if_neg hlen, harr]
    exact ih h hconds

/-- Members that are not arrays are accepted outside of conditionals. -/
theorem exists_addMembers (unionOff : Expr) {ds : List Decl} (hds : ∀ dl ∈ ds, dl.array = none)
    {s : Builder} (hs : s.conds = []) : ∃ s', addMembers unionOff ds s = some s' := by
  induction ds generalizing s with
  | nil => exact ⟨s, rfl⟩
  | cons dl ds ih =>
    obtain ⟨hdl, hds⟩ := List.forall_mem_cons.mp hds
    have hlen : ¬ s.conds.length ≠ 0 := by simp [hs]
    rw [addMembers, if_neg hlen, hdl]
    exact ih hds hs

theorem addUnion_eq {s s₁ : Builder} {name : String} {members : List Decl} {array : Option Expr}
    {u : ThunkType} (h : addMembers s.copyCurrentOffset members s = some s₁)
    (hu : unionType s.numArgs members = some u) (hargs : s.numArgs = 0) :
    s.addUnion name members array = some { s₁.add (unionField s.copyCurrentOffset name array) with
      unions := s₁.unions ++ [(name, u)] } := by
  rw [hargs] at hu
  simp [addUnion, h, hu, hargs]

theorem unions_visit {st : Stmt} {s s' : Builder} (h : visit toPhys st s = some s') :
    ∃ l, s'.unions = s.unions ++ l ∧ ∀ e ∈ l, e.1 ∈ st.names := by
  induction st generalizing s s' with
  | skip =>
    cases h
    exact ⟨[], by simp⟩
  | seq a b iha ihb =>
    obtain ⟨s₁, h₁, h₂⟩ := Option.bind_eq_some_iff.mp h
    obtain ⟨l₁, hl₁, hmem₁⟩ := iha h₁
    obtain ⟨l₂, hl₂, hmem₂⟩ := ihb h₂
    refine ⟨l₁ ++ l₂, by rw [hl₂, hl₁, List.append_assoc], fun e he => ?_⟩
    rcases List.mem_append.mp he with he | he
    · exact List.mem_append_left _ (hmem₁ e he)
    · exact List.mem_append_right _ (hmem₂ e he)
  | decl dl =>
    cases h
    exact ⟨[], by simp [addToCurrentSymTab, add]⟩
  | func f args =>
    obtain ⟨off, size, -, -, rfl⟩ := applyFn_eq_some h
    exact ⟨[], by simp [add]⟩
  | ifThen c t iht =>
    obtain ⟨s₁, k, h₁, -, rfl⟩ := visit_ifThen h
    obtain ⟨l, hl, hmem⟩ := iht h₁
    exact ⟨l, hl, hmem⟩
  | ifElse c t e iht ihe =>
    obtain ⟨s₁, s₂, k, h₁, h₂, -, rfl⟩ := visit_ifElse h
    obtain ⟨l₁, hl₁, hmem₁⟩ := iht h₁
    obtain ⟨l₂, hl₂, hmem₂⟩ := ihe h₂
    refine ⟨l₁ ++ l₂, ?_, fun e he => ?_⟩
    · show s₂.unions = _
      rw [hl₂, ← List.append_assoc]
      exact congrArg (· ++ l₂) hl₁
    rcases List.mem_append.mp he with he | he
    · exact List.mem_append_left _ (hmem₁ e he)
    · exact List.mem_append_right _ (hmem₂ e he)
  | union name members array =>
    obtain ⟨s₁, u, h₁, -, -, rfl⟩ := addUnion_eq_some h
    refine ⟨[(name, u)], ?_, fun e he => ?_⟩
    · show s₁.unions ++ _ = _
      rw [(addMembers_fields h₁).2.1]
    · rw [List.mem_singleton.mp he]
      exact List.mem_append_right _ List.mem_cons_self

/-- Whether a statement is accepted depends on the conditions around it and on the arguments of the
type only. -/
theorem accepted_congr {st : Stmt} {s s' r : Builder} (h : visit toPhys st s = some s')
    (hconds : r.conds = s.conds) (hargs : r.numArgs = s.numArgs) :
    ∃ r', visit toPhys st r = some r' := by
  induction st generalizing s s' r with
  | skip => exact ⟨r, rfl⟩
  | seq a b iha ihb =>
    obtain ⟨s₁, h₁, h₂⟩ := Option.bind_eq_some_iff.mp h
    obtain ⟨r₁, hr₁⟩ := iha h₁ hconds hargs
    have hr := extends_visit hr₁
    have hs := extends_visit h₁
    obtain ⟨r₂, hr₂⟩ := ihb h₂ (r := r₁) (by rw [hr.conds, hs.conds, hconds])
      (by rw [hr.numArgs, hs.numArgs, hargs])
    exact ⟨r₂, Option.bind_eq_some_iff.mpr ⟨r₁, hr₁, hr₂⟩⟩
  | decl dl => exact ⟨_, rfl⟩
  | func f args =>
    obtain ⟨off, size, hdo, hnil, -⟩ := applyFn_eq_some h
    have hlen : ¬ r.conds.length ≠ 0 := by simp [hconds, hnil]
    obtain ⟨⟨off', size'⟩, hdo'⟩ : ∃ e, f.doIt toPhys r (LayoutFn.setupArgs r args) = some e := by
      rcases args with _ | ⟨a, _ | ⟨b, _ | ⟨c, args⟩⟩⟩ <;> cases f <;> first | exact ⟨_, rfl⟩ | cases hdo
    refine ⟨r.add (.createInvisible r.count (.raw off') size'), ?_⟩
    show r.applyFn toPhys f args = some _
    rw [applyFn, hdo']
    exact if_neg hlen
  | ifThen c t iht =>
    obtain ⟨s₁, k, h₁, -, -⟩ := visit_ifThen h
    obtain ⟨r₁, hr₁⟩ := iht h₁ (r := { r with conds := r.conds ++ [c] }) (by simp [hconds]) hargs
    exact ⟨_, Option.bind_eq_some_iff.mpr ⟨r₁, hr₁, rfl⟩⟩
  | ifElse c t e iht ihe =>
    obtain ⟨s₁, s₂, k, h₁, h₂, -, -⟩ := visit_ifElse h
    obtain ⟨r₁, hr₁⟩ := iht h₁ (r := { r with conds := r.conds ++ [c] }) (by simp [hconds]) hargs
    have hargs₁ : r₁.numArgs = s₁.numArgs := by
      rw [(extends_visit hr₁).numArgs, (extends_visit h₁).numArgs]
      exact hargs
    obtain ⟨r₂, hr₂⟩ := ihe h₂ (r := { r₁ with conds := r.conds ++ [.not c], last := r.last })
      (by simp [hconds]) hargs₁
    exact ⟨_, Option.bind_eq_some_iff.mpr ⟨r₁, hr₁, Option.bind_eq_some_iff.mpr ⟨r₂, hr₂, rfl⟩⟩⟩
  | union name members array =>
    obtain ⟨s₁, u, h₁, hu, hzero, -⟩ := addUnion_eq_some h
    obtain ⟨r₁, hr₁⟩ := accepted_addMembers r.copyCurrentOffset h₁ hconds
    exact ⟨_, addUnion_eq hr₁ (hargs ▸ hu) (hargs.trans hzero)⟩

end Builder

/-! ## The type of the union -/

theorem maxValue_eval {c : Calls} {d : Disk} {clo : Clo} {idx : UInt64} {es : List Expr}
    {as : List UInt64} (h : List.Forall₂ (fun e a => e.eval c d clo idx = some a) es as) :
    (maxValue es).eval c d clo idx = maxN as.length as.get := by
  have hlen := h.length_eq
  have hargs : evalArgs (fun i => (es.get i).eval c d clo idx) =
      some fun i => as.get (i.cast hlen) := by
    rw [evalArgs_eq_some]
    intro i
    exact (List.forall₂_iff_get.mp h).2 i i.isLt (hlen ▸ i.isLt)
  have hcast : ∀ k (hk : k = as.length), maxN k (fun i => as.get (i.cast hk)) =
      maxN as.length as.get := by
    rintro k rfl
    rfl
  show (evalArgs fun i => (es.get i).eval c d clo idx).bind _ = _
  rw [hargs]
  exact hcast _ hlen

/-- The full size of a member, all elements of an array included: what the walk over the member alone,
in an instance of the union at `u`, advances by. -/
def MemberBits (typesize : String → Clo → Option UInt64) (d : Disk) (u : UInt64) (m : Decl)
    (a : UInt64) : Prop :=
  ∃ w, Walk.decl typesize d ⟨u, []⟩ (.init ⟨u, []⟩) m = some w ∧ w.cursor = u + a

section Union

variable {typesize usize : String → Clo → Option UInt64} {d : Disk} {u : UInt64}

theorem Walk.init_calls_le (clo : Clo) (R : Calls) : (Walk.init clo).calls.Le R := by
  constructor
  · intro p f v h
    cases p <;> cases f <;> cases h
  · intro f k v h
    cases h

/-- The function of a member that starts where the union starts returns its size. -/
theorem MemberBits.size_eval {m : Decl} {a : UInt64} (h : MemberBits typesize d u m a)
    (harr : m.array = none) {R : Calls} (hoff : R.thunk .off (.field m.name) = some u)
    (unionOff : Expr) :
    (Builder.sizeOf m.ty).eval typesize (fun _ => usize) d ⟨u, []⟩ 0 R
      (Builder.memberField unionOff m) = some a := by
  obtain ⟨w, hw, hcur⟩ := h
  obtain ⟨num, ps, bits, hnum, hps, hbits, rfl⟩ := walk_decl hw
  have hsize := Decl.Single.bits_eq (Or.inl harr) hnum hbits
  have ha : bits = a := by
    have hcur' : u + bits = u + a := hcur
    grind
  rw [ha, Decl.elemSize] at hsize
  cases hty : m.ty with
  | prim b =>
    rw [hty] at hsize
    exact hsize
  | user ty =>
    rw [hty] at hsize
    obtain ⟨qs, hqs, hsize⟩ := Option.bind_eq_some_iff.mp hsize
    have hqs' : evalParams R d ⟨u, []⟩ 0 m.params = some qs :=
      evalParams_mono (Walk.init_calls_le _ R) hqs
    have hfirst : firstElem d ⟨u, []⟩ R (Builder.memberField unionOff m) = some ⟨u, qs⟩ := by
      show ((R.thunk .off (.field m.name)).bind fun off =>
        (evalParams R d ⟨u, []⟩ 0 m.params).map fun ps => Clo.mk off ps) = _
      rw [hoff, hqs']
      rfl
    show (firstElem d ⟨u, []⟩ R (Builder.memberField unionOff m)).bind (typesize ty) = some a
    rw [hfirst]
    exact hsize

/-- The size of the union is what the function for so many members makes of their sizes. -/
theorem unionType_size {numArgs : ℕ} {members : List Decl} {ty : ThunkType} {sizes : List UInt64}
    (h : Builder.unionType numArgs members = some ty) (hnodup : (members.map Decl.name).Nodup)
    (hsizes : List.Forall₂ (MemberBits typesize d u) members sizes) :
    lim (fun n => typeSize typesize (fun _ _ _ => none) d ty ⟨u, []⟩ n) =
      maxN sizes.length sizes.get := by
  obtain ⟨s, hs, rfl⟩ := Option.map_eq_some_iff.mp h
  obtain ⟨hfields, -, harr⟩ := Builder.addMembers_fields hs
  set ty : ThunkType := ⟨s.fields, maxValue (members.map fun d => .thunk .size (.field d.name))⟩
  have hstable : ∀ (u : String) (c : Clo), Stable fun _ : ℕ => (none : Option UInt64) :=
    fun _ _ => stable_const none
  set R := result typesize (fun _ _ _ => none) d ty ⟨u, []⟩
  have hR : Solves typesize _ d ty ⟨u, []⟩ R := result_solves hstable d ty ⟨u, []⟩
  have hnames : (s.fields.map ThunkField.name).Nodup := by
    obtain ⟨new, hnew⟩ := Builder.newNames_addMembers hs hnodup
    rw [hnew.fields]
    exact List.nodup_cons.mpr ⟨hnew.base, hnew.nodup⟩
  have hfind : ∀ tf ∈ s.fields, ty.find tf.name = some tf :=
    fun tf htf => List.find?_of_nodup_map hnames htf
  have hbase : ty.find .base = some baseField := by
    refine hfind baseField ?_
    rw [hfields]
    exact List.mem_append_left _ List.mem_cons_self
  have hcur := (Follows.init hR numArgs hbase).cur
  have hmember : ∀ m ∈ members, ∀ a, MemberBits typesize d u m a →
      R.thunk .size (.field m.name) = some a := by
    intro m hm a ha
    have hmem : Builder.memberField (Builder.init numArgs).copyCurrentOffset m ∈ s.fields := by
      rw [hfields]
      exact List.mem_append_right _ (List.mem_map_of_mem hm)
    have hf := hfind _ hmem
    have hoff : R.thunk .off (.field m.name) = some u := (hR.off hf).trans hcur
    exact (hR.size hf).trans (ha.size_eval (harr m hm) hoff _)
  have hlim : lim (fun n => typeSize typesize (fun _ _ _ => none) d ty ⟨u, []⟩ n) =
      ty.size.eval R d ⟨u, []⟩ 0 := lim_eval (calls_le hstable) 0 ty.size
  rw [hlim]
  refine maxValue_eval ?_
  rw [List.forall₂_map_left_iff]
  have hall : List.Forall₂ (fun m a => m ∈ members ∧ MemberBits typesize d u m a) members sizes :=
    (List.forall₂_and_left members sizes).mpr ⟨fun m hm => hm, hsizes⟩
  exact hall.imp fun m a h => hmember m h.1 a h.2

/-! ## The type around it -/

/-- What the functions of the fields so far return does not change when more are added. -/
theorem Returns.extend {us us' : List (String × ThunkType)} {t t' : ThunkType} {clo : Clo} {e : Expr}
    {v : UInt64} (h : Returns typesize us d t clo e v) (ht : t.fields <+: t'.fields)
    (hus : us <+: us') : Returns typesize us' d t' clo e v := by
  obtain ⟨n, hn⟩ := h
  have hfind : ∀ {f tf}, t.find f = some tf → t'.find f = some tf :=
    fun h => ht.find?_eq_some h
  refine ⟨n, Expr.eval_mono (calls_extend hfind (fun {n u c v} h => ?_) n) hn⟩
  obtain ⟨e, he, h⟩ := Option.bind_eq_some_iff.mp h
  exact Option.bind_eq_some_iff.mpr ⟨e, hus.find?_eq_some he, h⟩

/-- A block with a union, statements before it, and a field and more statements behind it. -/
def unionBlock (pre : Stmt) (name : String) (members : List Decl) (array : Option Expr) (nxt : Decl)
    (post : Stmt) : Stmt :=
  .seq pre (.seq (.union name members array) (.seq (.decl nxt) post))

section Outer

variable {toPhys : Disk → UInt64 → Option UInt64} {numArgs : ℕ} {pre post : Stmt} {name : String}
variable {members : List Decl} {array : Option Expr} {nxt : Decl} {clo : Clo} {num : UInt64}
variable {sizes : List UInt64} {s₀ s₂ s : Builder}

/-- The builder before and after the union. -/
theorem visit_unionBlock :
    Builder.visit toPhys (unionBlock pre name members array nxt post) (.init numArgs) = some s ↔
      ∃ s₀ s₂, Builder.visit toPhys pre (.init numArgs) = some s₀ ∧
        s₀.addUnion name members array = some s₂ ∧
        Builder.visit toPhys post (s₂.addToCurrentSymTab nxt) = some s := by
  constructor
  · intro h
    obtain ⟨s₀, h₀, h⟩ := Option.bind_eq_some_iff.mp h
    obtain ⟨s₂, h₂, h⟩ := Option.bind_eq_some_iff.mp h
    exact ⟨s₀, s₂, h₀, h₂, h⟩
  · rintro ⟨s₀, s₂, h₀, h₂, h⟩
    exact Option.bind_eq_some_iff.mpr ⟨s₀, h₀, Option.bind_eq_some_iff.mpr ⟨s₂, h₂, h⟩⟩

/-- What the functions of the members, of the union and of the field behind it return. -/
theorem union_results (h₀ : Builder.visit toPhys pre (.init numArgs) = some s₀)
    (h₂ : s₀.addUnion name members array = some s₂)
    (h : Builder.visit toPhys post (s₂.addToCurrentSymTab nxt) = some s)
    (hnodup : (unionBlock pre name members array nxt post).names.Nodup)
    (hu : Returns typesize s₀.unions d ⟨s₀.fields, .sub s₀.copyCurrentOffset .argOff⟩ clo
      s₀.copyCurrentOffset u)
    (hnum : Returns typesize s₀.unions d ⟨s₀.fields, .sub s₀.copyCurrentOffset .argOff⟩ clo
      (Builder.elemsOf s₀.copyCurrentOffset array) num)
    (hsizes : List.Forall₂ (MemberBits typesize d u) members sizes) {t : ThunkType} {R : Calls}
    (ht : t = ⟨s.fields, .sub s.copyCurrentOffset .argOff⟩)
    (hR : R = result typesize (unionSize typesize d s.unions) d t clo) :
    (∀ dl ∈ members, R.thunk .off (.field dl.name) = some u) ∧
      R.thunk .size (.field name) = maxN sizes.length sizes.get ∧
      R.thunk .off (.field nxt.name) =
        (R.thunk .size (.field name)).map fun m => u + m * num := by
  have hblock := visit_unionBlock.mpr ⟨s₀, s₂, h₀, h₂, h⟩
  obtain ⟨s₁, uty, h₁, huty, -, rfl⟩ := Builder.addUnion_eq_some h₂
  obtain ⟨hfields, hunions, -⟩ := Builder.addMembers_fields h₁
  have hext₀ := Builder.extends_visit h₀
  have hext₁ := Builder.extends_addMembers h₁
  have hext := Builder.extends_visit h
  have hinit : s₁.fields ++ [Builder.unionField s₀.copyCurrentOffset name array] <+: s.fields :=
    (List.prefix_append _ _).trans hext.fields
  have hfind : ∀ tf ∈ s.fields, t.find tf.name = some tf :=
    Builder.find_of_visit hblock hnodup (by rw [ht])
  have hsolves : Solves typesize (fun v c => lim fun n => unionSize typesize d s.unions n v c) d t clo
      R := by
    rw [hR]
    exact result_solves (stable_unionSize typesize d s.unions) d t clo
  -- values that are there before the union
  obtain ⟨l, hl, hlnames⟩ := Builder.unions_visit h
  have hsplit : s.unions = s₀.unions ++ ((name, uty) :: l) := by
    rw [hl, ← hunions]
    simp [Builder.addToCurrentSymTab, Builder.add]
  have hbefore : ∀ {e v}, Returns typesize s₀.unions d ⟨s₀.fields, .sub s₀.copyCurrentOffset .argOff⟩
      clo e v → e.eval R d clo 0 = some v := by
    intro e v he
    rw [hR, ← returns_iff, ht]
    refine he.extend ?_ ?_
    · exact hext₁.fields.trans ((List.prefix_append _ _).trans hinit)
    · rw [hsplit]
      exact List.prefix_append _ _
  have hcur := hbefore hu
  -- the union itself
  have hfu : t.find (.field name) = some (Builder.unionField s₀.copyCurrentOffset name array) :=
    hfind (Builder.unionField _ _ _) (hinit.subset (List.mem_append_right _ List.mem_cons_self))
  have hoffu : R.thunk .off (.field name) = some u := (hsolves.off hfu).trans hcur
  have helems : R.thunk .elems (.field name) = some num := (hsolves.elems hfu).trans (hbefore hnum)
  have hnames := List.nodup_append.mp hnodup
  have hunion : (s.unions.find? fun e => e.1 == name) = some (name, uty) := by
    obtain ⟨l₀, hl₀, hl₀names⟩ := Builder.unions_visit h₀
    have hnone : (s₀.unions.find? fun e => e.1 == name) = none := by
      rw [List.find?_eq_none]
      intro e he heq
      rw [hl₀] at he
      refine hnames.2.2 e.1 (hl₀names e he) name ?_ (beq_iff_eq.mp heq)
      simp [Stmt.names]
    rw [hsplit, List.find?_append, hnone]
    simp
  have hmemnodup : (members.map Decl.name).Nodup :=
    (List.nodup_append.mp (List.nodup_append.mp hnames.2.1).1).1
  have hsize : R.thunk .size (.field name) = maxN sizes.length sizes.get := by
    rw [hsolves.size hfu, ← unionType_size huty hmemnodup hsizes]
    show (firstElem d clo R (Builder.unionField s₀.copyCurrentOffset name array)).bind
      (fun c => lim fun n => unionSize typesize d s.unions n name c) = _
    have hfirst : firstElem d clo R (Builder.unionField s₀.copyCurrentOffset name array) =
        some ⟨u, []⟩ := by
      show ((R.thunk .off (.field name)).bind fun off => (some []).map fun ps => Clo.mk off ps) = _
      rw [hoffu]
      rfl
    rw [hfirst, Option.bind_some]
    simp only [unionSize, hunion, Option.bind_some]
  refine ⟨fun dl hdl => ?_, hsize, ?_⟩
  · have hmem : Builder.memberField s₀.copyCurrentOffset dl ∈ s.fields := by
      refine hinit.subset (List.mem_append_left _ ?_)
      rw [hfields]
      exact List.mem_append_right _ (List.mem_map_of_mem hdl)
    exact (hsolves.off (hfind _ hmem)).trans hcur
  · have hnxt := hfind _ (hext.fields.subset (List.mem_append_right _ List.mem_cons_self))
    have hconds : s₁.conds = [] := hext₁.conds.trans hext₀.conds
    refine (hsolves.off hnxt).trans ?_
    show (Builder.fieldOff _).eval d clo R = _
    rw [fieldOff_eval (by simp [hconds])]
    show ((R.thunk .off (.field name)).bind fun x =>
      ((Builder.unionField s₀.copyCurrentOffset name array).copyNumBits.eval R d clo 0).map
        fun y => x + y) = _
    have hbits : (Builder.unionField s₀.copyCurrentOffset name array).copyNumBits.eval R d clo 0 =
        (R.thunk .size (.field name)).map fun m => m * num := by
      rw [ThunkField.copyNumBits]
      by_cases hsingle : (Builder.unionField s₀.copyCurrentOffset name array).isSingleton = true
      · have hone : num = 1 := by
          have helems' := hbefore hnum
          have hlit : Builder.elemsOf s₀.copyCurrentOffset array = .num 1 := by
            have hdef : (Builder.unionField s₀.copyCurrentOffset name array).elems =
              Builder.elemsOf s₀.copyCurrentOffset array := rfl
            rw [ThunkField.isSingleton, hdef] at hsingle
            split at hsingle
            next n hn => rw [hn, beq_iff_eq.mp hsingle]
            next => cases hsingle
          rw [hlit] at helems'
          exact (Option.some.inj helems').symm
        rw [if_pos hsingle, hone]
        show R.thunk .size (.field name) = _
        simp
      · rw [if_neg hsingle]
        show ((R.thunk .size (.field name)).bind fun x =>
          (R.thunk .elems (.field name)).map fun y => x * y) = _
        rw [helems]
        cases R.thunk .size (.field name) <;> rfl
    rw [hoffu, hbits, Option.bind_some, Option.map_map]
    rfl

/-- The layout of the union and of what is behind it: all members start at `u`, the union has `m`
bits, and the field behind its `num` elements follows them. -/
def UnionLaidOut (typesize : String → Clo → Option UInt64) (d : Disk) (clo : Clo)
    (toPhys : Disk → UInt64 → Option UInt64) (numArgs : ℕ) (block : Stmt) (name : String)
    (members : List Decl) (nxt : Decl) (u m num : UInt64) : Prop :=
  ∃ t us, getSymTab toPhys numArgs block = some (t, us) ∧
    (∀ dl ∈ members, Returns typesize us d t clo (.thunk .off (.field dl.name)) u) ∧
    Returns typesize us d t clo (.thunk .size (.field name)) m ∧
    Returns typesize us d t clo (.thunk .off (.field nxt.name)) (u + m * num)

/-- A union is laid out by the greatest of its members exactly if its type takes no arguments, it has
two to seven members, none of them is an array, and the third is not the strict winner of four or
more. -/
theorem unionLaidOut_iff {m : UInt64} (h₀ : Builder.visit toPhys pre (.init numArgs) = some s₀)
    (hpost : ∃ s, Builder.visit toPhys post (.init numArgs) = some s)
    (hnodup : (unionBlock pre name members array nxt post).names.Nodup)
    (hu : Returns typesize s₀.unions d ⟨s₀.fields, .sub s₀.copyCurrentOffset .argOff⟩ clo
      s₀.copyCurrentOffset u)
    (hnum : Returns typesize s₀.unions d ⟨s₀.fields, .sub s₀.copyCurrentOffset .argOff⟩ clo
      (Builder.elemsOf s₀.copyCurrentOffset array) num)
    (hsizes : List.Forall₂ (MemberBits typesize d u) members sizes) (hm : Greatest sizes m) :
    UnionLaidOut typesize d clo toPhys numArgs (unionBlock pre name members array nxt post) name
        members nxt u m num ↔
      numArgs = 0 ∧ (2 ≤ members.length ∧ members.length ≤ 7) ∧ (∀ dl ∈ members, dl.array = none) ∧
        ¬ ThirdWins sizes := by
  have hext₀ := Builder.extends_visit h₀
  have hlen : members.length = sizes.length := hsizes.length_eq
  constructor
  · rintro ⟨t, us, hget, -, hsize, -⟩
    obtain ⟨s, hs, heq⟩ := Option.map_eq_some_iff.mp hget
    obtain ⟨s₀', s₂, h₀', h₂, h⟩ := visit_unionBlock.mp hs
    rw [h₀] at h₀'
    cases h₀'
    cases heq
    obtain ⟨s₁, uty, h₁, -, hargs, -⟩ := Builder.addUnion_eq_some h₂
    obtain ⟨-, hmax, -⟩ := union_results h₀ h₂ h hnodup hu hnum hsizes rfl rfl
    have hgreatest : 2 ≤ sizes.length ∧ sizes.length ≤ 7 ∧ ¬ ThirdWins sizes := by
      refine (maxN_greatest_iff sizes).mp ⟨m, ?_, hm⟩
      rw [← hmax]
      exact (returns_iff _ _).mp hsize
    rw [hlen]
    exact ⟨hext₀.numArgs.symm.trans hargs, ⟨hgreatest.1, hgreatest.2.1⟩,
      (Builder.addMembers_fields h₁).2.2, hgreatest.2.2⟩
  · rintro ⟨rfl, ⟨hmin, hmax⟩, harr, hthird⟩
    rw [hlen] at hmin hmax
    obtain ⟨m', hm', hgreatest⟩ := (maxN_greatest_iff sizes).mpr ⟨hmin, hmax, hthird⟩
    have hmeq := hgreatest.unique hm
    subst hmeq
    obtain ⟨s₁, h₁⟩ := Builder.exists_addMembers s₀.copyCurrentOffset harr hext₀.conds
    obtain ⟨uty, huty⟩ : ∃ uty, Builder.unionType s₀.numArgs members = some uty := by
      obtain ⟨r, hr⟩ := Builder.exists_addMembers (Builder.init s₀.numArgs).copyCurrentOffset harr
        (s := Builder.init s₀.numArgs) rfl
      exact ⟨_, Option.map_eq_some_iff.mpr ⟨r, hr, rfl⟩⟩
    obtain ⟨s₂, h₂⟩ : ∃ s₂, s₀.addUnion name members array = some s₂ :=
      ⟨_, Builder.addUnion_eq h₁ huty hext₀.numArgs⟩
    have hvisit : Builder.visit toPhys (.union name members array) s₀ = some s₂ := h₂
    have hext₂ := Builder.extends_visit hvisit
    obtain ⟨s', hs'⟩ := hpost
    obtain ⟨s, h⟩ := Builder.accepted_congr hs' (r := s₂.addToCurrentSymTab nxt)
      (hext₂.conds.trans hext₀.conds) (hext₂.numArgs.trans hext₀.numArgs)
    have hblock := visit_unionBlock.mpr ⟨s₀, s₂, h₀, h₂, h⟩
    obtain ⟨hoffs, hsize, hnxt⟩ := union_results h₀ h₂ h hnodup hu hnum hsizes rfl rfl
    rw [hm'] at hsize
    rw [hsize] at hnxt
    refine ⟨_, _, Option.map_eq_some_iff.mpr ⟨s, hblock, rfl⟩, fun dl hdl => ?_, ?_, ?_⟩
    · exact (returns_iff _ _).mpr (hoffs dl hdl)
    · exact (returns_iff _ _).mpr hsize
    · exact (returns_iff _ _).mpr hnxt

end Outer

end Union

/-- A member of a primitive type. -/
def word (name : String) (bits : UInt64) : Decl := ⟨name, .prim bits, [], none, false⟩

theorem memberBits_word (typesize : String → Clo → Option UInt64) (d : Disk) (u : UInt64)
    (name : String) (bits : UInt64) : MemberBits typesize d u (word name bits) bits :=
  ⟨_, rfl, by show u + (bits + 0) = u + bits; simp⟩

/-- A union of the members between two bytes. -/
def byteUnion (members : List Decl) : Stmt :=
  unionBlock (.decl (word "p" 8)) "u" members none (word "n" 8) .skip

/-- The builder before the union. -/
def beforeUnion : Builder := (Builder.init 0).addToCurrentSymTab (word "p" 8)

/-- The offset of the union. -/
theorem returns_beforeUnion (d : Disk) :
    Returns (fun _ _ => none) beforeUnion.unions d
      ⟨beforeUnion.fields, .sub beforeUnion.copyCurrentOffset .argOff⟩ ⟨0, []⟩
      beforeUnion.copyCurrentOffset 8 := ⟨4, rfl⟩

theorem unionLaidOut_words :
    UnionLaidOut (fun _ _ => none) (Disk.ofFn 64 (fun _ => 0) (by norm_num)) ⟨0, []⟩
      (fun _ x => some x) 0 (byteUnion [word "a" 8, word "b" 32, word "c" 16]) "u"
      [word "a" 8, word "b" 32, word "c" 16] (word "n" 8) 8 32 1 := by
  have hsizes : List.Forall₂ (MemberBits (fun _ _ => none) (Disk.ofFn 64 (fun _ => 0) (by norm_num)) 8)
      [word "a" 8, word "b" 32, word "c" 16] [8, 32, 16] :=
    .cons (memberBits_word _ _ _ _ _) (.cons (memberBits_word _ _ _ _ _)
      (.cons (memberBits_word _ _ _ _ _) .nil))
  have hgreatest : Greatest [8, 32, 16] 32 := ⟨by simp, by simp⟩
  have hpre : Builder.visit (fun _ x => some x) (.decl (word "p" 8)) (.init 0) = some beforeUnion := rfl
  refine (unionLaidOut_iff hpre ⟨_, rfl⟩ (by decide) (returns_beforeUnion _) ⟨0, rfl⟩ hsizes
    hgreatest).mpr ⟨rfl, by decide, ?_, id⟩
  simp [word]

/-- Four words, the third of them the longest. -/
theorem not_unionLaidOut_third :
    List.Forall₂ (MemberBits (fun _ _ => none) (Disk.ofFn 64 (fun _ => 0) (by norm_num)) 8)
      [word "a" 8, word "b" 8, word "c" 16, word "d" 8] [8, 8, 16, 8] ∧
    Greatest [8, 8, 16, 8] 16 ∧
    ¬ UnionLaidOut (fun _ _ => none) (Disk.ofFn 64 (fun _ => 0) (by norm_num)) ⟨0, []⟩
      (fun _ x => some x) 0 (byteUnion [word "a" 8, word "b" 8, word "c" 16, word "d" 8]) "u"
      [word "a" 8, word "b" 8, word "c" 16, word "d" 8] (word "n" 8) 8 16 1 := by
  have hsizes : List.Forall₂ (MemberBits (fun _ _ => none) (Disk.ofFn 64 (fun _ => 0) (by norm_num)) 8)
      [word "a" 8, word "b" 8, word "c" 16, word "d" 8] [8, 8, 16, 8] :=
    .cons (memberBits_word _ _ _ _ _) (.cons (memberBits_word _ _ _ _ _)
      (.cons (memberBits_word _ _ _ _ _) (.cons (memberBits_word _ _ _ _ _) .nil)))
  have hgreatest : Greatest [8, 8, 16, 8] 16 := ⟨by simp, by simp⟩
  have hpre : Builder.visit (fun _ x => some x) (.decl (word "p" 8)) (.init 0) = some beforeUnion := rfl
  refine ⟨hsizes, hgreatest, ?_⟩
  rintro ⟨t, us, hget, -, hsize, -⟩
  obtain ⟨s, hs, heq⟩ := Option.map_eq_some_iff.mp hget
  obtain ⟨s₀, s₂, h₀, h₂, h⟩ := visit_unionBlock.mp hs
  rw [hpre] at h₀
  cases h₀
  cases heq
  have hnodup : (byteUnion [word "a" 8, word "b" 8, word "c" 16, word "d" 8]).names.Nodup := by decide
  obtain ⟨-, hmax, -⟩ := union_results hpre h₂ h hnodup (returns_beforeUnion _) ⟨0, rfl⟩ hsizes rfl rfl
  have hsixteen := ((returns_iff _ _).mp hsize).symm.trans hmax
  exact absurd (Option.some.inj hsixteen) (by decide)

end Fsl.Layout
