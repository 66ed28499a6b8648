import Fsl.Compiler.LayoutEval
import Fsl.Lib.Segment

/-!
# What the builder registers

Fields are only ever added, a statement leaves the stack of conditions as it found it, and in a block
that declares no name twice every field is found under its name.
-/

namespace Fsl.Layout

namespace Builder

variable {toPhys : Disk → UInt64 → Option UInt64}

@[simp] theorem conds_add (s : Builder) (tf : ThunkField) : (s.add tf).conds = s.conds := rfl

@[simp] theorem fields_add (s : Builder) (tf : ThunkField) :
    (s.add tf).fields = s.fields ++ [tf] := rfl

@[simp] theorem count_add (s : Builder) (tf : ThunkField) : (s.add tf).count = s.count + 1 := rfl

@[simp] theorem last_add (s : Builder) (tf : ThunkField) : (s.add tf).last = tf := rfl

/-- The condition under which the fields below a conditional are there. -/
theorem getConds_append (cs : List Cond) (c : Cond) : ∃ k, getConds (cs ++ [c]) = some k := by
  cases cs with
  | nil => exact ⟨c, rfl⟩
  | cons c' cs => exact ⟨_, rfl⟩

theorem rebaseByCond_eq (s : Builder) (c : Cond) (nextTrue nextFalse : Expr) :
    ∃ k, getConds (s.conds ++ [c]) = some k ∧
      s.rebaseByCond c nextTrue nextFalse =
        s.add (.createInvisible s.count (.cond k nextTrue nextFalse) (.num 0)) := by
  obtain ⟨k, hk⟩ := getConds_append s.conds c
  refine ⟨k, hk, ?_⟩
  rw [rebaseByCond, hk]

/-- A layout function leaves an invisible field, outside of conditionals. -/
theorem applyFn_eq_some {s s' : Builder} {f : LayoutFn} {args : List Expr}
    (h : s.applyFn toPhys f args = some s') :
    ∃ off size, f.doIt toPhys s (LayoutFn.setupArgs s args) = some (off, size) ∧ s.conds = [] ∧
      s' = s.add (.createInvisible s.count (.raw off) size) := by
  rw [applyFn] at h
  split at h
  · cases h
  next off size hdo =>
    split at h
    case isTrue => cases h
    case isFalse hlen =>
      refine ⟨off, size, hdo, ?_, (Option.some.inj h).symm⟩
      simpa using hlen

/-- The members of a union, one by one. -/
theorem addMembers_cons {unionOff : Expr} {dl : Decl} {ds : List Decl} {s s' : Builder}
    (h : addMembers unionOff (dl :: ds) s = some s') :
    s.conds = [] ∧ dl.array = none ∧ addMembers unionOff ds
      (s.add ⟨.field dl.name, .raw unionOff, sizeOf dl.ty, .num 1, false, dl.params⟩) = some s' := by
  rw [addMembers] at h
  split at h
  · cases h
  next hlen =>
    split at h
    · cases h
    next harr => exact ⟨by simpa using hlen, harr, h⟩

/-- What a union leaves in its type. -/
theorem addUnion_eq_some {s s' : Builder} {name : String} {members : List Decl}
    {array : Option Expr} (h : s.addUnion name members array = some s') :
    ∃ s₁ u, addMembers s.copyCurrentOffset members s = some s₁ ∧
      unionType s.numArgs members = some u ∧ s.numArgs = 0 ∧
      s' = { s₁.add (unionField s.copyCurrentOffset name array) with
        unions := s₁.unions ++ [(name, u)] } := by
  obtain ⟨s₁, h₁, h⟩ := Option.bind_eq_some_iff.mp h
  obtain ⟨u, hu, h⟩ := Option.bind_eq_some_iff.mp h
  split at h
  case isTrue => cases h
  case isFalse hargs =>
    exact ⟨s₁, u, h₁, hu, not_not.mp hargs, (Option.some.inj h).symm⟩

theorem visit_ifThen {c : Cond} {t : Stmt} {s s' : Builder}
    (h : s.visit toPhys (.ifThen c t) = some s') :
    ∃ s₁ k, visit toPhys t { s with conds := s.conds ++ [c] } = some s₁ ∧
      getConds (s.conds ++ [c]) = some k ∧
      s' = { s₁ with conds := s.conds }.add (.createInvisible s₁.count
        (.cond k s₁.copyCurrentOffset s.copyCurrentOffset) (.num 0)) := by
  obtain ⟨s₁, h₁, h⟩ := Option.bind_eq_some_iff.mp h
  obtain ⟨k, hk, heq⟩ := rebaseByCond_eq { s₁ with conds := s.conds } c s₁.copyCurrentOffset
    s.copyCurrentOffset
  refine ⟨s₁, k, h₁, hk, ?_⟩
  rw [← Option.some.inj h, heq]

theorem visit_ifElse {c : Cond} {t e : Stmt} {s s' : Builder}
    (h : s.visit toPhys (.ifElse c t e) = some s') :
    ∃ s₁ s₂ k, visit toPhys t { s with conds := s.conds ++ [c] } = some s₁ ∧
      visit toPhys e { s₁ with conds := s.conds ++ [.not c], last := s.last } = some s₂ ∧
      getConds (s.conds ++ [c]) = some k ∧
      s' = { s₂ with conds := s.conds }.add (.createInvisible s₂.count
        (.cond k s₁.copyCurrentOffset s₂.copyCurrentOffset) (.num 0)) := by
  obtain ⟨s₁, h₁, h⟩ := Option.bind_eq_some_iff.mp h
  obtain ⟨s₂, h₂, h⟩ := Option.bind_eq_some_iff.mp h
  obtain ⟨k, hk, heq⟩ := rebaseByCond_eq { s₂ with conds := s.conds } c s₁.copyCurrentOffset
    s₂.copyCurrentOffset
  refine ⟨s₁, s₂, k, h₁, h₂, hk, ?_⟩
  rw [← Option.some.inj h, heq]

/-! ## Registered fields -/

/-- Fields and unions are added at the end, and the conditions are those from before. -/
structure Extends (s s' : Builder) : Prop where
  fields : s.fields <+: s'.fields
  conds : s'.conds = s.conds
  numArgs : s'.numArgs = s.numArgs

theorem Extends.refl (s : Builder) : Extends s s := ⟨List.prefix_rfl, rfl, rfl⟩

theorem Extends.trans {s₁ s₂ s₃ : Builder} (h : Extends s₁ s₂) (h' : Extends s₂ s₃) :
    Extends s₁ s₃ :=
  ⟨h.fields.trans h'.fields, h'.conds.trans h.conds, h'.numArgs.trans h.numArgs⟩

theorem extends_add (s : Builder) (tf : ThunkField) : Extends s (s.add tf) :=
  ⟨List.prefix_append _ _, rfl, rfl⟩

theorem extends_addMembers {unionOff : Expr} {ds : List Decl} {s s' : Builder}
    (h : addMembers unionOff ds s = some s') : Extends s s' := by
  induction ds generalizing s with
  | nil =>
    cases h
    exact Extends.refl _
  | cons dl ds ih =>
    obtain ⟨-, -, h⟩ := addMembers_cons h
    exact (extends_add _ _).trans (ih h)

theorem extends_visit {st : Stmt} {s s' : Builder} (h : visit toPhys st s = some s') :
    Extends s s' := by
  induction st generalizing s s' with
  | skip =>
    cases h
    exact Extends.refl _
  | seq a b iha ihb =>
    obtain ⟨s₁, h₁, h₂⟩ := Option.bind_eq_some_iff.mp h
    exact (iha h₁).trans (ihb h₂)
  | decl dl =>
    cases h
    exact extends_add _ _
  | func f args =>
    obtain ⟨off, size, -, -, rfl⟩ := applyFn_eq_some h
    exact extends_add _ _
  | ifThen c t iht =>
    obtain ⟨s₁, k, h₁, -, rfl⟩ := visit_ifThen h
    have hext := iht h₁
    exact ⟨hext.fields.trans (List.prefix_append _ _), rfl, hext.numArgs⟩
  | ifElse c t e iht ihe =>
    obtain ⟨s₁, s₂, k, h₁, h₂, -, rfl⟩ := visit_ifElse h
    have hext₁ := iht h₁
    have hext₂ := ihe h₂
    refine ⟨(hext₁.fields.trans hext₂.fields).trans (List.prefix_append _ _), rfl, ?_⟩
    exact hext₂.numArgs.trans hext₁.numArgs
  | union name members array =>
    obtain ⟨s₁, u, h₁, -, -, rfl⟩ := addUnion_eq_some h
    have hext := extends_addMembers h₁
    exact ⟨hext.fields.trans (List.prefix_append _ _), hext.conds, hext.numArgs⟩

/-- The names a statement adds to the fields: those it declares, and invisible ones with fresh
numbers. -/
structure NewNames (fs : List ThunkField) (k : ℕ) (fs' : List ThunkField) (k' : ℕ)
    (names : List String) (new : List Name) : Prop where
  fields : fs'.map ThunkField.name = fs.map ThunkField.name ++ new
  nodup : new.Nodup
  field : ∀ f, Name.field f ∈ new ↔ f ∈ names
  inv : ∀ i, Name.inv i ∈ new → k ≤ i ∧ i < k'
  base : Name.base ∉ new
  count : k ≤ k'

theorem NewNames.nil (fs : List ThunkField) (k : ℕ) : NewNames fs k fs k [] [] := by
  refine ⟨by rw [List.append_nil], List.nodup_nil, ?_, ?_, ?_, le_rfl⟩
  · simp
  · simp
  · simp

theorem NewNames.append {fs₁ fs₂ fs₃ : List ThunkField} {k₁ k₂ k₃ : ℕ} {names names' : List String}
    {new new' : List Name} (h : NewNames fs₁ k₁ fs₂ k₂ names new)
    (h' : NewNames fs₂ k₂ fs₃ k₃ names' new') (hdisj : ∀ f ∈ names, f ∉ names') :
    NewNames fs₁ k₁ fs₃ k₃ (names ++ names') (new ++ new') := by
  constructor
  · rw [h'.fields, h.fields, List.append_assoc]
  · refine List.nodup_append.mpr ⟨h.nodup, h'.nodup, ?_⟩
    rintro n hn _ hn' rfl
    cases n with
    | base => exact h.base hn
    | field f => exact hdisj f ((h.field f).mp hn) ((h'.field f).mp hn')
    | inv k =>
      have hk := h.inv k hn
      have hk' := h'.inv k hn'
      omega
  · intro f
    rw [List.mem_append, List.mem_append, h.field, h'.field]
  · intro k hk
    have hcount := h.count
    have hcount' := h'.count
    rcases List.mem_append.mp hk with hk | hk
    · have hk := h.inv k hk
      omega
    · have hk := h'.inv k hk
      omega
  · intro hb
    rcases List.mem_append.mp hb with hb | hb
    · exact h.base hb
    · exact h'.base hb
  · exact h.count.trans h'.count

/-- A field that is declared. -/
theorem newNames_field (s : Builder) {tf : ThunkField} {f : String} (h : tf.name = .field f) :
    NewNames s.fields s.count (s.add tf).fields (s.add tf).count [f] [.field f] := by
  refine ⟨by simp [h], List.nodup_singleton _, ?_, ?_, ?_, Nat.le_succ _⟩
  · simp
  · simp
  · simp

/-- An invisible field takes the number of fields as its own. -/
theorem newNames_inv (s : Builder) (off : Off) (size : Expr) :
    NewNames s.fields s.count (s.add (.createInvisible s.count off size)).fields
      (s.add (.createInvisible s.count off size)).count [] [.inv s.count] := by
  refine ⟨by simp [ThunkField.createInvisible], List.nodup_singleton _, ?_, ?_, ?_, Nat.le_succ _⟩
  · simp
  · simp
  · simp

theorem newNames_addMembers {unionOff : Expr} {ds : List Decl} {s s' : Builder}
    (h : addMembers unionOff ds s = some s') (hnodup : (ds.map Decl.name).Nodup) :
    ∃ new, NewNames s.fields s.count s'.fields s'.count (ds.map Decl.name) new := by
  induction ds generalizing s with
  | nil =>
    cases h
    exact ⟨[], NewNames.nil _ _⟩
  | cons dl ds ih =>
    obtain ⟨-, -, h⟩ := addMembers_cons h
    rw [List.map_cons] at hnodup ⊢
    obtain ⟨hdl, hds⟩ := List.nodup_cons.mp hnodup
    obtain ⟨new, hnew⟩ := ih h hds
    refine ⟨_, (newNames_field s rfl).append hnew fun f hf => ?_⟩
    rw [List.mem_singleton.mp hf]
    exact hdl

/-- The fields of a statement have distinct names. -/
theorem newNames_visit {st : Stmt} {s s' : Builder} (h : visit toPhys st s = some s')
    (hnodup : st.names.Nodup) :
    ∃ new, NewNames s.fields s.count s'.fields s'.count st.names new := by
  induction st generalizing s s' with
  | skip =>
    cases h
    exact ⟨[], NewNames.nil _ _⟩
  | seq a b iha ihb =>
    obtain ⟨s₁, h₁, h₂⟩ := Option.bind_eq_some_iff.mp h
    obtain ⟨ha, hb, hdisj⟩ := List.nodup_append.mp hnodup
    obtain ⟨new₁, hnew₁⟩ := iha h₁ ha
    obtain ⟨new₂, hnew₂⟩ := ihb h₂ hb
    exact ⟨_, hnew₁.append hnew₂ fun f hf hf' => hdisj f hf f hf' rfl⟩
  | decl dl =>
    cases h
    exact ⟨_, newNames_field s rfl⟩
  | func f args =>
    obtain ⟨off, size, -, -, rfl⟩ := applyFn_eq_some h
    exact ⟨_, newNames_inv s _ _⟩
  | ifThen c t iht =>
    obtain ⟨s₁, k, h₁, -, rfl⟩ := visit_ifThen h
    obtain ⟨new₁, hnew₁⟩ := iht h₁ hnodup
    have hboth := hnew₁.append (newNames_inv { s₁ with conds := s.conds }
      (.cond k s₁.copyCurrentOffset s.copyCurrentOffset) (.num 0)) fun f _ => List.not_mem_nil
    rw [List.append_nil] at hboth
    exact ⟨_, hboth⟩
  | ifElse c t e iht ihe =>
    obtain ⟨s₁, s₂, k, h₁, h₂, -, rfl⟩ := visit_ifElse h
    obtain ⟨ht, he, hdisj⟩ := List.nodup_append.mp hnodup
    obtain ⟨new₁, hnew₁⟩ := iht h₁ ht
    obtain ⟨new₂, hnew₂⟩ := ihe h₂ he
    have hbranches := hnew₁.append hnew₂ fun f hf hf' => hdisj f hf f hf' rfl
    have hboth := hbranches.append (newNames_inv { s₂ with conds := s.conds }
      (.cond k s₁.copyCurrentOffset s₂.copyCurrentOffset) (.num 0)) fun f _ => List.not_mem_nil
    rw [List.append_nil] at hboth
    exact ⟨_, hboth⟩
  | union name members array =>
    obtain ⟨s₁, u, h₁, -, -, rfl⟩ := addUnion_eq_some h
    obtain ⟨hmem, -, hdisj⟩ := List.nodup_append.mp hnodup
    obtain ⟨new, hnew⟩ := newNames_addMembers h₁ hmem
    have hfield : (unionField s.copyCurrentOffset name array).name = .field name := rfl
    exact ⟨_, hnew.append (newNames_field s₁ hfield) fun f hf hf' => hdisj f hf f hf' rfl⟩

/-- In a block without repeated names each field is found under its name. -/
theorem find_of_visit {block : Stmt} {numArgs : ℕ} {s : Builder}
    (h : visit toPhys block (.init numArgs) = some s) (hnodup : block.names.Nodup) {t : ThunkType}
    (ht : t.fields = s.fields) : ∀ tf ∈ s.fields, t.find tf.name = some tf := by
  obtain ⟨new, hnew⟩ := newNames_visit h hnodup
  have hnames : (t.fields.map ThunkField.name).Nodup := by
    rw [ht, hnew.fields]
    exact List.nodup_cons.mpr ⟨hnew.base, hnew.nodup⟩
  intro tf htf
  exact List.find?_of_nodup_map hnames (ht ▸ htf)

/-- Each declared name has a field. -/
theorem exists_field {block : Stmt} {numArgs : ℕ} {s : Builder}
    (h : visit toPhys block (.init numArgs) = some s) (hnodup : block.names.Nodup) {f : String}
    (hf : f ∈ block.names) : ∃ tf ∈ s.fields, tf.name = .field f := by
  obtain ⟨new, hnew⟩ := newNames_visit h hnodup
  have hmem : Name.field f ∈ s.fields.map ThunkField.name := by
    rw [hnew.fields]
    exact List.mem_append_right _ ((hnew.field f).mpr hf)
  exact List.mem_map.mp hmem

end Builder

end Fsl.Layout
