import Fsl.Compiler.LayoutCorrect

/-!
# The layout functions agree with the walk

A statement keeps the builder behind the walk, or a field of the walk is stuck for good. At the end
of the block this decides whether the functions of the type return the reference layout.
-/

namespace Fsl.Layout

open OptionLim

variable {typesize usize : String → Clo → Option UInt64} {d : Disk} {t : ThunkType} {clo : Clo}
variable {R : Calls} {s : Builder} {w : Walk} {toPhys : Disk → UInt64 → Option UInt64}

/-! ## Names along a statement -/

theorem Walk.func_fields {f : LayoutFn} {args : List Expr} {w' : Walk}
    (h : w.func d clo f args = some w') : w'.fields = w.fields ∧ w'.asked = w.asked := by
  rw [Walk.func.eq_def] at h
  split at h
  case h_5 => cases h
  all_goals
    obtain ⟨x, -, rfl⟩ := Option.map_eq_some_iff.mp h
    exact ⟨rfl, rfl⟩

/-- The walk only finds fields the statement declares. -/
theorem Walk.visit_fields {st : Stmt} {w w' : Walk} (h : Walk.visit typesize d clo st w = some w')
    {f : String} (hf : f ∉ st.names) : w'.fields f = w.fields f := by
  induction st generalizing w w' with
  | skip =>
    cases h
    rfl
  | seq a b iha ihb =>
    obtain ⟨w₁, h₁, h₂⟩ := Option.bind_eq_some_iff.mp h
    rw [Stmt.names, List.mem_append, not_or] at hf
    exact (ihb h₂ hf.2).trans (iha h₁ hf.1)
  | decl dl =>
    obtain ⟨num, ps, bits, -, -, -, rfl⟩ := walk_decl h
    have hne : f ≠ dl.name := fun h => hf (List.mem_singleton.mpr h)
    exact Function.update_of_ne hne _ _
  | func g args => rw [(Walk.func_fields h).1]
  | ifThen k b ih =>
    obtain ⟨x, -, h⟩ := Option.bind_eq_some_iff.mp h
    cases x with
    | true => exact ih h hf
    | false =>
      cases h
      rfl
  | ifElse k a b iha ihb =>
    obtain ⟨x, -, h⟩ := Option.bind_eq_some_iff.mp h
    rw [Stmt.names, List.mem_append, not_or] at hf
    cases x with
    | true => exact iha h hf.1
    | false => exact ihb h hf.2
  | union name members array => cases h

theorem Walk.visit_asked {st : Stmt} {w w' : Walk} (h : Walk.visit typesize d clo st w = some w')
    (hw : w.asked = true) : w'.asked = true := by
  induction st generalizing w w' with
  | skip =>
    cases h
    exact hw
  | seq a b iha ihb =>
    obtain ⟨w₁, h₁, h₂⟩ := Option.bind_eq_some_iff.mp h
    exact ihb h₂ (iha h₁ hw)
  | decl dl =>
    obtain ⟨num, ps, bits, -, -, -, rfl⟩ := walk_decl h
    simp [hw]
  | func g args => rw [(Walk.func_fields h).2, hw]
  | ifThen k b ih =>
    obtain ⟨x, -, h⟩ := Option.bind_eq_some_iff.mp h
    cases x with
    | true => exact ih h hw
    | false =>
      cases h
      exact hw
  | ifElse k a b iha ihb =>
    obtain ⟨x, -, h⟩ := Option.bind_eq_some_iff.mp h
    cases x with
    | true => exact iha h hw
    | false => exact ihb h hw
  | union name members array => cases h

/-- No name of the statement is taken. -/
structure Fresh (names : List String) (s : Builder) (w : Walk) : Prop where
  nodup : names.Nodup
  fields : ∀ f ∈ names, ∀ tf ∈ s.fields, tf.name ≠ .field f
  walk : ∀ f ∈ names, w.fields f = none

/-- The fields a statement registers carry its names. -/
theorem Builder.mem_names {st : Stmt} {s s' : Builder} (h : s.visit toPhys st = some s')
    (hnodup : st.names.Nodup) {tf : ThunkField} (htf : tf ∈ s'.fields) {f : String}
    (hname : tf.name = .field f) : tf ∈ s.fields ∨ f ∈ st.names := by
  obtain ⟨new, hnew⟩ := Builder.newNames_visit h hnodup
  obtain ⟨l, hl⟩ := (Builder.extends_visit h).fields
  rw [← hl] at htf
  rcases List.mem_append.mp htf with htf | htf
  · exact Or.inl htf
  · right
    have hfields := hnew.fields
    rw [← hl, List.map_append, List.append_cancel_left_eq] at hfields
    rw [← hnew.field f, ← hfields, ← hname]
    exact List.mem_map_of_mem htf

theorem Fresh.left {as bs : List String} (h : Fresh (as ++ bs) s w) : Fresh as s w :=
  ⟨(List.nodup_append.mp h.nodup).1, fun f hf => h.fields f (List.mem_append_left _ hf),
    fun f hf => h.walk f (List.mem_append_left _ hf)⟩

/-- The names of a later statement stay fresh. -/
theorem Fresh.right {st : Stmt} {bs : List String} {s' : Builder} {w' : Walk}
    (h : Fresh (st.names ++ bs) s w) (hs : s.visit toPhys st = some s')
    (hw : ∀ f ∉ st.names, w'.fields f = w.fields f) : Fresh bs s' w' := by
  obtain ⟨ha, hb, hdisj⟩ := List.nodup_append.mp h.nodup
  have hnot : ∀ f ∈ bs, f ∉ st.names := fun f hf hf' => hdisj f hf' f hf rfl
  refine ⟨hb, fun f hf tf htf hname => ?_, fun f hf => ?_⟩
  · rcases Builder.mem_names hs ha htf hname with htf | hst
    · exact h.fields f (List.mem_append_right _ hf) tf htf hname
    · exact hnot f hf hst
  · rw [hw f (hnot f hf)]
    exact h.walk f (List.mem_append_right _ hf)

/-! ## One statement -/

/-- Fields that are absent may be registered in between. -/
theorem Follows.widen (h : Follows R d clo s w) {s' : Builder} (hconds : s'.conds = s.conds)
    (hlast : s'.last = s.last)
    (hnew : ∀ tf ∈ s'.fields, ∀ f, tf.name = .field f →
      tf ∈ s.fields ∨ presence R d clo tf = some false ∧ w.fields f = none) :
    Follows R d clo s' w := by
  constructor
  · rw [hconds]
    exact h.conds
  · rw [Builder.copyCurrentOffset, hlast]
    exact h.cur
  · exact h.off
  · exact h.size
  · exact h.elems
  · intro tf htf f hname
    rcases hnew tf htf f hname with htf | ⟨habs, hnone⟩
    · exact h.present htf hname
    · rw [habs, hnone]
      rfl

/-- Under one more condition that holds. -/
theorem Follows.push (h : Follows R d clo s w) {c : Cond} (hc : c.eval R d clo = some true) :
    Follows R d clo { s with conds := s.conds ++ [c] } w := by
  refine ⟨fun k hk => ?_, h.cur, h.off, h.size, h.elems, h.present⟩
  rcases List.mem_append.mp hk with hk | hk
  · exact h.conds k hk
  · rw [List.mem_singleton.mp hk]
    exact hc

/-- Back under the conditions from before. -/
theorem Follows.pop (h : Follows R d clo s w) {cs : List Cond}
    (hcs : ∀ k ∈ cs, k.eval R d clo = some true) : Follows R d clo { s with conds := cs } w :=
  ⟨hcs, h.cur, h.off, h.size, h.elems, h.present⟩

theorem Stuck.visit {st : Stmt} {w' : Walk} (h : Stuck R w)
    (hw : Walk.visit typesize d clo st w = some w') (hfresh : ∀ f ∈ st.names, w.fields f = none) :
    Stuck R w' := by
  obtain ⟨f, info, hinfo, hoff⟩ := h
  have hf : f ∉ st.names := by
    intro hf
    rw [hfresh f hf] at hinfo
    cases hinfo
  exact ⟨f, info, (Walk.visit_fields hw hf).trans hinfo, hoff⟩

/-- The fields of a branch that is not taken. -/
theorem absent_branch {st : Stmt} (hplain : st.Plain false) {s s' : Builder}
    (h : s.visit toPhys st = some s') (hf : Fails R d clo s.conds) (hnodup : st.names.Nodup)
    (hwalk : ∀ f ∈ st.names, w.fields f = none) {tf : ThunkField} (htf : tf ∈ s'.fields) {f : String}
    (hname : tf.name = .field f) :
    tf ∈ s.fields ∨ presence R d clo tf = some false ∧ w.fields f = none := by
  rcases Builder.mem_names h hnodup htf hname with hold | hnew
  · exact Or.inl hold
  · rcases absent_of_fails hplain h hf htf hname with hold | habs
    · exact Or.inl hold
    · exact Or.inr ⟨habs, hwalk f hnew⟩

/-- What a statement keeps: the builder follows the walk, or a field is stuck. -/
def Kept (R : Calls) (d : Disk) (clo : Clo) (s : Builder) (w : Walk) : Prop :=
  w.asked = false ∧ Follows R d clo s w ∨ w.asked = true ∧ Stuck R w

section Statement

variable (hR : Solves typesize usize d t clo R)

include hR

theorem Follows.func {f : LayoutFn} {args : List Expr} {s' : Builder} {w' : Walk}
    (h : Follows R d clo s w) (hs : s.applyFn toPhys f args = some s')
    (hfind : ∀ tf ∈ s'.fields, t.find tf.name = some tf) (hw : w.func d clo f args = some w') :
    Follows R d clo s' w' := by
  obtain ⟨off, size, hdo, -, rfl⟩ := Builder.applyFn_eq_some hs
  have hinv := hfind (.createInvisible s.count (.raw off) size) (List.mem_append_right _ List.mem_cons_self)
  refine h.inv hR hinv (Walk.func_fields hw).1 ?_
  rw [Walk.func.eq_def] at hw
  split at hw
  case h_5 => cases hw
  all_goals
    obtain ⟨x, hx, rfl⟩ := Option.map_eq_some_iff.mp hw
    have harg := Expr.eval_subst h.le s.copyFromBase hx
    cases hdo
  case h_1 =>
    simp only [Off.eval, Expr.eval, harg, Option.bind_some, Option.map_some, UInt64.add_zero]
    rfl
  case h_2 =>
    simp only [Off.eval, Expr.eval, harg, Option.bind_some, Option.map_some, UInt64.add_zero]
    rfl
  case h_3 =>
    simp only [Off.eval, harg, h.cur, Option.map_some]
    cases w.lost <;> rfl
  case h_4 =>
    simp only [Off.eval, Expr.eval, harg, h.cur, Option.bind_some, Option.map_some]
    cases w.lost <;> rfl

/-- The join of a conditional: the invisible field picks the end of the branch that was taken. -/
theorem Follows.rebase {k : Cond} {b : Bool} {n : ℕ} {nextTrue nextFalse : Expr}
    (h : Follows R d clo s w) (hk : k.eval R d clo = some b)
    (hlast : s.copyCurrentOffset = if b then nextTrue else nextFalse)
    (hfind : t.find (.inv n) = some (.createInvisible n (.cond k nextTrue nextFalse) (.num 0))) :
    Follows R d clo (s.add (.createInvisible n (.cond k nextTrue nextFalse) (.num 0))) w := by
  refine h.inv hR hfind rfl ?_
  have hoff : (Off.cond k nextTrue nextFalse).eval d clo R = s.copyCurrentOffset.eval R d clo 0 := by
    show (k.eval R d clo).bind _ = _
    rw [hk, hlast, Option.bind_some]
    cases b <;> rfl
  rw [hoff, h.cur]
  cases w.lost with
  | true => rfl
  | false => exact congrArg some (UInt64.add_zero _)

/-- A statement under the conditions that hold keeps the builder behind the walk. -/
theorem visit_kept {st : Stmt} {top : Bool} (hplain : st.Plain top) {s s' : Builder}
    (hs : s.visit toPhys st = some s') (hfind : ∀ tf ∈ s'.fields, t.find tf.name = some tf)
    {w w' : Walk} (hw : Walk.visit typesize d clo st w = some w') (hfresh : Fresh st.names s w)
    (hask : w.asked = false) (h : Follows R d clo s w) : Kept R d clo s' w' := by
  induction st generalizing top s s' w w' with
  | skip =>
    cases hs
    cases hw
    exact Or.inl ⟨hask, h⟩
  | seq a b iha ihb =>
    obtain ⟨s₁, hs₁, hs₂⟩ := Option.bind_eq_some_iff.mp hs
    obtain ⟨w₁, hw₁, hw₂⟩ := Option.bind_eq_some_iff.mp hw
    have hfresh₂ := hfresh.right hs₁ fun f hf => Walk.visit_fields hw₁ hf
    have hfind₁ : ∀ tf ∈ s₁.fields, t.find tf.name = some tf :=
      fun tf htf => hfind tf ((Builder.extends_visit hs₂).fields.subset htf)
    rcases iha hplain.1 hs₁ hfind₁ hw₁ hfresh.left hask h with ⟨hask₁, h₁⟩ | ⟨hask₁, hstuck⟩
    · exact ihb hplain.2 hs₂ hfind hw₂ hfresh₂ hask₁ h₁
    · exact Or.inr ⟨Walk.visit_asked hw₂ hask₁, hstuck.visit hw₂ hfresh₂.walk⟩
  | decl dl =>
    cases hs
    have hf : t.find (.field dl.name) = some (s.declField dl) :=
      hfind (s.declField dl) (List.mem_append_right _ List.mem_cons_self)
    have hasked : w'.asked = w.lost := by
      obtain ⟨num, ps, bits, -, -, -, rfl⟩ := walk_decl hw
      simp [hask]
    cases hlost : w.lost with
    | false =>
      refine Or.inl ⟨hasked.trans hlost, ?_⟩
      exact h.decl hR hf hlost (hfresh.fields dl.name List.mem_cons_self) hw
    | true => exact Or.inr ⟨hasked.trans hlost, h.stuck hR hf hlost hw⟩
  | func f args =>
    refine Or.inl ⟨(Walk.func_fields hw).2.trans hask, ?_⟩
    exact h.func hR hs hfind hw
  | ifThen c b ih =>
    obtain ⟨s₁, k, hs₁, hk, rfl⟩ := Builder.visit_ifThen hs
    obtain ⟨x, hx, hw⟩ := Option.bind_eq_some_iff.mp hw
    have hc := Cond.eval_mono h.le hx
    have hinv := hfind _ (List.mem_append_right _ List.mem_cons_self)
    have hfind₁ : ∀ tf ∈ s₁.fields, t.find tf.name = some tf :=
      fun tf htf => hfind tf (List.mem_append_left _ htf)
    cases x with
    | true =>
      have hfresh₁ : Fresh b.names { s with conds := s.conds ++ [c] } w :=
        ⟨hfresh.nodup, hfresh.fields, hfresh.walk⟩
      rcases ih hplain hs₁ hfind₁ hw hfresh₁ hask (h.push hc) with ⟨hask₁, h₁⟩ | hstuck
      · exact Or.inl ⟨hask₁, (h₁.pop h.conds).rebase hR (getConds_true hk (h.push hc).conds) rfl hinv⟩
      · exact Or.inr hstuck
    | false =>
      cases hw
      have hfails : Fails R d clo (s.conds ++ [c]) := fails_of_last h.conds hc
      obtain ⟨k', hk', hfalse⟩ := hfails.getConds
      rw [hk] at hk'
      cases hk'
      have hwide : Follows R d clo { s₁ with conds := s.conds, last := s.last } w := by
        refine h.widen rfl rfl fun tf htf f hname => ?_
        exact absent_branch hplain hs₁ hfails hfresh.nodup hfresh.walk htf hname
      exact Or.inl ⟨hask, hwide.rebase hR hfalse rfl hinv⟩
  | ifElse c a b iha ihb =>
    obtain ⟨s₁, s₂, k, hs₁, hs₂, hk, rfl⟩ := Builder.visit_ifElse hs
    obtain ⟨x, hx, hw⟩ := Option.bind_eq_some_iff.mp hw
    have hc := Cond.eval_mono h.le hx
    have hinv := hfind _ (List.mem_append_right _ List.mem_cons_self)
    have hfind₂ : ∀ tf ∈ s₂.fields, t.find tf.name = some tf :=
      fun tf htf => hfind tf (List.mem_append_left _ htf)
    have hfind₁ : ∀ tf ∈ s₁.fields, t.find tf.name = some tf :=
      fun tf htf => hfind₂ tf ((Builder.extends_visit hs₂).fields.subset htf)
    have hfresh₀ : Fresh (a.names ++ b.names) { s with conds := s.conds ++ [c] } w :=
      ⟨hfresh.nodup, hfresh.fields, hfresh.walk⟩
    cases x with
    | true =>
      have hfails : Fails R d clo (s.conds ++ [.not c]) :=
        fails_of_last h.conds (by rw [Cond.eval, hc]; rfl)
      rcases iha hplain.1 hs₁ hfind₁ hw hfresh₀.left hask (h.push hc) with ⟨hask₁, h₁⟩ | hstuck
      · have hfresh₂ := hfresh₀.right hs₁ fun f hf => Walk.visit_fields hw hf
        have hwide : Follows R d clo { s₂ with conds := s.conds, last := s₁.last } w' := by
          refine (h₁.pop h.conds).widen rfl rfl fun tf htf f hname => ?_
          have hbranch := absent_branch hplain.2 hs₂ hfails hfresh₂.nodup hfresh₂.walk htf hname
          exact hbranch
        exact Or.inl ⟨hask₁, hwide.rebase hR (getConds_true hk (h.push hc).conds) rfl hinv⟩
      · exact Or.inr hstuck
    | false =>
      have hfails : Fails R d clo (s.conds ++ [c]) := fails_of_last h.conds hc
      obtain ⟨k', hk', hfalse⟩ := hfails.getConds
      rw [hk] at hk'
      cases hk'
      have hnot : (Cond.not c).eval R d clo = some true := by rw [Cond.eval, hc]; rfl
      have hfresh₂ := hfresh₀.right hs₁ fun f _ => rfl
      have hwide : Follows R d clo { s₁ with conds := s.conds, last := s.last } w := by
        refine h.widen rfl rfl fun tf htf f hname => ?_
        exact absent_branch hplain.1 hs₁ hfails hfresh₀.left.nodup hfresh₀.left.walk htf hname
      have hpush := hwide.push hnot
      rcases ihb hplain.2 hs₂ hfind₂ hw ⟨hfresh₂.nodup, hfresh₂.fields, hfresh₂.walk⟩ hask hpush with
        ⟨hask₂, h₂⟩ | hstuck
      · exact Or.inl ⟨hask₂, (h₂.pop h.conds).rebase hR hfalse rfl hinv⟩
      · exact Or.inr hstuck
  | union name members array => cases hplain

end Statement

/-! ## The whole block -/

theorem stable_unionSize (typesize : String → Clo → Option UInt64) (d : Disk)
    (us : List (String × ThunkType)) (u : String) (c : Clo) :
    Stable fun n => unionSize typesize d us n u c := by
  intro n v h
  obtain ⟨e, he, h⟩ := Option.bind_eq_some_iff.mp h
  refine Option.bind_eq_some_iff.mpr ⟨e, he, ?_⟩
  exact Expr.eval_mono (calls_le (fun _ _ => stable_const none) n) h

variable (toPhys) in
/-- The builder accepts every such block. -/
theorem exists_visit {st : Stmt} {top : Bool} (hplain : st.Plain top) {s : Builder}
    (hs : top = true → s.conds = []) : ∃ s', s.visit toPhys st = some s' := by
  induction st generalizing top s with
  | skip => exact ⟨s, rfl⟩
  | seq a b iha ihb =>
    obtain ⟨s₁, hs₁⟩ := iha hplain.1 hs
    have hconds := (Builder.extends_visit hs₁).conds
    obtain ⟨s₂, hs₂⟩ := ihb hplain.2 (s := s₁) fun htop => hconds.trans (hs htop)
    exact ⟨s₂, Option.bind_eq_some_iff.mpr ⟨s₁, hs₁, hs₂⟩⟩
  | decl dl => exact ⟨_, rfl⟩
  | func f args =>
    obtain ⟨htop, hlen, hf⟩ := hplain
    obtain ⟨a, rfl⟩ := List.length_eq_one_iff.mp hlen
    have hconds : ¬ s.conds.length ≠ 0 := by simp [hs htop]
    simp only [List.mem_cons, List.not_mem_nil, or_false] at hf
    rcases hf with rfl | rfl | rfl | rfl <;> exact ⟨_, if_neg hconds⟩
  | ifThen c b ih =>
    obtain ⟨s₁, hs₁⟩ := ih hplain (s := { s with conds := s.conds ++ [c] }) Bool.noConfusion
    exact ⟨_, Option.bind_eq_some_iff.mpr ⟨s₁, hs₁, rfl⟩⟩
  | ifElse c a b iha ihb =>
    obtain ⟨s₁, hs₁⟩ := iha hplain.1 (s := { s with conds := s.conds ++ [c] }) Bool.noConfusion
    obtain ⟨s₂, hs₂⟩ := ihb hplain.2
      (s := { s₁ with conds := s.conds ++ [.not c], last := s.last }) Bool.noConfusion
    exact ⟨_, Option.bind_eq_some_iff.mpr ⟨s₁, hs₁, Option.bind_eq_some_iff.mpr ⟨s₂, hs₂, rfl⟩⟩⟩
  | union name members array => cases hplain

/-- At the beginning of the block the next field starts at the base. -/
theorem Follows.init (hR : Solves typesize usize d t clo R) (numArgs : ℕ)
    (hf : t.find .base = some baseField) : Follows R d clo (.init numArgs) (.init clo) := by
  constructor
  · intro k hk
    cases hk
  · show ((R.thunk .off .base).bind fun x =>
      ((R.thunk .size .base).bind fun y => (R.thunk .elems .base).map fun z => y * z).map
        fun y => x + y) = _
    rw [hR.off hf, hR.size hf, hR.elems hf]
    refine congrArg some ?_
    show clo.offset + 0 * 0 = clo.offset
    simp
  · intro f info h
    cases h
  · intro f info h
    cases h
  · intro f info h
    cases h
  · intro tf htf f hname
    rw [List.mem_singleton.mp htf] at hname
    cases hname

/-- Agreement, in terms of what the functions return in the end. -/
theorem agrees_result {us : List (String × ThunkType)} {names : List String}
    (h : R = result typesize (unionSize typesize d us) d t clo) :
    Agrees typesize d clo t us names w ↔
      (∀ f info, w.fields f = some info → R.thunk .off (.field f) = some info.off) ∧
      (∀ f ∈ names, ∃ tf, t.find (.field f) = some tf ∧
        presence R d clo tf = some (w.fields f).isSome) ∧
      t.size.eval R d clo 0 = some (w.cursor - clo.offset) := by
  subst h
  have hle : ∀ n, (calls typesize (unionSize typesize d us) d t clo n).Le
      (calls typesize (unionSize typesize d us) d t clo (n + 1)) :=
    calls_le (stable_unionSize typesize d us)
  have hoff : ∀ f v, (result typesize (unionSize typesize d us) d t clo).thunk .off f = some v ↔
      ∃ n, (calls typesize (unionSize typesize d us) d t clo n).thunk .off f = some v :=
    fun f v => (stable_thunk hle .off f).lim_eq_some
  have hpresent : ∀ tf b,
      presence (result typesize (unionSize typesize d us) d t clo) d clo tf = some b ↔
        ∃ n, present typesize (unionSize typesize d us) d t clo n tf = some b := by
    intro tf b
    cases htf : tf.off with
    | raw e =>
      simp only [presence, present, htf]
      constructor
      · exact fun h => ⟨0, h⟩
      · rintro ⟨-, h⟩
        exact h
    | cond k e₁ e₂ =>
      simp only [presence, present, htf]
      rw [result, ← lim_cond hle k]
      exact (stable_cond hle k).lim_eq_some
  have hsize : ∀ v, t.size.eval (result typesize (unionSize typesize d us) d t clo) d clo 0 = some v ↔
      ∃ n, typeSize typesize (unionSize typesize d us) d t clo n = some v := by
    intro v
    rw [result, ← lim_eval hle 0 t.size]
    exact (stable_eval hle 0 t.size).lim_eq_some
  simp only [hoff, hpresent, hsize]
  constructor
  · exact fun h => ⟨h.off, h.present, h.size⟩
  · rintro ⟨h₁, h₂, h₃⟩
    exact ⟨h₁, h₂, h₃⟩

/-- The functions the builder leaves agree with the walk unless they have to measure an array that
has too many elements. -/
theorem agrees_of_visit {numArgs : ℕ} {block : Stmt} {s : Builder} (hplain : block.Plain true)
    (hnodup : block.names.Nodup) (hs : Builder.visit toPhys block (.init numArgs) = some s)
    (hw : Walk.visit typesize d clo block (.init clo) = some w) :
    Agrees typesize d clo ⟨s.fields, .sub s.copyCurrentOffset .argOff⟩ s.unions block.names w ↔
      w.asked = false ∧ w.lost = false := by
  set t : ThunkType := ⟨s.fields, .sub s.copyCurrentOffset .argOff⟩ with ht
  have hfind : ∀ tf ∈ s.fields, t.find tf.name = some tf := Builder.find_of_visit hs hnodup rfl
  set R := result typesize (unionSize typesize d s.unions) d t clo with hRdef
  have hR : Solves typesize _ d t clo R := result_solves (stable_unionSize typesize d s.unions) d t clo
  rw [agrees_result hRdef]
  have hbase : t.find .base = some baseField :=
    hfind baseField ((Builder.extends_visit hs).fields.subset List.mem_cons_self)
  have hfresh : Fresh block.names (.init numArgs) (.init clo) := by
    refine ⟨hnodup, fun f _ tf htf hname => ?_, fun f _ => rfl⟩
    rw [List.mem_singleton.mp htf] at hname
    cases hname
  have hsize : t.size.eval R d clo 0 =
      (s.copyCurrentOffset.eval R d clo 0).bind fun x => some (x - clo.offset) := rfl
  rcases visit_kept hR hplain hs hfind hw hfresh rfl (.init hR numArgs hbase) with
    ⟨hask, h⟩ | ⟨hask, f, info, hinfo, hnone⟩
  · rw [hsize, h.cur, hask]
    cases hlost : w.lost with
    | true =>
      constructor
      · rintro ⟨-, -, hsome⟩
        cases hsome
      · rintro ⟨-, hfalse⟩
        cases hfalse
    | false =>
      refine ⟨fun _ => ⟨rfl, rfl⟩, fun _ => ⟨fun f info => h.off, fun f hf => ?_, rfl⟩⟩
      obtain ⟨tf, htf, hname⟩ := Builder.exists_field hs hnodup hf
      exact ⟨tf, hname ▸ hfind tf htf, h.present htf hname⟩
  · constructor
    · rintro ⟨hoff, -, -⟩
      rw [hoff f info hinfo] at hnone
      cases hnone
    · rintro ⟨hfalse, -⟩
      rw [hask] at hfalse
      cases hfalse

/-- The functions of a type agree with the reference layout exactly if no present array of `2 ^ 32` or
more elements, measured one by one, has a present field or the end of the block behind it without a
`set` function in between. -/
theorem agrees_iff (toPhys : Disk → UInt64 → Option UInt64) (numArgs : ℕ) {block : Stmt}
    (hplain : block.Plain true) (hnodup : block.names.Nodup)
    (hw : Walk.visit typesize d clo block (.init clo) = some w) :
    ∃ t us, getSymTab toPhys numArgs block = some (t, us) ∧
      (Agrees typesize d clo t us block.names w ↔ w.asked = false ∧ w.lost = false) := by
  obtain ⟨s, hs⟩ := exists_visit toPhys hplain (s := .init numArgs) fun _ => rfl
  refine ⟨⟨s.fields, .sub s.copyCurrentOffset .argOff⟩, s.unions, ?_, ?_⟩
  · rw [getSymTab, hs]
    rfl
  · exact agrees_of_visit hplain hnodup hs hw

/-- A byte; a word that is there if the byte is one, else a long word; two elements of a type with a
parameter; and a word at a fixed place. -/
def sampleBlock : Stmt :=
  .seq (.decl ⟨"n", .prim 8, [], none, false⟩)
    (.seq (.ifElse (.test (fun d v => some (d.byte ((v 0).toNat / 8) == 1)) ![.thunk .off (.field "n")])
        (.decl ⟨"w", .prim 16, [], none, false⟩) (.decl ⟨"v", .prim 32, [], none, false⟩))
      (.seq (.decl ⟨"es", .user "e", [.argIdx], some (.num 2), false⟩)
        (.seq (.func .setBytes [.num 64]) (.decl ⟨"end", .prim 16, [], none, false⟩))))

/-- Element `i` of the type has `8 * (i + 1)` bits. -/
def sampleSize : String → Clo → Option UInt64
  | "e", ⟨_, [i]⟩ => some (8 * (i + 1))
  | _, _ => none

theorem agrees_sample :
    ∃ w, Walk.visit sampleSize (Disk.ofFn 80 (fun _ => 1) (by norm_num)) ⟨0, []⟩ sampleBlock
      (.init ⟨0, []⟩) = some w ∧ w.asked = false ∧ w.lost = false ∧
      ∃ t us, getSymTab (fun _ x => some x) 0 sampleBlock = some (t, us) ∧
        Agrees sampleSize (Disk.ofFn 80 (fun _ => 1) (by norm_num)) ⟨0, []⟩ t us sampleBlock.names w := by
  have hplain : sampleBlock.Plain true := by
    simp [sampleBlock, Stmt.Plain]
  have hnodup : sampleBlock.names.Nodup := by decide
  obtain ⟨w, hw, hask, hlost⟩ : ∃ w, Walk.visit sampleSize
      (Disk.ofFn 80 (fun _ => 1) (by norm_num)) ⟨0, []⟩ sampleBlock (.init ⟨0, []⟩) = some w ∧
      w.asked = false ∧ w.lost = false := ⟨_, rfl, rfl, rfl⟩
  obtain ⟨t, us, hget, hiff⟩ := agrees_iff (fun _ x => some x) 0 hplain hnodup hw
  exact ⟨w, hw, hask, hlost, t, us, hget, hiff.mpr ⟨hask, hlost⟩⟩

theorem Walk.decl_eq_some {dl : Decl} {num bits : UInt64} {ps : List UInt64}
    (hnum : dl.num d clo w = some num) (hps : evalParams w.calls d clo 0 dl.params = some ps)
    (hbits : dl.bits typesize d clo w num = some bits) :
    w.decl typesize d clo dl = some ⟨w.cursor + bits, Function.update w.fields dl.name
      (some ⟨w.cursor, dl.elemSize typesize d clo w 0 w.cursor, num⟩), w.lost || dl.TooLong num,
      w.asked || w.lost⟩ := by
  simp [Walk.decl, hnum, hps, hbits]

/-- An array of elements of a type, and a byte behind it. -/
def longBlock (num : UInt64) : Stmt :=
  .seq (.decl ⟨"a", .user "e", [], some (.num num), false⟩) (.decl ⟨"b", .prim 8, [], none, false⟩)

/-- The byte is asked for behind an array that is too long. -/
theorem asked_longBlock {num : UInt64} (hnum : 2 ^ 32 ≤ num.toNat) (d : Disk) (clo : Clo) :
    ∃ w, Walk.visit (fun _ _ => some 8) d clo (longBlock num) (.init clo) = some w ∧
      w.asked = true := by
  have hbits : Decl.bits (fun _ _ => some 8) d clo (.init clo)
      ⟨"a", .user "e", [], some (.num num), false⟩ num = some (8 * UInt64.ofNat num.toNat) :=
    elemBits_const 8 num.toNat 0 clo.offset
  have hlong : Decl.TooLong ⟨"a", .user "e", [], some (.num num), false⟩ num = true := by
    rw [Decl.TooLong]
    split
    next h =>
      cases h
      exact absurd hnum (by decide)
    next => simpa using hnum
    next h => exact (h _ _ rfl rfl).elim
  have hw₁ := Walk.decl_eq_some (w := .init clo) rfl rfl hbits
  exact ⟨_, Option.bind_eq_some_iff.mpr ⟨_, hw₁, rfl⟩, by simp [hlong]⟩

theorem not_agrees_longBlock :
    (longBlock 4294967296).Plain true ∧ (longBlock 4294967296).names.Nodup ∧
    ∃ w, Walk.visit (fun _ _ => some 8) (Disk.ofFn 80 (fun _ => 0) (by norm_num)) ⟨0, []⟩
      (longBlock 4294967296) (.init ⟨0, []⟩) = some w ∧
      ∃ t us, getSymTab (fun _ x => some x) 0 (longBlock 4294967296) = some (t, us) ∧
        ¬ Agrees (fun _ _ => some 8) (Disk.ofFn 80 (fun _ => 0) (by norm_num)) ⟨0, []⟩ t us
          (longBlock 4294967296).names w := by
  have hplain : (longBlock 4294967296).Plain true := ⟨trivial, trivial⟩
  have hnodup : (longBlock 4294967296).names.Nodup := by decide
  have hnum : 2 ^ 32 ≤ (4294967296 : UInt64).toNat := le_rfl
  obtain ⟨w, hw, hask⟩ := asked_longBlock hnum
    (Disk.ofFn 80 (fun _ => 0) (by norm_num)) ⟨0, []⟩
  obtain ⟨s, hs⟩ := exists_visit (fun _ x => some x) hplain (s := .init 0) fun _ => rfl
  refine ⟨hplain, hnodup, w, hw, _, _, by rw [getSymTab, hs]; rfl, ?_⟩
  rw [agrees_of_visit hplain hnodup hs hw, hask]
  rintro ⟨hfalse, -⟩
  cases hfalse

end Fsl.Layout
