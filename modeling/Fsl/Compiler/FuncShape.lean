import Fsl.Compiler.FuncScope

/-!
# When the blocks of a function are well formed

A block is left without a terminator if a branch of a conditional that has gone through other blocks
ends in one that already holds an instruction, and it has one in the middle if a statement follows a
return. Besides, nothing closes the last block but a return.
-/

namespace Fsl.Func

open BasicBlocks

/-- What a statement that adds instructions ends with. -/
inductive Kind
  | ret
  /-- A declaration or an assignment. -/
  | plain
  /-- A conditional or a loop: a new block. -/
  | branch
  deriving DecidableEq

/-- The last of the statements, if there is any. -/
def Stmt.last : Stmt → Option Kind
  | .skip => none
  | .seq a b => b.last.or a.last
  | .block s => s.last
  | .decl _ _ => some .plain
  | .assign _ _ _ => some .plain
  | .ret _ _ => some .ret
  | .ifThen _ _ _ => some .branch
  | .ifElse _ _ _ _ => some .branch
  | .while _ _ _ => some .branch

/-- There is a conditional or a loop among the statements. -/
def Stmt.splits : Stmt → Bool
  | .seq a b => a.splits || b.splits
  | .block s => s.splits
  | .ifThen _ _ _ => true
  | .ifElse _ _ _ _ => true
  | .while _ _ _ => true
  | _ => false

/-- Nothing follows a return, and a branch of a conditional with a conditional or a loop in it does not
end in a declaration or an assignment. -/
def Stmt.Lowers : Stmt → Prop
  | .skip => True
  | .seq a b => a.Lowers ∧ b.Lowers ∧ (a.last = some .ret → b.last = none)
  | .block s => s.Lowers
  | .decl _ _ => True
  | .assign _ _ _ => True
  | .ret _ _ => True
  | .ifThen _ _ t => t.Lowers ∧ ¬ (t.splits = true ∧ t.last = some .plain)
  | .ifElse _ _ t e => (t.Lowers ∧ ¬ (t.splits = true ∧ t.last = some .plain)) ∧
      e.Lowers ∧ ¬ (e.splits = true ∧ e.last = some .plain)
  | .while _ _ s => s.Lowers

instance Stmt.instDecidableLowers : ∀ s : Stmt, Decidable s.Lowers
  | .skip | .decl _ _ | .assign _ _ _ | .ret _ _ => inferInstanceAs (Decidable True)
  | .block s => instDecidableLowers s
  | .seq a b =>
    have := instDecidableLowers a
    have := instDecidableLowers b
    inferInstanceAs (Decidable (_ ∧ _))
  | .ifThen _ _ t =>
    have := instDecidableLowers t
    inferInstanceAs (Decidable (_ ∧ _))
  | .ifElse _ _ t e =>
    have := instDecidableLowers t
    have := instDecidableLowers e
    inferInstanceAs (Decidable (_ ∧ _))
  | .while _ _ s => instDecidableLowers s

/-! ## What code generation leaves alone -/

variable {fn : Fn} {β : Builder} {pend : List ℕ}

section Frames

theorem branchOn_grows_of {c : Cond} {k : ℕ} (hv : β.Valid) (hk : 0 < k)
    (h : Code.Grows (β.alloc k) (c.codeGen (β.alloc k)).1) :
    Code.Grows β (branchOn c k β) ∧ β.next + k ≤ (branchOn c k β).next := by
  have hnext : β.next + k ≤ (c.codeGen (β.alloc k)).1.next := h.next_le
  have hgrows := ((Code.Grows.alloc hv k).trans h).emit
    (.condBr (c.codeGen (β.alloc k)).2 β.next (β.next + 1))
  exact ⟨hgrows.setInsertPoint le_rfl (by simp; omega), hnext⟩

theorem Cond.codeGen_grows (c : Cond) (hv : β.Valid) : Code.Grows β (c.codeGen β).1 := by
  induction c generalizing β with
  | test k => exact (Code.Grows.refl hv).emit _
  | not a ih => exact (ih hv).emit _
  | and a b iha ihb =>
    obtain ⟨hx, hnx⟩ := branchOn_grows_of hv (by omega) (iha (hv.alloc 3))
    have h₂ := hx.trans (ihb hx.after)
    have hn₂ := (ihb hx.after).next_le
    have h₃ := (h₂.emit (.br (β.next + 2))).setInsertPoint (b := β.next + 1) (by omega)
      (by simp; omega)
    have h₄ := (h₃.emit (.br (β.next + 2))).setInsertPoint (b := β.next + 2) (by omega)
      (by simp; omega)
    exact h₄.emit _
  | or a b iha ihb =>
    obtain ⟨hx, hnx⟩ := branchOn_grows_of hv (by omega) (iha (hv.alloc 3))
    have hy := (hx.emit (.br (β.next + 2))).setInsertPoint (b := β.next + 1) (by omega)
      (by simp; omega)
    have h₂ := hy.trans (ihb hy.after)
    have hn₂ := (ihb hy.after).next_le
    simp only [Code.next_setInsertPoint, Code.next_emit] at hn₂
    have h₃ := (h₂.emit (.br (β.next + 2))).setInsertPoint (b := β.next + 2) (by omega)
      (by simp; omega)
    exact h₃.emit _

theorem branchOn_grows (c : Cond) {k : ℕ} (hv : β.Valid) (hk : 0 < k) :
    Code.Grows β (branchOn c k β) ∧ β.next + k ≤ (branchOn c k β).next :=
  branchOn_grows_of hv hk (c.codeGen_grows (hv.alloc k))

theorem loopHead_grows (hv : β.Valid) : Code.Grows β (loopHead β) :=
  ((Code.Grows.alloc hv 3).emit (.br β.next)).setInsertPoint le_rfl (by simp)

theorem loopBody_grows (c : Cond) (hv : β.Valid) :
    Code.Grows β (loopBody c β) ∧ β.next + 3 ≤ (loopBody c β).next := by
  have hhead := loopHead_grows hv
  have hcond := c.codeGen_grows hhead.after
  have hnext : β.next + 3 ≤ (c.codeGen (loopHead β)).1.next := hcond.next_le
  have hgrows := (hhead.trans hcond).emit
    (.condBr (c.codeGen (loopHead β)).2 (β.next + 1) (β.next + 2))
  exact ⟨hgrows.setInsertPoint (Nat.le_succ _) (by simp; omega), hnext⟩

/-- At most one branch is added at the end of a branch. -/
theorem closeBranch_eq (β : Builder) (bb bbMerge : ℕ) :
    closeBranch β bb bbMerge =
      if needsBr (β.blocks bb) = true ∨ β.here = [] then β.emit (.br bbMerge) else β := by
  by_cases hbr : needsBr (β.blocks bb) = true
  · have hhere : (β.emit (.br bbMerge)).here ≠ [] := by simp
    rw [closeBranch, if_pos hbr, if_neg hhere, if_pos (Or.inl hbr)]
  · rw [closeBranch, if_neg hbr]
    by_cases hnil : β.here = []
    · rw [if_pos hnil, if_pos (Or.inr hnil)]
    · rw [if_neg hnil, if_neg (not_or.mpr ⟨hbr, hnil⟩)]

theorem closeBranch_grows {β' : Builder} (h : Code.Grows β β') (bb bbMerge : ℕ) :
    Code.Grows β (closeBranch β' bb bbMerge) := by
  rw [closeBranch_eq]
  split
  · exact h.emit _
  · exact h

theorem closeBranch_le {β' : Builder} (h : Code.Le β β') (bb bbMerge : ℕ) :
    Code.Le β (closeBranch β' bb bbMerge) := by
  rw [closeBranch_eq]
  split
  · exact h.emit _
  · exact h

@[simp] theorem next_closeBranch (bb bbMerge : ℕ) : (closeBranch β bb bbMerge).next = β.next := by
  rw [closeBranch_eq]
  split <;> rfl

theorem emit_while (c : Cond) (names : List String) (s : Stmt) (β : Builder) :
    (Stmt.while c names s).emit fn β =
      Code.setInsertPoint (if needsBr (s.emit fn (loopBody c β)).here then
        (s.emit fn (loopBody c β)).emit (.br β.next) else s.emit fn (loopBody c β)) (β.next + 2) :=
  rfl

variable (fn) in
theorem Stmt.emit_grows (s : Stmt) (hv : β.Valid) : Code.Grows β (s.emit fn β) := by
  induction s generalizing β with
  | skip => exact .refl hv
  | seq a b iha ihb => exact (iha hv).trans (ihb (iha hv).after)
  | block s ih => exact ih hv
  | decl ty x => exact (Code.Grows.refl hv).emit _
  | assign x e names => exact (Code.Grows.refl hv).emit _
  | ret e names => exact (Code.Grows.refl hv).emit _
  | ifThen c names t iht =>
    obtain ⟨hx, hnx⟩ := branchOn_grows c (k := 2) hv (by omega)
    have h₂ := hx.trans (iht hx.after)
    have hn₂ := (iht hx.after).next_le
    exact (closeBranch_grows h₂ _ _).setInsertPoint (by omega) (by simp; omega)
  | ifElse c names t e iht ihe =>
    obtain ⟨hx, hnx⟩ := branchOn_grows c (k := 3) hv (by omega)
    have h₂ := hx.trans (iht hx.after)
    have hn₂ := (iht hx.after).next_le
    have hy := (closeBranch_grows h₂ β.next (β.next + 2)).setInsertPoint (b := β.next + 1) (by omega)
      (by simp; omega)
    have h₃ := hy.trans (ihe hy.after)
    have hn₃ := (ihe hy.after).next_le
    simp only [Code.next_setInsertPoint, next_closeBranch] at hn₃
    exact (closeBranch_grows h₃ _ _).setInsertPoint (by omega) (by simp; omega)
  | «while» c names s ih =>
    obtain ⟨hx, hnx⟩ := loopBody_grows c hv
    have h₂ := hx.trans (ih hx.after)
    have hn₂ := (ih hx.after).next_le
    rw [emit_while]
    split
    · exact (h₂.emit _).setInsertPoint (by omega) (by simp; omega)
    · exact h₂.setInsertPoint (by omega) (by omega)

variable (fn) in
/-- The builder at the beginning of the second branch. -/
theorem elseBranch_valid (c : Cond) (t : Stmt) (hv : β.Valid) :
    ((closeBranch (t.emit fn (branchOn c 3 β)) β.next (β.next + 2)).setInsertPoint
      (β.next + 1)).Valid := by
  obtain ⟨hx, hnx⟩ := branchOn_grows c (k := 3) hv (by omega)
  have hg := t.emit_grows fn hx.after
  have hnext := hg.next_le
  have hclose := closeBranch_grows (.refl hg.after) β.next (β.next + 2)
  exact hclose.after.setInsertPoint (by simp; omega)

end Frames

/-! ## Well formed blocks -/

theorem needsBr_of_open {l : List Instr} (h : Open Instr.isTerminator l) : needsBr l = true := by
  rw [needsBr]
  cases hl : l.getLast? with
  | none => rfl
  | some i => simp [h i (List.mem_of_getLast? hl)]

theorem needsBr_of_closed {l : List Instr} (h : Closed Instr.isTerminator l) :
    needsBr l = false := by
  obtain ⟨i, hl, hi⟩ := h.getLast?
  rw [needsBr, hl]
  simp [hi]

theorem Cond.codeGen_shape (c : Cond) (h : Shape Instr.isTerminator pend β)
    (ho : Open Instr.isTerminator β.here) :
    Shape Instr.isTerminator pend (c.codeGen β).1 ∧
      Open Instr.isTerminator (c.codeGen β).1.here := by
  induction c generalizing β pend with
  | test k =>
    refine ⟨h.emit _, ?_⟩
    show Open _ (β.emit (.test k)).here
    rw [Code.here_emit]
    exact ho.concat rfl
  | not a ih =>
    obtain ⟨h₁, ho₁⟩ := ih h ho
    refine ⟨h₁.emit _, ?_⟩
    show Open _ (Code.emit _ _).here
    rw [Code.here_emit]
    exact ho₁.concat rfl
  | and a b iha ihb =>
    obtain ⟨h₁, ho₁⟩ := iha (h.alloc 3) ho
    obtain ⟨hx, hxnil⟩ := h₁.close ho₁
      (i := .condBr (a.codeGen (β.alloc 3)).2 β.next (β.next + 1)) rfl
    obtain ⟨h₂, ho₂⟩ := ihb hx (.of_nil hxnil)
    obtain ⟨h₃, hnil₃⟩ := h₂.close ho₂ (i := .br (β.next + 2)) rfl
    obtain ⟨h₄, hnil₄⟩ := h₃.close (.of_nil hnil₃) (i := .br (β.next + 2)) rfl
    refine ⟨h₄.emit _, ?_⟩
    show Open _ (Code.emit _ _).here
    rw [Code.here_emit]
    exact Open.concat (.of_nil hnil₄) rfl
  | or a b iha ihb =>
    obtain ⟨h₁, ho₁⟩ := iha (h.alloc 3) ho
    obtain ⟨hx, hxnil⟩ := h₁.close ho₁
      (i := .condBr (a.codeGen (β.alloc 3)).2 β.next (β.next + 1)) rfl
    obtain ⟨hy, hynil⟩ := hx.close (.of_nil hxnil) (i := .br (β.next + 2)) rfl
    obtain ⟨h₂, ho₂⟩ := ihb hy (.of_nil hynil)
    obtain ⟨h₃, hnil₃⟩ := h₂.close ho₂ (i := .br (β.next + 2)) rfl
    refine ⟨h₃.emit _, ?_⟩
    show Open _ (Code.emit _ _).here
    rw [Code.here_emit]
    exact Open.concat (.of_nil hnil₃) rfl

theorem branchOn_shape (c : Cond) (k : ℕ) (h : Shape Instr.isTerminator pend β)
    (ho : Open Instr.isTerminator β.here) :
    Shape Instr.isTerminator (List.range' (β.next + 1) k ++ pend) (branchOn c (k + 1) β) ∧
      (branchOn c (k + 1) β).here = [] := by
  obtain ⟨h₁, ho₁⟩ := c.codeGen_shape (h.alloc (k + 1)) ho
  exact h₁.close ho₁ rfl

theorem loopBody_shape (c : Cond) (h : Shape Instr.isTerminator pend β)
    (ho : Open Instr.isTerminator β.here) :
    Shape Instr.isTerminator ((β.next + 2) :: pend) (loopBody c β) ∧ (loopBody c β).here = [] := by
  obtain ⟨h₀, hnil₀⟩ := (h.alloc 3).close ho (i := .br β.next) rfl
  obtain ⟨h₁, ho₁⟩ := c.codeGen_shape h₀ (.of_nil hnil₀)
  exact h₁.close ho₁ rfl

/-- What a statement leaves the builder in. -/
structure Ends (s : Stmt) (β β' : Builder) : Prop where
  ret : s.last = some .ret → Closed Instr.isTerminator β'.here
  open' : s.last ≠ some .ret → Open Instr.isTerminator β'.here
  branch : s.last = some .branch → β'.here = []
  plain : s.last = some .plain → β'.here ≠ []
  none : s.last = none → β' = β
  same : s.splits = false → β'.cur = β.cur
  moved : s.splits = true → β.next ≤ β'.cur

theorem Stmt.last_ne_none {s : Stmt} (h : s.splits = true) : s.last ≠ none := by
  induction s with
  | seq a b iha ihb =>
    rw [Stmt.splits, Bool.or_eq_true] at h
    rw [Stmt.last, Ne, Option.or_eq_none_iff, not_and_or]
    rcases h with h | h
    · exact Or.inr (iha h)
    · exact Or.inl (ihb h)
  | ifThen c names t => exact Option.some_ne_none _
  | ifElse c names t e => exact Option.some_ne_none _
  | «while» c names s => exact Option.some_ne_none _
  | skip => cases h
  | block s ih => exact ih h
  | decl ty x => cases h
  | assign x e names => cases h
  | ret e names => cases h

section Close

variable {t : Stmt} {βx β' : Builder} (hx : βx.Valid) (hgrows : Code.Grows βx β')
variable (h : Shape Instr.isTerminator pend β') (hpend : βx.cur ∉ pend) (hends : Ends t βx β')

include hx hgrows h hpend hends

/-- A branch that has gone on to other blocks has closed the one it began in. -/
theorem closed_first (hsplits : t.splits = true) :
    Closed Instr.isTerminator (β'.blocks βx.cur) := by
  have hcur := hx.cur
  have hnext := hgrows.next_le
  have hmoved := hends.moved hsplits
  exact h.closed βx.cur (by omega) (by omega) hpend

/-- Nothing is added to a branch that ends in a return. -/
theorem closeBranch_of_ret (hret : t.last = some .ret) (m : ℕ) : closeBranch β' βx.cur m = β' := by
  have hclosed := hends.ret hret
  have hno : ¬ (needsBr (β'.blocks βx.cur) = true ∨ β'.here = []) := by
    rw [not_or]
    refine ⟨?_, hclosed.ne_nil⟩
    have hfirst : Closed Instr.isTerminator (β'.blocks βx.cur) := by
      cases hsplits : t.splits with
      | true => exact closed_first hx hgrows h hpend hends hsplits
      | false =>
        rw [← hends.same hsplits]
        exact hclosed
    rw [needsBr_of_closed hfirst]
    exact Bool.false_ne_true
  rw [closeBranch_eq, if_neg hno]

omit hx hgrows h hpend in
/-- Any other branch of the accepted kind is left by a jump. -/
theorem closeBranch_of_next (hret : t.last ≠ some .ret)
    (hbranch : ¬ (t.splits = true ∧ t.last = some .plain)) (m : ℕ) :
    closeBranch β' βx.cur m = β'.emit (.br m) := by
  have hyes : needsBr (β'.blocks βx.cur) = true ∨ β'.here = [] := by
    cases hsplits : t.splits with
    | true =>
      right
      refine hends.branch ?_
      have hnone := Stmt.last_ne_none hsplits
      have hplain : t.last ≠ some .plain := fun hp => hbranch ⟨hsplits, hp⟩
      cases hlast : t.last with
      | none => exact absurd hlast hnone
      | some k =>
        cases k with
        | ret => exact absurd hlast hret
        | plain => exact absurd hlast hplain
        | branch => rfl
    | false =>
      left
      rw [← hends.same hsplits]
      exact needsBr_of_open (hends.open' hret)
  rw [closeBranch_eq, if_pos hyes]

theorem closeBranch_closed (hbranch : ¬ (t.splits = true ∧ t.last = some .plain)) (m : ℕ) :
    Shape Instr.isTerminator pend (closeBranch β' βx.cur m) ∧
      Closed Instr.isTerminator (closeBranch β' βx.cur m).here := by
  by_cases hret : t.last = some .ret
  · rw [closeBranch_of_ret hx hgrows h hpend hends hret]
    exact ⟨h, hends.ret hret⟩
  · rw [closeBranch_of_next hends hret hbranch]
    refine ⟨h.emit _, ?_⟩
    rw [Code.here_emit]
    exact (hends.open' hret).closed rfl

end Close

/-- A branch of the accepted kind, and the block behind it. -/
theorem branch_shape {t : Stmt} {βx : Builder} {m b : ℕ}
    (hx : Shape Instr.isTerminator (b :: pend) βx)
    (h : Shape Instr.isTerminator (b :: pend) (t.emit fn βx)) (hends : Ends t βx (t.emit fn βx))
    (hbranch : ¬ (t.splits = true ∧ t.last = some .plain)) :
    Shape Instr.isTerminator pend
        ((closeBranch (t.emit fn βx) βx.cur m).setInsertPoint b) ∧
      ((closeBranch (t.emit fn βx) βx.cur m).setInsertPoint b).here = [] := by
  obtain ⟨h', hclosed⟩ := closeBranch_closed hx.valid (t.emit_grows fn hx.valid) h hx.cur hends
    hbranch m
  exact ⟨h'.setInsertPoint hclosed, h'.here_setInsertPoint⟩

/-- A branch of another kind. -/
theorem branch_bad {t : Stmt} {βx : Builder} {m b : ℕ}
    (hx : Shape Instr.isTerminator (b :: pend) βx)
    (hbad : ¬ t.Lowers → Bad Instr.isTerminator (b :: pend) (t.emit fn βx))
    (hgood : t.Lowers → Shape Instr.isTerminator (b :: pend) (t.emit fn βx) ∧
      Ends t βx (t.emit fn βx))
    (hnot : ¬ (t.Lowers ∧ ¬ (t.splits = true ∧ t.last = some .plain))) :
    Bad Instr.isTerminator pend ((closeBranch (t.emit fn βx) βx.cur m).setInsertPoint b) := by
  have hg := t.emit_grows fn hx.valid
  by_cases ht : t.Lowers
  · obtain ⟨h, hends⟩ := hgood ht
    obtain ⟨hsplits, hplain⟩ : t.splits = true ∧ t.last = some .plain := by
      by_contra hno
      exact hnot ⟨ht, hno⟩
    have hopen := hends.open' (by rw [hplain]; simp)
    -- the block the branch began in is closed, the one it ends in is not
    have hfirst := closed_first hx.valid hg h hx.cur hends hsplits
    have hno : ¬ (needsBr ((t.emit fn βx).blocks βx.cur) = true ∨ (t.emit fn βx).here = []) := by
      rw [needsBr_of_closed hfirst, not_or]
      exact ⟨Bool.false_ne_true, hends.plain hplain⟩
    rw [closeBranch_eq, if_neg hno]
    exact h.bad_setInsertPoint fun hclosed => hclosed.not_open hopen
  · have hgrows := closeBranch_grows (.refl hg.after) βx.cur m
    exact ((hbad ht).grows hgrows).setInsertPoint

/-- A statement with no statement in it adds nothing. -/
theorem Stmt.emit_of_none {s : Stmt} (h : s.last = none) (β : Builder) : s.emit fn β = β := by
  induction s generalizing β with
  | skip => rfl
  | seq a b iha ihb =>
    obtain ⟨hb, ha⟩ := Option.or_eq_none_iff.mp h
    rw [Stmt.emit, iha ha, ihb hb]
  | block s ih => exact ih h β
  | decl ty x => cases h
  | assign x e names => cases h
  | ret e names => cases h
  | ifThen c names t => cases h
  | ifElse c names t e => cases h
  | «while» c names s => cases h

theorem Stmt.splits_of_none {s : Stmt} (h : s.last = none) : s.splits = false := by
  cases hs : s.splits with
  | false => rfl
  | true => exact absurd h (Stmt.last_ne_none hs)

/-- A conditional or a loop ends in a new, empty block. -/
theorem Ends.of_branch {s : Stmt} {β' : Builder} (hlast : s.last = some .branch)
    (hsplits : s.splits = true) (hnil : β'.here = []) (hcur : β.next ≤ β'.cur) : Ends s β β' := by
  constructor
  · rw [hlast]
    intro h
    cases h
  · intro _
    exact .of_nil hnil
  · exact fun _ => hnil
  · rw [hlast]
    intro h
    cases h
  · rw [hlast]
    intro h
    cases h
  · rw [hsplits]
    intro h
    cases h
  · exact fun _ => hcur

theorem Ends.seq {a b : Stmt} {β₁ β₂ : Builder} (hg : Code.Grows β β₁) (hg' : Code.Grows β₁ β₂)
    (ha : Ends a β β₁) (hb : b.last ≠ Option.none → Ends b β₁ β₂)
    (hnone : b.last = Option.none → β₂ = β₁) :
    Ends (.seq a b) β β₂ := by
  cases hlast : b.last with
  | none =>
    obtain rfl := hnone hlast
    have hseq : (Stmt.seq a b).last = a.last := by rw [Stmt.last, hlast, Option.none_or]
    have hsplits : (Stmt.seq a b).splits = a.splits := by
      rw [Stmt.splits, Stmt.splits_of_none hlast, Bool.or_false]
    exact ⟨hseq ▸ ha.ret, hseq ▸ ha.open', hseq ▸ ha.branch, hseq ▸ ha.plain, hseq ▸ ha.none,
      hsplits ▸ ha.same, hsplits ▸ ha.moved⟩
  | some k =>
    have hb := hb (by rw [hlast]; exact Option.some_ne_none k)
    have hseq : (Stmt.seq a b).last = b.last := by rw [Stmt.last, hlast, Option.some_or]
    refine ⟨hseq ▸ hb.ret, hseq ▸ hb.open', hseq ▸ hb.branch, hseq ▸ hb.plain, ?_, ?_, ?_⟩
    · rw [hseq, hlast]
      intro h
      cases h
    · intro h
      obtain ⟨hsa, hsb⟩ := Bool.or_eq_false_iff.mp h
      exact (hb.same hsb).trans (ha.same hsa)
    · intro h
      have hnext := hg.next_le
      rcases (Bool.or_eq_true _ _).mp h with hsa | hsb
      · rcases hg'.frame.cur with hc | hc
        · rw [hc]
          exact ha.moved hsa
        · omega
      · have hmoved := hb.moved hsb
        omega

/-- Straight-line statements. -/
theorem Ends.of_emit {s : Stmt} {i : Instr} (hsplits : s.splits = false)
    (hlast : s.last = some (if i.isTerminator then .ret else .plain))
    (ho : Open Instr.isTerminator β.here) : Ends s β (β.emit i) := by
  cases hi : i.isTerminator with
  | true =>
    rw [hi, if_pos rfl] at hlast
    refine ⟨fun _ => ?_, fun h => absurd hlast h, ?_, ?_, ?_, fun _ => rfl, ?_⟩
    · rw [Code.here_emit]
      exact ho.closed hi
    · rw [hlast]
      intro h
      cases h
    · rw [hlast]
      intro h
      cases h
    · rw [hlast]
      intro h
      cases h
    · rw [hsplits]
      intro h
      cases h
  | false =>
    rw [hi, if_neg Bool.false_ne_true] at hlast
    refine ⟨?_, fun _ => ?_, ?_, fun _ => ?_, ?_, fun _ => rfl, ?_⟩
    · rw [hlast]
      intro h
      cases h
    · rw [Code.here_emit]
      exact ho.concat hi
    · rw [hlast]
      intro h
      cases h
    · simp
    · rw [hlast]
      intro h
      cases h
    · rw [hsplits]
      intro h
      cases h

theorem isTerminator_assignInstr (x : String) (e : ValueExpr) :
    (assignInstr x e).isTerminator = false := by
  rw [assignInstr]
  split <;> rfl

variable (fn) in
/-- A statement of the accepted kind leaves only closed blocks behind. -/
theorem Stmt.emit_shape {s : Stmt} (hs : s.Lowers) (h : Shape Instr.isTerminator pend β)
    (ho : Open Instr.isTerminator β.here) :
    Shape Instr.isTerminator pend (s.emit fn β) ∧ Ends s β (s.emit fn β) := by
  induction s generalizing β pend with
  | skip =>
    refine ⟨h, ?_, fun _ => ho, ?_, ?_, fun _ => rfl, fun _ => rfl, ?_⟩ <;> intro hn <;> cases hn
  | seq a b iha ihb =>
    obtain ⟨hla, hlb, hret⟩ := hs
    obtain ⟨h₁, hends₁⟩ := iha hla h ho
    have hg := a.emit_grows fn h.valid
    have hg' := b.emit_grows fn h₁.valid
    by_cases hlast : b.last = none
    · have hsame : b.emit fn (a.emit fn β) = a.emit fn β := Stmt.emit_of_none hlast _
      refine ⟨?_, hends₁.seq hg hg' (fun hne => absurd hlast hne) fun _ => hsame⟩
      show Shape _ _ (b.emit fn (a.emit fn β))
      rw [hsame]
      exact h₁
    · have ho₁ := hends₁.open' fun hr => hlast (hret hr)
      obtain ⟨h₂, hends₂⟩ := ihb hlb h₁ ho₁
      exact ⟨h₂, hends₁.seq hg hg' (fun _ => hends₂) fun hn => absurd hn hlast⟩
  | block s ih =>
    obtain ⟨h', hends⟩ := ih hs h ho
    exact ⟨h', hends.ret, hends.open', hends.branch, hends.plain, hends.none, hends.same, hends.moved⟩
  | decl ty x => exact ⟨h.emit _, .of_emit rfl rfl ho⟩
  | assign x e names =>
    refine ⟨h.emit _, .of_emit rfl ?_ ho⟩
    rw [isTerminator_assignInstr]
    rfl
  | ret e names => exact ⟨h.emit _, .of_emit rfl rfl ho⟩
  | ifThen c names t iht =>
    obtain ⟨hx, hxnil⟩ := branchOn_shape c 1 h ho
    obtain ⟨h₂, hends⟩ := iht hs.1 hx (.of_nil hxnil)
    obtain ⟨h₃, hnil₃⟩ := branch_shape hx h₂ hends hs.2
    exact ⟨h₃, .of_branch rfl rfl hnil₃ (Nat.le_succ _)⟩
  | ifElse c names t e iht ihe =>
    obtain ⟨hx, hxnil⟩ := branchOn_shape c 2 h ho
    obtain ⟨h₂, hends⟩ := iht hs.1.1 hx (.of_nil hxnil)
    obtain ⟨hy, hynil⟩ := branch_shape (m := β.next + 2) hx h₂ hends hs.1.2
    obtain ⟨h₄, hends₄⟩ := ihe hs.2.1 hy (.of_nil hynil)
    obtain ⟨h₅, hnil₅⟩ := branch_shape hy h₄ hends₄ hs.2.2
    exact ⟨h₅, .of_branch rfl rfl hnil₅ (Nat.le_add_right _ _)⟩
  | «while» c names s ih =>
    obtain ⟨hx, hxnil⟩ := loopBody_shape c h ho
    obtain ⟨h₂, hends⟩ := ih hs hx (.of_nil hxnil)
    have hnext : β.next ≤ β.next + 2 := Nat.le_add_right _ _
    rw [emit_while]
    by_cases hret : s.last = some .ret
    · have hclosed := hends.ret hret
      rw [if_neg (by rw [needsBr_of_closed hclosed]; exact Bool.false_ne_true)]
      exact ⟨h₂.setInsertPoint hclosed, .of_branch rfl rfl h₂.here_setInsertPoint hnext⟩
    · have hopen := hends.open' hret
      rw [if_pos (needsBr_of_open hopen)]
      obtain ⟨h₃, hnil₃⟩ := h₂.close hopen (i := .br β.next) rfl
      exact ⟨h₃, .of_branch rfl rfl hnil₃ hnext⟩

/-! ## Blocks that are not well formed -/

theorem Cond.codeGen_here (c : Cond) (hv : β.Valid) :
    ∃ i, β.here ++ [i] <+: (c.codeGen β).1.blocks β.cur := by
  induction c generalizing β with
  | test k =>
    refine ⟨.test k, ?_⟩
    show _ <+: (β.emit (.test k)).blocks β.cur
    rw [Code.blocks_emit_cur]
  | not a ih =>
    obtain ⟨i, hi⟩ := ih hv
    exact ⟨i, hi.trans ((Code.Le.refl _).emit _ β.cur)⟩
  | and a b iha ihb =>
    obtain ⟨i, hi⟩ := iha (hv.alloc 3)
    obtain ⟨hx, hnx⟩ := branchOn_grows a (k := 3) hv (by omega)
    have h₁ : Code.Le (a.codeGen (β.alloc 3)).1 (branchOn a 3 β) := (Code.Le.refl _).emit _
    have h₂ := (h₁.trans (b.codeGen_grows hx.after).le).emit (.br (β.next + 2))
    have h₃ := (h₂.setInsertPoint (β.next + 1)).emit (.br (β.next + 2))
    exact ⟨i, hi.trans ((h₃.setInsertPoint (β.next + 2)).emit _ β.cur)⟩
  | or a b iha ihb =>
    obtain ⟨i, hi⟩ := iha (hv.alloc 3)
    obtain ⟨hx, hnx⟩ := branchOn_grows a (k := 3) hv (by omega)
    have hy := ((Code.Grows.refl hx.after).emit (.br (β.next + 2))).after.setInsertPoint
      (b := β.next + 1) (by simp; omega)
    have h₁ : Code.Le (a.codeGen (β.alloc 3)).1 (branchOn a 3 β) := (Code.Le.refl _).emit _
    have h₂ := ((h₁.emit (.br (β.next + 2))).setInsertPoint (β.next + 1)).trans
      (b.codeGen_grows hy).le
    have h₃ := (h₂.emit (.br (β.next + 2))).setInsertPoint (β.next + 2)
    exact ⟨i, hi.trans (h₃.emit _ β.cur)⟩

theorem Stmt.emit_here {s : Stmt} (hs : s.last ≠ none) (hv : β.Valid) :
    ∃ i, β.here ++ [i] <+: (s.emit fn β).blocks β.cur := by
  induction s generalizing β with
  | skip => exact absurd rfl hs
  | seq a b iha ihb =>
    have hg := a.emit_grows fn hv
    by_cases ha : a.last = none
    · have hb : b.last ≠ none := by
        intro hb
        exact hs (Option.or_eq_none_iff.mpr ⟨hb, ha⟩)
      show ∃ i, _ <+: (b.emit fn (a.emit fn β)).blocks β.cur
      rw [Stmt.emit_of_none ha]
      exact ihb hb hv
    · obtain ⟨i, hi⟩ := iha ha hv
      exact ⟨i, hi.trans ((b.emit_grows fn hg.after).le β.cur)⟩
  | block s ih => exact ih hs hv
  | decl ty x => exact ⟨_, by rw [Stmt.emit, Code.blocks_emit_cur]⟩
  | assign x e names => exact ⟨_, by rw [Stmt.emit, Code.blocks_emit_cur]⟩
  | ret e names => exact ⟨_, by rw [Stmt.emit, Code.blocks_emit_cur]⟩
  | ifThen c names t iht =>
    obtain ⟨i, hi⟩ := c.codeGen_here (hv.alloc 2)
    obtain ⟨hx, hnx⟩ := branchOn_grows c (k := 2) hv (by omega)
    have h₁ : Code.Le (c.codeGen (β.alloc 2)).1 (branchOn c 2 β) := (Code.Le.refl _).emit _
    have h₂ := h₁.trans (t.emit_grows fn hx.after).le
    exact ⟨i, hi.trans (closeBranch_le h₂ _ _ β.cur)⟩
  | ifElse c names t e iht ihe =>
    obtain ⟨i, hi⟩ := c.codeGen_here (hv.alloc 3)
    obtain ⟨hx, hnx⟩ := branchOn_grows c (k := 3) hv (by omega)
    have h₁ : Code.Le (c.codeGen (β.alloc 3)).1 (branchOn c 3 β) := (Code.Le.refl _).emit _
    have h₂ := h₁.trans (t.emit_grows fn hx.after).le
    have h₃ := ((closeBranch_le h₂ β.next (β.next + 2)).setInsertPoint (β.next + 1)).trans
      (e.emit_grows fn (elseBranch_valid fn c t hv)).le
    exact ⟨i, hi.trans (closeBranch_le h₃ _ _ β.cur)⟩
  | «while» c names s ih =>
    obtain ⟨hx, hnx⟩ := loopBody_grows c hv
    have hhead : β.here ++ [.br β.next] <+: (loopHead β).blocks β.cur := by
      show _ <+: ((β.alloc 3).emit (.br β.next)).blocks (β.alloc 3).cur
      rw [Code.blocks_emit_cur]
      exact List.prefix_rfl
    have h₁ : Code.Le (loopHead β) (loopBody c β) :=
      (c.codeGen_grows (loopHead_grows hv).after).le.emit _
    have h₂ := h₁.trans (s.emit_grows fn hx.after).le
    refine ⟨_, hhead.trans ?_⟩
    rw [emit_while]
    split
    · exact h₂.emit _ β.cur
    · exact h₂ β.cur

theorem Stmt.lowers_of_none {s : Stmt} (h : s.last = none) : s.Lowers := by
  induction s with
  | skip => trivial
  | seq a b iha ihb =>
    obtain ⟨hb, ha⟩ := Option.or_eq_none_iff.mp h
    exact ⟨iha ha, ihb hb, fun _ => hb⟩
  | block s ih => exact ih h
  | decl ty x => cases h
  | assign x e names => cases h
  | ret e names => cases h
  | ifThen c names t => cases h
  | ifElse c names t e => cases h
  | «while» c names s => cases h

/-- A statement of another kind leaves a block behind that is not well formed. -/
theorem Stmt.emit_bad {s : Stmt} (hs : ¬ s.Lowers) (h : Shape Instr.isTerminator pend β)
    (ho : Open Instr.isTerminator β.here) : Bad Instr.isTerminator pend (s.emit fn β) := by
  induction s generalizing β pend with
  | skip => exact absurd trivial hs
  | seq a b iha ihb =>
    by_cases hla : a.Lowers
    · obtain ⟨h₁, hends₁⟩ := a.emit_shape fn hla h ho
      by_cases hret : a.last = some .ret
      · have hemits : b.last ≠ none := by
          intro hnone
          exact hs ⟨hla, Stmt.lowers_of_none hnone, fun _ => hnone⟩
        -- the code of `b` goes behind the return
        have hg := b.emit_grows fn h₁.valid
        obtain ⟨i, hi⟩ := Stmt.emit_here hemits h₁.valid
        have hbroken : Broken Instr.isTerminator (Code.here (a.emit fn β) ++ [i]) :=
          (hends₁.ret hret).broken (List.prefix_append _ _) (by simp)
        exact ⟨(a.emit fn β).cur, h₁.valid.cur.trans_le hg.next_le, h₁.cur, Or.inl (hbroken.mono hi)⟩
      · have hlb : ¬ b.Lowers := fun hlb => hs ⟨hla, hlb, fun hr => absurd hr hret⟩
        exact ihb hlb h₁ (hends₁.open' hret)
    · exact (iha hla h ho).grows (b.emit_grows fn (a.emit_grows fn h.valid).after)
  | block s ih => exact ih hs h ho
  | decl ty x => exact absurd trivial hs
  | assign x e names => exact absurd trivial hs
  | ret e names => exact absurd trivial hs
  | ifThen c names t iht =>
    obtain ⟨hx, hxnil⟩ := branchOn_shape c 1 h ho
    have hxo : Open Instr.isTerminator (branchOn c 2 β).here := .of_nil hxnil
    exact branch_bad hx (fun ht => iht ht hx hxo) (fun ht => t.emit_shape fn ht hx hxo) hs
  | ifElse c names t e iht ihe =>
    obtain ⟨hx, hxnil⟩ := branchOn_shape c 2 h ho
    have hxo : Open Instr.isTerminator (branchOn c 3 β).here := .of_nil hxnil
    by_cases ht : t.Lowers ∧ ¬ (t.splits = true ∧ t.last = some .plain)
    · obtain ⟨h₂, hends⟩ := t.emit_shape fn ht.1 hx hxo
      obtain ⟨hy, hynil⟩ := branch_shape (m := β.next + 2) hx h₂ hends ht.2
      have hyo : Open Instr.isTerminator _ := .of_nil hynil
      exact branch_bad hy (fun he => ihe he hy hyo) (fun he => e.emit_shape fn he hy hyo)
        fun he => hs ⟨ht, he⟩
    · have hbad : Bad Instr.isTerminator ((β.next + 2) :: pend) ((closeBranch
          (t.emit fn (branchOn c 3 β)) β.next (β.next + 2)).setInsertPoint (β.next + 1)) :=
        branch_bad hx (fun ht => iht ht hx hxo) (fun ht => t.emit_shape fn ht hx hxo) ht
      have hg := e.emit_grows fn (elseBranch_valid fn c t h.valid)
      exact (hbad.grows (closeBranch_grows hg _ _)).setInsertPoint
  | «while» c names s ih =>
    obtain ⟨hx, hxnil⟩ := loopBody_shape c h ho
    have hbad := ih hs hx (.of_nil hxnil)
    have hg := s.emit_grows fn hx.valid
    rw [emit_while]
    split
    · exact (hbad.grows ((Code.Grows.refl hg.after).emit _)).setInsertPoint
    · exact hbad.setInsertPoint

theorem open_loadArgs (fn : Fn) (params : List String) : Open Instr.isTerminator (loadArgs fn params) := by
  intro i hi
  rcases List.mem_append.mp hi with hi | hi
  · obtain ⟨p, -, hp⟩ := List.mem_flatMap.mp hi
    simp only [List.mem_cons, List.not_mem_nil, or_false] at hp
    rcases hp with rfl | rfl <;> rfl
  · obtain ⟨x, -, rfl⟩ := List.mem_map.mp hi
    rfl

theorem shape_entryBuilder (fn : Fn) (params : List String) :
    Shape Instr.isTerminator [] (entryBuilder fn params) := by
  refine ⟨⟨Nat.zero_lt_one, fun b hb => ?_⟩, List.nodup_nil, List.not_mem_nil, ?_, ?_⟩
  · have hne : b ≠ 0 := Nat.one_le_iff_ne_zero.mp hb
    show Function.update (fun _ => []) 0 (loadArgs fn params) b = []
    exact Function.update_of_ne hne _ _
  · exact fun b hb => absurd hb List.not_mem_nil
  · intro b hlt hne
    have hzero : b = 0 := Nat.lt_one_iff.mp hlt
    exact absurd hzero hne

theorem here_entryBuilder (fn : Fn) (params : List String) : (entryBuilder fn params).here = loadArgs fn params := by
  show Function.update (fun _ => []) 0 (loadArgs fn params) 0 = _
  exact Function.update_self _ _ _

/-- The blocks of a function are well formed exactly if its body is of the accepted kind and ends in a
return. -/
theorem wellFormed_iff_lowers (fn : Fn) (params : List String) (body : Stmt) :
    WellFormed (body.emit fn (entryBuilder fn params)) ↔ body.Lowers ∧ body.last = some .ret := by
  have hshape := shape_entryBuilder fn params
  have hopen : Open Instr.isTerminator (entryBuilder fn params).here := by
    rw [here_entryBuilder]
    exact open_loadArgs fn params
  by_cases hlow : body.Lowers
  · obtain ⟨h, hends⟩ := body.emit_shape fn hlow hshape hopen
    constructor
    · intro hwf
      refine ⟨hlow, ?_⟩
      by_contra hret
      exact (hwf _ h.valid.cur).not_open (hends.open' hret)
    · rintro ⟨-, hret⟩ b hb
      by_cases hcur : b = Code.cur (body.emit fn (entryBuilder fn params))
      · rw [hcur]
        exact hends.ret hret
      · exact h.closed b hb hcur List.not_mem_nil
  · refine ⟨fun hwf => ?_, fun h => absurd h.1 hlow⟩
    exact absurd hwf (Stmt.emit_bad hlow hshape hopen).not_closed

end Fsl.Func
