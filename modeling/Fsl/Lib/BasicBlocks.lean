import Mathlib

/-!
# Basic blocks under construction

Blocks are lists of instructions over any type with a notion of terminator. A block is `Open` while it
has no terminator, `Closed` when its last instruction is its only one, and `Broken` when a terminator
is not the last. Code is built by appending to the current block; blocks that are left stay as they
are.
-/

namespace BasicBlocks

variable {I : Type}

section Shapes

variable (term : I → Bool)

/-- No terminator so far. -/
def Open (l : List I) : Prop := ∀ i ∈ l, term i = false

/-- Exactly one terminator, at the end. -/
def Closed (l : List I) : Prop := ∃ l' i, l = l' ++ [i] ∧ Open term l' ∧ term i = true

/-- A terminator that is not the last instruction. -/
def Broken (l : List I) : Prop := ¬ Open term l.dropLast

variable {term} {l l' : List I} {i : I}

theorem open_nil : Open term ([] : List I) := fun _ h => absurd h List.not_mem_nil

theorem Open.of_nil (h : l = []) : Open term l := by
  rw [h]
  exact open_nil

theorem Open.concat (h : Open term l) (hi : term i = false) : Open term (l ++ [i]) := by
  intro j hj
  rcases List.mem_append.mp hj with hj | hj
  · exact h j hj
  · rw [List.mem_singleton.mp hj, hi]

theorem Open.closed (h : Open term l) (hi : term i = true) : Closed term (l ++ [i]) :=
  ⟨l, i, rfl, h, hi⟩

theorem Open.mono (h : Open term l') (hl : l <+: l') : Open term l :=
  fun j hj => h j (hl.subset hj)

theorem Closed.not_open (h : Closed term l) : ¬ Open term l := by
  obtain ⟨l', i, rfl, -, hi⟩ := h
  intro hopen
  have hfalse := hopen i (List.mem_append_right _ List.mem_cons_self)
  rw [hi] at hfalse
  cases hfalse

theorem Closed.ne_nil (h : Closed term l) : l ≠ [] := by
  rintro rfl
  exact h.not_open open_nil

theorem Closed.getLast? (h : Closed term l) : ∃ i, l.getLast? = some i ∧ term i = true := by
  obtain ⟨l', i, rfl, -, hi⟩ := h
  exact ⟨i, by simp, hi⟩

theorem Broken.not_closed (h : Broken term l) : ¬ Closed term l := by
  rintro ⟨l', i, rfl, hopen, -⟩
  rw [Broken, List.dropLast_concat] at h
  exact h hopen

theorem prefix_dropLast (h : l <+: l') (hne : l ≠ l') : l <+: l'.dropLast := by
  obtain ⟨r, rfl⟩ := h
  have hr : r ≠ [] := by
    rintro rfl
    exact hne (List.append_nil l).symm
  rw [List.dropLast_append_of_ne_nil hr]
  exact List.prefix_append _ _

theorem Broken.mono (h : Broken term l) (hl : l <+: l') : Broken term l' := by
  by_cases heq : l = l'
  · rwa [← heq]
  · intro hopen
    have hdrop := List.dropLast_prefix l
    exact h (hopen.mono (hdrop.trans (prefix_dropLast hl heq)))

/-- Nothing can be added to a closed block. -/
theorem Closed.broken (h : Closed term l) (hl : l <+: l') (hne : l ≠ l') : Broken term l' :=
  fun hopen => h.not_open (hopen.mono (prefix_dropLast hl hne))

end Shapes

/-! ## Code -/

/-- The blocks, their number, and the one instructions are added to. -/
structure Code (I : Type) where
  blocks : ℕ → List I
  next : ℕ
  cur : ℕ

namespace Code

/-- The instructions of the current block. -/
def here (c : Code I) : List I := c.blocks c.cur

/-- Add an instruction at the insert point. -/
def emit (c : Code I) (i : I) : Code I :=
  { c with blocks := Function.update c.blocks c.cur (c.here ++ [i]) }

/-- Create `k` blocks. -/
def alloc (c : Code I) (k : ℕ) : Code I := { c with next := c.next + k }

/-- Go on in another block. -/
def setInsertPoint (c : Code I) (b : ℕ) : Code I := { c with cur := b }

variable {c c' c'' : Code I} {i : I} {b k : ℕ}

@[simp] theorem cur_emit : (c.emit i).cur = c.cur := rfl
@[simp] theorem next_emit : (c.emit i).next = c.next := rfl
@[simp] theorem here_emit : (c.emit i).here = c.here ++ [i] := by simp [here, emit]
@[simp] theorem cur_alloc : (c.alloc k).cur = c.cur := rfl
@[simp] theorem next_alloc : (c.alloc k).next = c.next + k := rfl
@[simp] theorem blocks_alloc : (c.alloc k).blocks = c.blocks := rfl
@[simp] theorem here_alloc : (c.alloc k).here = c.here := rfl
@[simp] theorem cur_setInsertPoint : (c.setInsertPoint b).cur = b := rfl
@[simp] theorem next_setInsertPoint : (c.setInsertPoint b).next = c.next := rfl
@[simp] theorem blocks_setInsertPoint : (c.setInsertPoint b).blocks = c.blocks := rfl
@[simp] theorem here_setInsertPoint : (c.setInsertPoint b).here = c.blocks b := rfl

theorem blocks_emit_of_ne (h : b ≠ c.cur) : (c.emit i).blocks b = c.blocks b :=
  Function.update_of_ne h _ _

theorem blocks_emit_cur : (c.emit i).blocks c.cur = c.here ++ [i] := Function.update_self _ _ _

/-- The current block is there, and blocks not yet created are empty. -/
structure Valid (c : Code I) : Prop where
  cur : c.cur < c.next
  nil : ∀ b, c.next ≤ b → c.blocks b = []

theorem Valid.emit (h : c.Valid) (i : I) : (c.emit i).Valid := by
  refine ⟨h.cur, fun b hb => ?_⟩
  have hcur := h.cur
  rw [blocks_emit_of_ne (by simp at hb; omega)]
  exact h.nil b hb

theorem Valid.alloc (h : c.Valid) (k : ℕ) : (c.alloc k).Valid :=
  ⟨Nat.lt_of_lt_of_le h.cur (Nat.le_add_right _ _), fun b hb =>
    h.nil b ((Nat.le_add_right _ _).trans hb)⟩

theorem Valid.setInsertPoint (h : c.Valid) (hb : b < c.next) : (c.setInsertPoint b).Valid :=
  ⟨hb, h.nil⟩

/-- Code was added to the current block and to new ones only. -/
structure Frame (c c' : Code I) : Prop where
  old : ∀ b, b ≠ c.cur → b < c.next → c'.blocks b = c.blocks b
  here : c.here <+: c'.blocks c.cur
  next : c.next ≤ c'.next
  cur : c'.cur = c.cur ∨ c.next ≤ c'.cur

theorem Frame.refl (c : Code I) : Frame c c := ⟨fun _ _ _ => rfl, List.prefix_rfl, le_rfl, Or.inl rfl⟩

theorem Frame.emit (c : Code I) (i : I) : Frame c (c.emit i) := by
  refine ⟨fun b hb _ => blocks_emit_of_ne hb, ?_, le_rfl, Or.inl rfl⟩
  rw [blocks_emit_cur]
  exact List.prefix_append _ _

theorem Frame.alloc (c : Code I) (k : ℕ) : Frame c (c.alloc k) :=
  ⟨fun _ _ _ => rfl, List.prefix_rfl, Nat.le_add_right _ _, Or.inl rfl⟩

theorem Frame.trans (h : Frame c c') (h' : Frame c' c'') (hv : c.Valid) : Frame c c'' := by
  have hcur := hv.cur
  have hnext := h.next
  have hnext' := h'.next
  constructor
  · intro b hb hlt
    have hb' : b ≠ c'.cur := by
      rcases h.cur with hc | hc
      · rwa [hc]
      · omega
    rw [h'.old b hb' (by omega), h.old b hb hlt]
  · rcases h.cur with hc | hc
    · have hhere : c'.here = c'.blocks c.cur := by rw [Code.here, hc]
      have hpre := h'.here
      rw [hhere, hc] at hpre
      exact h.here.trans hpre
    · rw [h'.old c.cur (by omega) (by omega)]
      exact h.here
  · omega
  · rcases h'.cur with hc' | hc'
    · rw [hc']
      exact h.cur
    · exact Or.inr (hnext.trans hc')

/-- To go on in a block created since is no change to the code. -/
theorem Frame.setInsertPoint (h : Frame c c') (hb : c.next ≤ b) : Frame c (c'.setInsertPoint b) :=
  ⟨h.old, h.here, h.next, Or.inr hb⟩

/-- Blocks only grow. -/
theorem Frame.grows (h : Frame c c') (hv : c.Valid) (b : ℕ) : c.blocks b <+: c'.blocks b := by
  by_cases hb : b = c.cur
  · subst hb
    exact h.here
  · by_cases hlt : b < c.next
    · rw [h.old b hb hlt]
    · rw [hv.nil b (not_lt.mp hlt)]
      exact List.nil_prefix

/-- Blocks only got longer. -/
def Le (c c' : Code I) : Prop := ∀ b, c.blocks b <+: c'.blocks b

theorem Le.refl (c : Code I) : Le c c := fun _ => List.prefix_rfl

theorem Le.trans (h : Le c c') (h' : Le c' c'') : Le c c'' := fun b => (h b).trans (h' b)

theorem Le.emit (h : Le c c') (i : I) : Le c (c'.emit i) := by
  intro b
  refine (h b).trans ?_
  by_cases hb : b = c'.cur
  · subst hb
    rw [blocks_emit_cur]
    exact List.prefix_append _ _
  · rw [blocks_emit_of_ne hb]

theorem Le.setInsertPoint (h : Le c c') (b : ℕ) : Le c (c'.setInsertPoint b) := h

/-- Valid code was made from valid code. -/
structure Grows (c c' : Code I) : Prop where
  before : c.Valid
  after : c'.Valid
  frame : Frame c c'

theorem Grows.refl (h : c.Valid) : Grows c c := ⟨h, h, .refl c⟩

theorem Grows.trans (h : Grows c c') (h' : Grows c' c'') : Grows c c'' :=
  ⟨h.before, h'.after, h.frame.trans h'.frame h.before⟩

theorem Grows.emit (h : Grows c c') (i : I) : Grows c (c'.emit i) :=
  ⟨h.before, h.after.emit i, h.frame.trans (.emit c' i) h.before⟩

theorem Grows.alloc (h : c.Valid) (k : ℕ) : Grows c (c.alloc k) := ⟨h, h.alloc k, .alloc c k⟩

theorem Grows.setInsertPoint (h : Grows c c') (hb : c.next ≤ b) (hb' : b < c'.next) :
    Grows c (c'.setInsertPoint b) :=
  ⟨h.before, h.after.setInsertPoint hb', h.frame.setInsertPoint hb⟩

theorem Grows.next_le (h : Grows c c') : c.next ≤ c'.next := h.frame.next

theorem Grows.le (h : Grows c c') : Le c c' := h.frame.grows h.before

theorem mem_emit {j : I} : j ∈ (c.emit i).blocks b ↔ j ∈ c.blocks b ∨ b = c.cur ∧ j = i := by
  by_cases hb : b = c.cur
  · subst hb
    rw [blocks_emit_cur, List.mem_append, List.mem_singleton]
    simp [here]
  · rw [blocks_emit_of_ne hb]
    simp [hb]

/-! ### Jumps -/

section Jumps

variable (targets : I → List ℕ)

/-- An instruction of block `p` may go to block `b`. -/
def Jumps (c : Code I) (p b : ℕ) : Prop := ∃ i ∈ c.blocks p, b ∈ targets i

/-- All jumps go to blocks that were created. -/
def Bounded (c : Code I) : Prop := ∀ p b, c.Jumps targets p b → b < c.next

variable {targets} {p : ℕ}

theorem jumps_emit :
    (c.emit i).Jumps targets p b ↔ c.Jumps targets p b ∨ p = c.cur ∧ b ∈ targets i := by
  constructor
  · rintro ⟨j, hj, hb⟩
    rcases mem_emit.mp hj with hj | ⟨hp, rfl⟩
    · exact Or.inl ⟨j, hj, hb⟩
    · exact Or.inr ⟨hp, hb⟩
  · rintro (⟨j, hj, hb⟩ | ⟨hp, hb⟩)
    · exact ⟨j, mem_emit.mpr (Or.inl hj), hb⟩
    · exact ⟨i, mem_emit.mpr (Or.inr ⟨hp, rfl⟩), hb⟩

@[simp] theorem jumps_alloc : (c.alloc k).Jumps targets p b ↔ c.Jumps targets p b := Iff.rfl

@[simp] theorem jumps_setInsertPoint {b' : ℕ} :
    (c.setInsertPoint b').Jumps targets p b ↔ c.Jumps targets p b := Iff.rfl

theorem Bounded.emit (h : c.Bounded targets) (hi : ∀ b ∈ targets i, b < c.next) :
    (c.emit i).Bounded targets := by
  intro p b hb
  rcases jumps_emit.mp hb with hb | ⟨-, hb⟩
  · exact h p b hb
  · exact hi b hb

theorem Bounded.alloc (h : c.Bounded targets) (k : ℕ) : (c.alloc k).Bounded targets :=
  fun p b hb => Nat.lt_of_lt_of_le (h p b hb) (Nat.le_add_right _ _)

theorem Bounded.setInsertPoint (h : c.Bounded targets) (b : ℕ) :
    (c.setInsertPoint b).Bounded targets := h

end Jumps

end Code

/-! ## Blocks that are waiting -/

section Shape

variable (term : I → Bool)

/-- The blocks of `pend` were created and wait for their code, in this order; all others that were
left are closed. -/
structure Shape (pend : List ℕ) (c : Code I) : Prop where
  valid : c.Valid
  nodup : pend.Nodup
  cur : c.cur ∉ pend
  nil : ∀ b ∈ pend, b < c.next ∧ c.blocks b = []
  closed : ∀ b < c.next, b ≠ c.cur → b ∉ pend → Closed term (c.blocks b)

/-- A block that does not wait has a terminator in the middle, or was left without one at its end. -/
def Bad (pend : List ℕ) (c : Code I) : Prop :=
  ∃ b < c.next, b ∉ pend ∧ (Broken term (c.blocks b) ∨ b ≠ c.cur ∧ ¬ Closed term (c.blocks b))

variable {term} {pend : List ℕ} {c c' : Code I} {b : ℕ}

theorem Shape.emit (h : Shape term pend c) (i : I) : Shape term pend (c.emit i) := by
  refine ⟨h.valid.emit i, h.nodup, h.cur, fun b hb => ?_, fun b hlt hne hb => ?_⟩
  · have hne : b ≠ c.cur := by
      rintro rfl
      exact h.cur hb
    rw [Code.blocks_emit_of_ne hne]
    exact h.nil b hb
  · have hne' : b ≠ c.cur := hne
    rw [Code.blocks_emit_of_ne hne']
    exact h.closed b hlt hne hb

theorem Shape.alloc (h : Shape term pend c) (k : ℕ) :
    Shape term (List.range' c.next k ++ pend) (c.alloc k) := by
  have hcur := h.valid.cur
  have hpend : ∀ b ∈ pend, b < c.next := fun b hb => (h.nil b hb).1
  refine ⟨h.valid.alloc k, ?_, ?_, fun b hb => ?_, fun b hlt hne hb => ?_⟩
  · refine List.nodup_append.mpr ⟨List.nodup_range', h.nodup, ?_⟩
    rintro a ha _ hb rfl
    have hlt := hpend a hb
    simp only [List.mem_range'_1] at ha
    omega
  · simp only [Code.cur_alloc, List.mem_append, List.mem_range'_1, not_or]
    exact ⟨by omega, h.cur⟩
  · rcases List.mem_append.mp hb with hb | hb
    · simp only [List.mem_range'_1] at hb
      exact ⟨hb.2, h.valid.nil b hb.1⟩
    · have hlt := hpend b hb
      exact ⟨by simp; omega, (h.nil b hb).2⟩
  · simp only [List.mem_append, List.mem_range'_1, not_or, Code.next_alloc] at hb hlt
    exact h.closed b (by omega) hne hb.2

/-- The next waiting block can be gone on in once the current one is closed. -/
theorem Shape.setInsertPoint (h : Shape term (b :: pend) c) (hc : Closed term c.here) :
    Shape term pend (c.setInsertPoint b) := by
  obtain ⟨hb, hnodup⟩ := List.nodup_cons.mp h.nodup
  have hnil := h.nil b List.mem_cons_self
  refine ⟨h.valid.setInsertPoint hnil.1, hnodup, hb, fun a ha => h.nil a (List.mem_cons_of_mem _ ha),
    fun a hlt hne ha => ?_⟩
  by_cases hcur : a = c.cur
  · rw [hcur]
    exact hc
  · refine h.closed a hlt hcur ?_
    rw [List.mem_cons, not_or]
    exact ⟨hne, ha⟩

/-- The block gone on in is empty. -/
theorem Shape.here_setInsertPoint (h : Shape term (b :: pend) c) : (c.setInsertPoint b).here = [] :=
  (h.nil b List.mem_cons_self).2

/-- Close the current block and go on in the next waiting one. -/
theorem Shape.close {i : I} (h : Shape term (b :: pend) c) (ho : Open term c.here)
    (hi : term i = true) :
    Shape term pend ((c.emit i).setInsertPoint b) ∧ ((c.emit i).setInsertPoint b).here = [] := by
  refine ⟨(h.emit i).setInsertPoint ?_, (h.emit i).here_setInsertPoint⟩
  rw [Code.here_emit]
  exact ho.closed hi

/-- A block left while it is not closed. -/
theorem Shape.bad_setInsertPoint (h : Shape term (b :: pend) c) (hc : ¬ Closed term c.here) :
    Bad term pend (c.setInsertPoint b) := by
  have hcur : c.cur ≠ b ∧ c.cur ∉ pend := by
    have hnot := h.cur
    rwa [List.mem_cons, not_or] at hnot
  exact ⟨c.cur, h.valid.cur, hcur.2, Or.inr ⟨hcur.1, hc⟩⟩

theorem Bad.grows (h : Bad term pend c) (hg : Code.Grows c c') : Bad term pend c' := by
  obtain ⟨b, hlt, hb, hbad⟩ := h
  refine ⟨b, hlt.trans_le hg.next_le, hb, ?_⟩
  rcases hbad with hbroken | ⟨hne, hopen⟩
  · exact Or.inl (hbroken.mono (hg.le b))
  · refine Or.inr ⟨?_, ?_⟩
    · rcases hg.frame.cur with hc | hc
      · rwa [hc]
      · omega
    · rwa [hg.frame.old b hne hlt]

theorem Bad.setInsertPoint (h : Bad term (b :: pend) c) : Bad term pend (c.setInsertPoint b) := by
  obtain ⟨a, hlt, ha, hbad⟩ := h
  rw [List.mem_cons, not_or] at ha
  refine ⟨a, hlt, ha.2, ?_⟩
  rcases hbad with hbroken | ⟨-, hopen⟩
  · exact Or.inl hbroken
  · exact Or.inr ⟨ha.1, hopen⟩

theorem Bad.not_closed (h : Bad term [] c) : ¬ ∀ b < c.next, Closed term (c.blocks b) := by
  obtain ⟨b, hlt, -, hbad⟩ := h
  intro hall
  rcases hbad with hbroken | ⟨-, hopen⟩
  · exact hbroken.not_closed (hall b hlt)
  · exact hopen (hall b hlt)

end Shape

end BasicBlocks
