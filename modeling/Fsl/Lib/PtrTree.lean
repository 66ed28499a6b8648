import Mathlib

/-!
# Pointer trees of an inode

A file is found through pointers: some in the inode, and some in blocks that other pointers name, one
or two levels deep. `g a` is the pointer in the cell at address `a`, and `ent b i` the address of
the `i`-th pointer of block `b`. A slot says where a pointer sits in the tree, whatever the blocks
are; its address depends on the pointers on the way to it.
-/

namespace PtrTree

/-- The place of a pointer: in the inode, in the single-indirect block, in the double-indirect
block, or in a block that the latter points to. -/
inductive Slot
  | direct (i : ℕ)
  | indir
  | bindir
  | ind (i : ℕ)
  | bi (q : ℕ)
  | leaf (q r : ℕ)
  deriving DecidableEq, Repr

namespace Slot

/-- The slot points to a block of pointers. -/
def isMeta : Slot → Bool
  | indir | bindir | bi _ => true
  | _ => false

/-- The slot that points to the block a slot sits in, and the index in that block. -/
def parent : Slot → Option (Slot × ℕ)
  | ind i => some (indir, i)
  | bi q => some (bindir, q)
  | leaf q r => some (bi q, r)
  | _ => none

/-- The slots that lead to a slot, and the slot itself. -/
def path : Slot → List Slot
  | ind i => [indir, ind i]
  | bi q => [bindir, bi q]
  | leaf q r => [bindir, bi q, leaf q r]
  | s => [s]

theorem isMeta_of_parent {s t : Slot} {i : ℕ} (h : s.parent = some (t, i)) : t.isMeta = true := by
  cases s <;> simp only [parent, Option.some.injEq, Prod.mk.injEq, reduceCtorEq] at h
  all_goals
    obtain ⟨rfl, rfl⟩ := h
    rfl

theorem mem_path_of_parent {s t : Slot} {i : ℕ} (h : s.parent = some (t, i)) : t ∈ s.path := by
  cases s <;> simp only [parent, Option.some.injEq, Prod.mk.injEq, reduceCtorEq] at h
  all_goals
    obtain ⟨rfl, rfl⟩ := h
    simp [path]

theorem not_mem_path_of_parent {s t : Slot} {i : ℕ} (h : s.parent = some (t, i)) :
    s ∉ t.path := by
  cases s <;> simp only [parent, Option.some.injEq, Prod.mk.injEq, reduceCtorEq] at h
  all_goals
    obtain ⟨rfl, rfl⟩ := h
    simp [path]

theorem eq_of_parent {s s' : Slot} {x : Slot × ℕ} (h : s.parent = some x)
    (h' : s'.parent = some x) : s = s' := by
  cases s <;> cases s' <;> grind [parent]

theorem mem_path_self (s : Slot) : s ∈ s.path := by
  cases s <;> simp [path]

end Slot

open Slot

/-- The addresses of the pointers in an inode. -/
structure Root where
  direct : ℕ → ℕ
  indir : ℕ
  bindir : ℕ

variable (ent : ℕ → ℕ → ℕ) (root : Root)

/-- The address of a slot. -/
def addr (g : ℕ → ℕ) : Slot → ℕ
  | direct i => root.direct i
  | indir => root.indir
  | bindir => root.bindir
  | ind i => ent (g root.indir) i
  | bi q => ent (g root.bindir) q
  | leaf q r => ent (g (ent (g root.bindir) q)) r

/-- The pointer in a slot. -/
def val (g : ℕ → ℕ) (s : Slot) : ℕ := g (addr ent root g s)

variable {ent root} {g g' : ℕ → ℕ}

theorem addr_of_parent {s t : Slot} {i : ℕ} (h : s.parent = some (t, i)) :
    addr ent root g s = ent (val ent root g t) i := by
  cases s <;> simp only [parent, Option.some.injEq, Prod.mk.injEq, reduceCtorEq] at h
  all_goals
    obtain ⟨rfl, rfl⟩ := h
    rfl

theorem addr_eq_of_no_parent {s : Slot} (h : s.parent = none) :
    addr ent root g' s = addr ent root g s := by
  cases s <;> first | rfl | simp [parent] at h

/-- A pointer only depends on the cells on the way to it. -/
theorem val_eq_of_agree {s : Slot}
    (h : ∀ t ∈ s.path, g' (addr ent root g t) = g (addr ent root g t)) :
    val ent root g' s = val ent root g s := by
  cases s with
  | direct i => exact h _ (mem_path_self _)
  | indir => exact h _ (mem_path_self _)
  | bindir => exact h _ (mem_path_self _)
  | ind i =>
    have h1 : g' root.indir = g root.indir := h indir (by simp [path])
    have h2 := h (ind i) (by simp [path])
    rw [val, addr, h1]
    exact h2
  | bi q =>
    have h1 : g' root.bindir = g root.bindir := h bindir (by simp [path])
    have h2 := h (bi q) (by simp [path])
    rw [val, addr, h1]
    exact h2
  | leaf q r =>
    have h1 : g' root.bindir = g root.bindir := h bindir (by simp [path])
    have h2 : g' (ent (g root.bindir) q) = g (ent (g root.bindir) q) := h (bi q) (by simp [path])
    have h3 := h (leaf q r) (by simp [path])
    rw [val, addr, h1, h2]
    exact h3

/-- A set of slots in use: it contains the way to each of its slots, and no two of them share a
cell. -/
structure InUse (ent : ℕ → ℕ → ℕ) (root : Root) (g : ℕ → ℕ) (S : Set Slot) : Prop where
  path_mem : ∀ s ∈ S, ∀ t ∈ s.path, t ∈ S
  addr_inj : Set.InjOn (addr ent root g) S

variable {S : Set Slot} {s₀ s : Slot} {b : ℕ}

/-- Slots are apart when the blocks of pointers are distinct, the pointers of the inode are, and the
latter do not lie in one of the former. -/
theorem InUse.of_distinct {p : ℕ}
    (hent : ∀ b b' i i', i < p → i' < p → ent b i = ent b' i' → b = b' ∧ i = i')
    (hpath : ∀ s ∈ S, ∀ t ∈ s.path, t ∈ S)
    (hidx : ∀ s ∈ S, ∀ t i, s.parent = some (t, i) → i < p)
    (hblk : Set.InjOn (val ent root g) {t | t ∈ S ∧ t.isMeta = true})
    (hroot : Set.InjOn (addr ent root g) {s | s ∈ S ∧ s.parent = none})
    (hapart : ∀ s ∈ S, s.parent = none → ∀ t ∈ S, t.isMeta = true → ∀ i, i < p →
      addr ent root g s ≠ ent (val ent root g t) i) : InUse ent root g S := by
  refine ⟨hpath, fun s hs s' hs' heq => ?_⟩
  cases h : s.parent with
  | none =>
    cases h' : s'.parent with
    | none => exact hroot ⟨hs, h⟩ ⟨hs', h'⟩ heq
    | some x' =>
      obtain ⟨t', i'⟩ := x'
      rw [addr_of_parent h'] at heq
      exact absurd heq (hapart s hs h t' (hpath s' hs' t' (mem_path_of_parent h'))
        (isMeta_of_parent h') i' (hidx s' hs' t' i' h'))
  | some x =>
    obtain ⟨t, i⟩ := x
    have ht := hpath s hs t (mem_path_of_parent h)
    cases h' : s'.parent with
    | none =>
      rw [addr_of_parent h] at heq
      exact absurd heq.symm (hapart s' hs' h' t ht (isMeta_of_parent h) i (hidx s hs t i h))
    | some x' =>
      obtain ⟨t', i'⟩ := x'
      have ht' := hpath s' hs' t' (mem_path_of_parent h')
      rw [addr_of_parent h, addr_of_parent h'] at heq
      obtain ⟨hval, rfl⟩ := hent _ _ _ _ (hidx s hs t i h) (hidx s' hs' t' i' h') heq
      have htt := hblk ⟨ht, isMeta_of_parent h⟩ ⟨ht', isMeta_of_parent h'⟩ hval
      subst htt
      exact eq_of_parent h h'

/-- A write to a slot does not change the pointers that do not lie below it. -/
theorem InUse.val_update_of_not_mem_path (hS : InUse ent root g S) (h₀ : s₀ ∈ S) (hs : s ∈ S)
    (hpath : s₀ ∉ s.path) :
    val ent root (Function.update g (addr ent root g s₀) b) s = val ent root g s := by
  refine val_eq_of_agree fun t ht => Function.update_of_ne (fun heq => hpath ?_) _ _
  rw [← hS.addr_inj (hS.path_mem s hs t ht) h₀ heq]
  exact ht

/-- A write to a slot shows in that slot. -/
theorem InUse.val_update_self (hS : InUse ent root g S) (h₀ : s₀ ∈ S) :
    val ent root (Function.update g (addr ent root g s₀) b) s₀ = b := by
  have haddr : addr ent root (Function.update g (addr ent root g s₀) b) s₀ =
      addr ent root g s₀ := by
    cases hp : s₀.parent with
    | none => exact addr_eq_of_no_parent hp
    | some p =>
      obtain ⟨t, i⟩ := p
      have hval := hS.val_update_of_not_mem_path (b := b) h₀
        (hS.path_mem s₀ h₀ t (mem_path_of_parent hp)) (not_mem_path_of_parent hp)
      exact (addr_of_parent hp).trans ((congrArg (fun v => ent v i) hval).trans (addr_of_parent hp).symm)
  rw [val, haddr, Function.update_self]

/-- Relinking is a lens: writing `b` to a slot in use changes the pointer of that slot to `b` and
no other, where block `b` holds a copy of the pointers below the slot. -/
theorem InUse.val_relink (hS : InUse ent root g S) (h₀ : s₀ ∈ S)
    (hcopy : ∀ t ∈ S, ∀ i, t.parent = some (s₀, i) →
      g (ent b i) = val ent root g t ∧ ent b i ≠ addr ent root g s₀) :
    val ent root (Function.update g (addr ent root g s₀) b) s₀ = b ∧
      ∀ s ∈ S, s ≠ s₀ → val ent root (Function.update g (addr ent root g s₀) b) s =
        val ent root g s := by
  have hchild : ∀ t ∈ S, ∀ i, t.parent = some (s₀, i) →
      val ent root (Function.update g (addr ent root g s₀) b) t = val ent root g t := by
    intro t ht i hp
    obtain ⟨hval, hne⟩ := hcopy t ht i hp
    rw [val, addr_of_parent hp, hS.val_update_self h₀, Function.update_of_ne hne, hval]
  refine ⟨hS.val_update_self h₀, fun s hs hne => ?_⟩
  by_cases hpath : s₀ ∈ s.path
  · -- the slot lies below the one written: directly, or two levels deep
    cases s with
    | direct i => exact absurd (List.mem_singleton.mp hpath).symm hne
    | indir => exact absurd (List.mem_singleton.mp hpath).symm hne
    | bindir => exact absurd (List.mem_singleton.mp hpath).symm hne
    | ind i =>
      have h : s₀ = indir := by
        simp only [path, List.mem_cons, List.not_mem_nil, or_false] at hpath
        exact hpath.resolve_right (Ne.symm hne)
      exact hchild _ hs i (by rw [h]; rfl)
    | bi q =>
      have h : s₀ = bindir := by
        simp only [path, List.mem_cons, List.not_mem_nil, or_false] at hpath
        exact hpath.resolve_right (Ne.symm hne)
      exact hchild _ hs q (by rw [h]; rfl)
    | leaf q r =>
      simp only [path, List.mem_cons, List.not_mem_nil, or_false] at hpath
      rcases hpath with h | h | h
      · have hbi : bi q ∈ S := hS.path_mem _ hs _ (by simp [path])
        have hval := hchild _ hbi q (by rw [h]; rfl)
        have hne' : addr ent root g (leaf q r) ≠ addr ent root g s₀ := fun heq =>
          hne (hS.addr_inj hs h₀ heq)
        have haddr : addr ent root (Function.update g (addr ent root g s₀) b) (leaf q r) =
            addr ent root g (leaf q r) := congrArg (fun v => ent v r) hval
        rw [val, haddr, Function.update_of_ne hne']
        rfl
      · exact hchild _ hs r (by rw [h]; rfl)
      · exact absurd h.symm hne
  · exact hS.val_update_of_not_mem_path h₀ hs hpath

end PtrTree
