import Mathlib

/-!
# Counted references

Nodes hold references to other nodes, and so do clients, whose references are called tokens. Each node
counts the references to it. A node whose last reference goes is released, and its own references become
tokens that are still to be dropped.
-/

namespace RefCount

variable {α : Type} [DecidableEq α]

/-- The nodes that are in use, what they refer to, and their counts. -/
structure Store (α : Type) where
  live : Finset α
  refs : α → Multiset α
  cnt : α → ℕ

/-- The references to a node that other nodes hold. -/
def Store.held (s : Store α) (n : α) : ℕ := ∑ m ∈ s.live, (s.refs m).count n

/-- The counts are exact: a node counts the references of nodes and the tokens, and all of them are to
nodes in use. -/
structure Exact (s : Store α) (tok : Multiset α) : Prop where
  closed : ∀ n ∈ s.live, ∀ m ∈ s.refs n, m ∈ s.live
  tok_live : ∀ m ∈ tok, m ∈ s.live
  cnt_eq : ∀ n ∈ s.live, s.cnt n = s.held n + tok.count n
  pos : ∀ n ∈ s.live, 0 < s.cnt n

namespace Store

/-- A new reference to a node. -/
def acquire (s : Store α) (n : α) : Store α :=
  { s with cnt := Function.update s.cnt n (s.cnt n + 1) }

/-- One reference fewer to a node. -/
def drop (s : Store α) (n : α) : Store α :=
  { s with cnt := Function.update s.cnt n (s.cnt n - 1) }

/-- A new node, to which there is one reference. -/
def insert (s : Store α) (n : α) (rs : Multiset α) : Store α where
  live := Insert.insert n s.live
  refs := Function.update s.refs n rs
  cnt := Function.update s.cnt n 1

/-- A node takes over a reference. -/
def attach (s : Store α) (n m : α) : Store α :=
  { s with refs := Function.update s.refs n (m ::ₘ s.refs n) }

/-- A node that nothing refers to any more. -/
def release (s : Store α) (n : α) : Store α := { s with live := s.live.erase n }

section Insert

variable {s : Store α} {n m : α} {rs : Multiset α}

theorem mem_insert : m ∈ (s.insert n rs).live ↔ m = n ∨ m ∈ s.live := Finset.mem_insert

theorem insert_cnt_self : (s.insert n rs).cnt n = 1 := Function.update_self _ _ _

theorem insert_cnt_of_ne (hm : m ≠ n) : (s.insert n rs).cnt m = s.cnt m := Function.update_of_ne hm _ _

theorem insert_refs_self : (s.insert n rs).refs n = rs := Function.update_self _ _ _

theorem insert_refs_of_ne (hm : m ≠ n) : (s.insert n rs).refs m = s.refs m :=
  Function.update_of_ne hm _ _

theorem attach_refs_self : (s.attach n m).refs n = m ::ₘ s.refs n := Function.update_self _ _ _

theorem attach_refs_of_ne {k : α} (hk : k ≠ n) : (s.attach n m).refs k = s.refs k :=
  Function.update_of_ne hk _ _

end Insert

end Store

namespace Exact

variable {s : Store α} {tok : Multiset α} {n m : α}

theorem held_eq_zero_of_not_live (h : Exact s tok) (hn : n ∉ s.live) : s.held n = 0 := by
  refine Finset.sum_eq_zero fun k hk => Multiset.count_eq_zero.mpr fun hmem => ?_
  exact hn (h.closed k hk n hmem)

theorem count_le_held (hn : n ∈ s.live) : (s.refs n).count m ≤ s.held m :=
  Finset.single_le_sum (f := fun k => (s.refs k).count m) (fun _ _ => Nat.zero_le _) hn

theorem acquire (h : Exact s tok) (hn : n ∈ s.live) : Exact (s.acquire n) (n ::ₘ tok) where
  closed := h.closed
  tok_live := by
    intro m hm
    rcases Multiset.mem_cons.mp hm with rfl | hm
    · exact hn
    · exact h.tok_live m hm
  cnt_eq := by
    intro m hm
    show Function.update s.cnt n (s.cnt n + 1) m = s.held m + _
    have hcnt := h.cnt_eq m hm
    by_cases heq : m = n
    · subst heq
      rw [Function.update_self, Multiset.count_cons_self]
      omega
    · rw [Function.update_of_ne heq, Multiset.count_cons_of_ne heq]
      exact hcnt
  pos := by
    intro m hm
    show 0 < Function.update s.cnt n (s.cnt n + 1) m
    by_cases heq : m = n
    · subst heq
      rw [Function.update_self]
      omega
    · rw [Function.update_of_ne heq]
      exact h.pos m hm

theorem drop (h : Exact s (n ::ₘ tok)) (h2 : 2 ≤ s.cnt n) : Exact (s.drop n) tok where
  closed := h.closed
  tok_live := fun m hm => h.tok_live m (Multiset.mem_cons_of_mem hm)
  cnt_eq := by
    intro m hm
    show Function.update s.cnt n (s.cnt n - 1) m = s.held m + _
    have hcnt := h.cnt_eq m hm
    by_cases heq : m = n
    · subst heq
      rw [Multiset.count_cons_self] at hcnt
      rw [Function.update_self]
      omega
    · rw [Multiset.count_cons_of_ne heq] at hcnt
      rw [Function.update_of_ne heq]
      exact hcnt
  pos := by
    intro m hm
    show 0 < Function.update s.cnt n (s.cnt n - 1) m
    by_cases heq : m = n
    · subst heq
      rw [Function.update_self]
      omega
    · rw [Function.update_of_ne heq]
      exact h.pos m hm

theorem held_insert {rs : Multiset α} (hn : n ∉ s.live) (m : α) :
    (s.insert n rs).held m = s.held m + rs.count m := by
  show ∑ k ∈ Insert.insert n s.live, (Function.update s.refs n rs k).count m = _
  rw [Finset.sum_insert hn, Function.update_self, Nat.add_comm]
  congr 1
  refine Finset.sum_congr rfl fun k hk => ?_
  have hne : k ≠ n := fun heq => hn (heq ▸ hk)
  rw [Function.update_of_ne hne]

theorem insert {rs : Multiset α} (h : Exact s (rs + tok)) (hn : n ∉ s.live) :
    Exact (s.insert n rs) (n ::ₘ tok) where
  closed := by
    intro k hk m hm
    change k ∈ Insert.insert n s.live at hk
    change m ∈ Function.update s.refs n rs k at hm
    refine Finset.mem_insert_of_mem ?_
    rcases Finset.mem_insert.mp hk with rfl | hk
    · rw [Function.update_self] at hm
      exact h.tok_live m (Multiset.mem_add.mpr (.inl hm))
    · have hne : k ≠ n := fun heq => hn (heq ▸ hk)
      rw [Function.update_of_ne hne] at hm
      exact h.closed k hk m hm
  tok_live := by
    intro m hm
    rcases Multiset.mem_cons.mp hm with rfl | hm
    · exact Finset.mem_insert_self _ _
    · exact Finset.mem_insert_of_mem (h.tok_live m (Multiset.mem_add.mpr (.inr hm)))
  cnt_eq := by
    intro m hm
    rw [held_insert hn]
    show Function.update s.cnt n 1 m = _
    by_cases heq : m = n
    · subst heq
      have htok : tok.count m = 0 := Multiset.count_eq_zero.mpr fun hmem =>
        hn (h.tok_live m (Multiset.mem_add.mpr (.inr hmem)))
      have hrs : rs.count m = 0 := Multiset.count_eq_zero.mpr fun hmem =>
        hn (h.tok_live m (Multiset.mem_add.mpr (.inl hmem)))
      rw [Function.update_self, h.held_eq_zero_of_not_live hn, hrs, Multiset.count_cons_self, htok]
    · have hlive : m ∈ s.live := (Finset.mem_insert.mp hm).resolve_left heq
      rw [Function.update_of_ne heq, Multiset.count_cons_of_ne heq, h.cnt_eq m hlive,
        Multiset.count_add, Nat.add_assoc]
  pos := by
    intro m hm
    show 0 < Function.update s.cnt n 1 m
    by_cases heq : m = n
    · subst heq
      rw [Function.update_self]
      exact Nat.one_pos
    · rw [Function.update_of_ne heq]
      exact h.pos m ((Finset.mem_insert.mp hm).resolve_left heq)

theorem held_attach (hn : n ∈ s.live) (k : α) :
    (s.attach n m).held k = s.held k + ({m} : Multiset α).count k := by
  show ∑ j ∈ s.live, (Function.update s.refs n (m ::ₘ s.refs n) j).count k = _
  rw [Store.held, ← Finset.add_sum_erase _ _ hn, ← Finset.add_sum_erase _ _ hn, Function.update_self,
    ← Multiset.singleton_add, Multiset.count_add]
  have hrest : ∑ j ∈ s.live.erase n, (Function.update s.refs n ({m} + s.refs n) j).count k =
      ∑ j ∈ s.live.erase n, (s.refs j).count k := by
    refine Finset.sum_congr rfl fun j hj => ?_
    rw [Function.update_of_ne (Finset.ne_of_mem_erase hj)]
  rw [hrest]
  omega

theorem attach (h : Exact s (m ::ₘ tok)) (hn : n ∈ s.live) : Exact (s.attach n m) tok where
  closed := by
    intro k hk j hj
    change j ∈ Function.update s.refs n (m ::ₘ s.refs n) k at hj
    by_cases heq : k = n
    · subst heq
      rw [Function.update_self] at hj
      rcases Multiset.mem_cons.mp hj with rfl | hj
      · exact h.tok_live j (Multiset.mem_cons_self j tok)
      · exact h.closed k hk j hj
    · rw [Function.update_of_ne heq] at hj
      exact h.closed k hk j hj
  tok_live := fun k hk => h.tok_live k (Multiset.mem_cons_of_mem hk)
  cnt_eq := by
    intro k hk
    rw [held_attach hn]
    have hcnt := h.cnt_eq k hk
    rw [← Multiset.singleton_add, Multiset.count_add] at hcnt
    exact hcnt.trans (Nat.add_assoc _ _ _).symm
  pos := h.pos

/-- A node that only a token refers to. -/
theorem unreferenced (h : Exact s (n ::ₘ tok)) (h1 : s.cnt n = 1) : s.held n = 0 ∧ n ∉ tok := by
  have hcnt := h.cnt_eq n (h.tok_live n (Multiset.mem_cons_self n tok))
  rw [Multiset.count_cons_self] at hcnt
  refine ⟨by omega, Multiset.count_eq_zero.mp (by omega)⟩

theorem not_mem_refs (hm : m ∈ s.live) (h0 : s.held n = 0) : n ∉ s.refs m :=
  Multiset.count_eq_zero.mp (Nat.le_zero.mp (h0 ▸ count_le_held hm))

theorem release (h : Exact s (n ::ₘ tok)) (h1 : s.cnt n = 1) :
    Exact (s.release n) (s.refs n + tok) := by
  obtain ⟨h0, htok⟩ := h.unreferenced h1
  have hn : n ∈ s.live := h.tok_live n (Multiset.mem_cons_self n tok)
  refine ⟨?_, ?_, ?_, fun m hm => h.pos m (Finset.mem_of_mem_erase hm)⟩
  · intro k hk m hm
    have hk' := Finset.mem_of_mem_erase hk
    refine Finset.mem_erase.mpr ⟨?_, h.closed k hk' m hm⟩
    rintro rfl
    exact not_mem_refs hk' h0 hm
  · intro m hm
    rcases Multiset.mem_add.mp hm with hmem | hmem
    · refine Finset.mem_erase.mpr ⟨?_, h.closed n hn m hmem⟩
      rintro rfl
      exact not_mem_refs hn h0 hmem
    · refine Finset.mem_erase.mpr ⟨?_, h.tok_live m (Multiset.mem_cons_of_mem hmem)⟩
      rintro rfl
      exact htok hmem
  · intro m hm
    have hm' := Finset.mem_of_mem_erase hm
    have hne : m ≠ n := Finset.ne_of_mem_erase hm
    have hheld : s.held m = (s.refs n).count m + (s.release n).held m :=
      (Finset.add_sum_erase _ _ hn).symm
    show s.cnt m = _
    rw [h.cnt_eq m hm', hheld, Multiset.count_cons_of_ne hne, Multiset.count_add]
    omega

end Exact

/-! ## Stores without garbage -/

/-- Where references go down in rank, what is in use is what the tokens lead to. -/
theorem Exact.live_subset {s s' : Store α} {tok : Multiset α} (rank : α → ℕ) (h : Exact s tok)
    (h' : Exact s' tok) (hrank : ∀ n ∈ s.live, ∀ m ∈ s.refs n, rank m < rank n)
    (hrefs : ∀ n ∈ s.live, n ∈ s'.live → s'.refs n = s.refs n) : s.live ⊆ s'.live := by
  by_contra hsub
  have hne : (s.live \ s'.live).Nonempty := Finset.sdiff_nonempty.mpr hsub
  obtain ⟨n, hn, hmax⟩ := Finset.exists_max_image _ rank hne
  obtain ⟨hlive, hdead⟩ := Finset.mem_sdiff.mp hn
  have htok : tok.count n = 0 := Multiset.count_eq_zero.mpr fun hmem => hdead (h'.tok_live n hmem)
  have hpos := h.pos n hlive
  rw [h.cnt_eq n hlive, htok, Nat.add_zero] at hpos
  obtain ⟨m, hm, hcount⟩ := Finset.exists_ne_zero_of_sum_ne_zero hpos.ne'
  have hmem : n ∈ s.refs m := Multiset.count_ne_zero.mp hcount
  -- what refers to it has a higher rank, and so is in use on both sides
  have hm' : m ∈ s'.live := by
    by_contra hnot
    exact absurd (hmax m (Finset.mem_sdiff.mpr ⟨hm, hnot⟩)) (not_le.mpr (hrank m hm n hmem))
  refine hdead (h'.closed m hm' n ?_)
  rw [hrefs m hm hm']
  exact hmem

end RefCount
