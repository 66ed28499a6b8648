import Mathlib

/-!
# Lists in a table of links

A table gives each place its successor. A list of `m` places `c 1, …, c m` is linked in it if each of
them has the next one as its successor; `c (m + 1)` is what ends the list. Exchanging one place of the
list for another takes three entries of the table.
-/

namespace Linked

section

variable {α : Type*}

/-- The places `c 1, …, c m` are different and linked, up to the end `c (m + 1)`. -/
structure IsList (f : α → α) (c : ℕ → α) (m : ℕ) : Prop where
  link : ∀ i, 1 ≤ i → i ≤ m → f (c i) = c (i + 1)
  inj : ∀ i k, 1 ≤ i → i ≤ m → 1 ≤ k → k ≤ m → c i = c k → i = k

variable [DecidableEq α]

/-- The table in which `a` stands in for the `j`-th place of the list, whose own entry is `free`. -/
def exchange (f : α → α) (c : ℕ → α) (j : ℕ) (a free : α) : α → α :=
  Function.update
    (Function.update (if 1 < j then Function.update f (c (j - 1)) a else f) a (c (j + 1))) (c j) free

variable {f : α → α} {c : ℕ → α} {m j : ℕ} {a free x : α}

theorem exchange_self : exchange f c j a free (c j) = free := Function.update_self _ _ _

theorem exchange_new (ha : a ≠ c j) : exchange f c j a free a = c (j + 1) := by
  rw [exchange, Function.update_of_ne ha, Function.update_self]

theorem exchange_prev (hj : 1 < j) (hprev : c (j - 1) ≠ c j) (ha : c (j - 1) ≠ a) :
    exchange f c j a free (c (j - 1)) = a := by
  rw [exchange, Function.update_of_ne hprev, Function.update_of_ne ha, if_pos hj, Function.update_self]

/-- The other entries are left alone. -/
theorem exchange_of_ne (hx : x ≠ c j) (ha : x ≠ a) (hprev : 1 < j → x ≠ c (j - 1)) :
    exchange f c j a free x = f x := by
  rw [exchange, Function.update_of_ne hx, Function.update_of_ne ha]
  split
  · next hj => rw [Function.update_of_ne (hprev hj)]
  · rfl

/-- What the entry of the new place was does not matter. -/
theorem exchange_update (v : α) (hprev : 1 < j → c (j - 1) ≠ a) :
    exchange (Function.update f a v) c j a free = exchange f c j a free := by
  unfold exchange
  split
  · next hj => rw [Function.update_comm (hprev hj).symm, Function.update_idem]
  · rw [Function.update_idem]

/-- The list with the `j`-th place exchanged is linked, with the same end. -/
theorem IsList.exchange (h : IsList f c m) (hj : 1 ≤ j) (hm : j ≤ m)
    (ha : ∀ i, 1 ≤ i → i ≤ m → c i ≠ a) :
    IsList (exchange f c j a free) (Function.update c j a) m := by
  constructor
  · intro i hi him
    rcases Nat.lt_trichotomy i j with hlt | rfl | hgt
    · have hne : c i ≠ c j := fun heq => by
        have := h.inj i j hi him hj hm heq
        omega
      by_cases hprev : i = j - 1
      · -- the predecessor is the only place whose link changes
        have hnext : i + 1 = j := by omega
        rw [Function.update_of_ne (by omega), hnext, Function.update_self, hprev]
        exact exchange_prev (by omega) (hprev ▸ hne) (ha _ (hprev ▸ hi) (hprev ▸ him))
      · have hnot : 1 < j → c i ≠ c (j - 1) := fun _ heq =>
          hprev (h.inj i (j - 1) hi him (by omega) (by omega) heq)
        rw [Function.update_of_ne (by omega), Function.update_of_ne (by omega),
          exchange_of_ne hne (ha i hi him) hnot]
        exact h.link i hi him
    · rw [Function.update_self, Function.update_of_ne (by omega)]
      exact exchange_new (ha i hi him).symm
    · have hne : ∀ k, 1 ≤ k → k < i → c i ≠ c k := fun k hk hki heq => by
        have := h.inj i k hi him hk (by omega) heq
        omega
      rw [Function.update_of_ne (by omega), Function.update_of_ne (by omega),
        exchange_of_ne (hne j hj hgt) (ha i hi him) fun hlt => hne (j - 1) (by omega) (by omega)]
      exact h.link i hi him
  · intro i k hi him hk hkm heq
    by_cases hij : i = j
    · by_cases hkj : k = j
      · omega
      · rw [hij, Function.update_self, Function.update_of_ne hkj] at heq
        exact absurd heq.symm (ha k hk hkm)
    · by_cases hkj : k = j
      · rw [hkj, Function.update_self, Function.update_of_ne hij] at heq
        exact absurd heq (ha i hi him)
      · rw [Function.update_of_ne hij, Function.update_of_ne hkj] at heq
        exact h.inj i k hi him hk hkm heq

/-- What becomes of an entry. -/
theorem exchange_cases (f : α → α) (c : ℕ → α) (j : ℕ) (a free x : α) :
    (x = c j ∧ exchange f c j a free x = free) ∨
      (x ≠ c j ∧ x = a ∧ exchange f c j a free x = c (j + 1)) ∨
      (x ≠ c j ∧ x ≠ a ∧ 1 < j ∧ x = c (j - 1) ∧ exchange f c j a free x = a) ∨
      (x ≠ c j ∧ x ≠ a ∧ exchange f c j a free x = f x) := by
  by_cases hself : x = c j
  · exact Or.inl ⟨hself, hself ▸ exchange_self⟩
  by_cases hnew : x = a
  · exact Or.inr (Or.inl ⟨hself, hnew, hnew ▸ exchange_new (hnew ▸ hself)⟩)
  by_cases hprev : 1 < j ∧ x = c (j - 1)
  · obtain ⟨hlt, rfl⟩ := hprev
    exact Or.inr (Or.inr (Or.inl ⟨hself, hnew, hlt, rfl, exchange_prev hlt hself hnew⟩))
  · exact Or.inr (Or.inr (Or.inr ⟨hself, hnew,
      exchange_of_ne hself hnew fun hlt heq => hprev ⟨hlt, heq⟩⟩))

/-- A list that shares no place with the one in which a place is exchanged. -/
theorem IsList.exchange_other {c' : ℕ → α} {m' : ℕ} (h : IsList f c' m') (hj : 1 ≤ j) (hm : j ≤ m)
    (hc : ∀ p q, 1 ≤ p → p ≤ m' → 1 ≤ q → q ≤ m → c' p ≠ c q)
    (ha : ∀ p, 1 ≤ p → p ≤ m' → c' p ≠ a) : IsList (Linked.exchange f c j a free) c' m' := by
  refine ⟨fun p hp hpm => ?_, h.inj⟩
  rw [exchange_of_ne (hc p j hp hpm hj hm) (ha p hp hpm) fun hlt =>
    hc p (j - 1) hp hpm (by omega) (by omega)]
  exact h.link p hp hpm

end

/-! ## Several lists in one table -/

section

variable {α ι : Type*}

/-- Lists that share no place, in a table whose entry `free` marks the places of no list. -/
structure Family (f : α → α) (free : α) (cs : ι → ℕ → α) (ms : ι → ℕ) : Prop where
  list : ∀ i, IsList f (cs i) (ms i)
  apart : ∀ i k, i ≠ k → ∀ p q, 1 ≤ p → p ≤ ms i → 1 ≤ q → q ≤ ms k → cs i p ≠ cs k q
  used : ∀ i p, 1 ≤ p → p ≤ ms i → f (cs i p) ≠ free

/-- The places that are free or in a list. -/
def Pool (f : α → α) (free : α) (cs : ι → ℕ → α) (ms : ι → ℕ) (y : α) : Prop :=
  f y = free ∨ ∃ i p, 1 ≤ p ∧ p ≤ ms i ∧ cs i p = y

namespace Family

variable {f : α → α} {free a y : α} {cs : ι → ℕ → α} {ms : ι → ℕ} {i : ι} {j : ℕ}

theorem ne_free (h : Family f free cs ms) (ha : f a = free) (i : ι) {p : ℕ} (hp : 1 ≤ p)
    (hpm : p ≤ ms i) : cs i p ≠ a := by
  rintro rfl
  exact h.used i p hp hpm ha

/-- What ends a list is not the mark of free places. -/
theorem next_ne_free (h : Family f free cs ms) (hj : 1 ≤ j) (hm : j ≤ ms i) :
    cs i (j + 1) ≠ free := by
  rw [← (h.list i).link j hj hm]
  exact h.used i j hj hm

variable [DecidableEq ι]

/-- The lists when place `j` of list `i` is exchanged for `a`. -/
def exchanged (cs : ι → ℕ → α) (i : ι) (j : ℕ) (a : α) : ι → ℕ → α :=
  Function.update cs i (Function.update (cs i) j a)

@[simp] theorem exchanged_self : exchanged cs i j a i = Function.update (cs i) j a :=
  Function.update_self _ _ _

theorem exchanged_of_ne {k : ι} (h : k ≠ i) : exchanged cs i j a k = cs k :=
  Function.update_of_ne h _ _

theorem exchanged_cases (cs : ι → ℕ → α) (i : ι) (j : ℕ) (a : α) (k : ι) (p : ℕ) :
    (k = i ∧ p = j ∧ exchanged cs i j a k p = a) ∨
      (¬ (k = i ∧ p = j) ∧ exchanged cs i j a k p = cs k p) := by
  by_cases hk : k = i
  · subst hk
    by_cases hp : p = j
    · exact Or.inl ⟨rfl, hp, by rw [exchanged_self, hp, Function.update_self]⟩
    · exact Or.inr ⟨fun h => hp h.2, by rw [exchanged_self, Function.update_of_ne hp]⟩
  · exact Or.inr ⟨fun h => hk h.1, by rw [exchanged_of_ne hk]⟩

variable [DecidableEq α]

/-- An exchange for a free place keeps the lists apart. -/
theorem exchange (h : Family f free cs ms) (hj : 1 ≤ j) (hm : j ≤ ms i) (ha : f a = free)
    (hne : a ≠ free) :
    Family (Linked.exchange f (cs i) j a free) free (exchanged cs i j a) ms := by
  have hnot : ∀ k p, 1 ≤ p → p ≤ ms k → cs k p ≠ a := fun k p hp hpm => h.ne_free ha k hp hpm
  refine ⟨fun k => ?_, fun k l hkl p q hp hpm hq hqm heq => ?_, fun k p hp hpm => ?_⟩
  · by_cases hk : k = i
    · subst hk
      rw [exchanged_self]
      exact (h.list k).exchange hj hm (hnot k)
    · rw [exchanged_of_ne hk]
      exact (h.list k).exchange_other hj hm (h.apart k i hk) (hnot k)
  · rcases exchanged_cases cs i j a k p with ⟨hki, -, hkp⟩ | ⟨-, hkp⟩ <;>
      rcases exchanged_cases cs i j a l q with ⟨hli, -, hlq⟩ | ⟨-, hlq⟩
    · exact hkl (hki.trans hli.symm)
    · exact hnot l q hq hqm (by rw [← hlq, ← heq, hkp])
    · exact hnot k p hp hpm (by rw [← hkp, heq, hlq])
    · exact h.apart k l hkl p q hp hpm hq hqm (by rw [← hkp, heq, hlq])
  · rcases exchanged_cases cs i j a k p with ⟨rfl, rfl, hkp⟩ | ⟨hold, hkp⟩
    · rw [hkp, exchange_new (hnot k p hp hpm).symm]
      exact h.next_ne_free hp hpm
    · rw [hkp]
      rcases exchange_cases f (cs i) j a free (cs k p) with ⟨heq, -⟩ | ⟨-, heq, -⟩ |
        ⟨-, -, -, -, hval⟩ | ⟨-, -, hval⟩
      · -- the old place was in this list only, and there only once
        by_cases hk : k = i
        · subst hk
          exact absurd ⟨rfl, (h.list k).inj p j hp hpm hj hm heq⟩ hold
        · exact absurd heq (h.apart k i hk p j hp hpm hj hm)
      · exact absurd heq (hnot k p hp hpm)
      · rw [hval]
        exact hne
      · rw [hval]
        exact h.used k p hp hpm

/-- No place gets lost. -/
theorem pool_exchange (h : Family f free cs ms) (hj : 1 ≤ j) (hm : j ≤ ms i) (ha : f a = free)
    (y : α) : Pool (Linked.exchange f (cs i) j a free) free (exchanged cs i j a) ms y ↔
      Pool f free cs ms y := by
  constructor
  · rintro (hfree | ⟨k, p, hp, hpm, rfl⟩)
    · rcases exchange_cases f (cs i) j a free y with ⟨rfl, -⟩ | ⟨-, rfl, -⟩ | ⟨-, -, hlt, rfl, -⟩ |
        ⟨-, -, hval⟩
      · exact Or.inr ⟨i, j, hj, hm, rfl⟩
      · exact Or.inl ha
      · exact Or.inr ⟨i, j - 1, by omega, by omega, rfl⟩
      · exact Or.inl (hval ▸ hfree)
    · rcases exchanged_cases cs i j a k p with ⟨-, -, hkp⟩ | ⟨-, hkp⟩
      · exact Or.inl (hkp.symm ▸ ha)
      · exact Or.inr ⟨k, p, hp, hpm, hkp.symm⟩
  · rintro (hfree | ⟨k, p, hp, hpm, rfl⟩)
    · by_cases hy : y = a
      · exact Or.inr ⟨i, j, hj, hm, by rw [exchanged_self, Function.update_self, hy]⟩
      · refine Or.inl ?_
        rw [exchange_of_ne (h.ne_free hfree i hj hm).symm hy fun hlt =>
          (h.ne_free hfree i (show 1 ≤ j - 1 by omega) (by omega)).symm]
        exact hfree
    · rcases exchanged_cases cs i j a k p with ⟨rfl, rfl, -⟩ | ⟨-, hkp⟩
      · exact Or.inl exchange_self
      · exact Or.inr ⟨k, p, hp, hpm, hkp⟩

omit [DecidableEq ι] in
/-- The entries outside the pool stay. -/
theorem exchange_of_not_pool (hj : 1 ≤ j) (hm : j ≤ ms i) (ha : f a = free)
    (hy : ¬ Pool f free cs ms y) : Linked.exchange f (cs i) j a free y = f y := by
  have hnot : ∀ p, 1 ≤ p → p ≤ ms i → y ≠ cs i p := fun p hp hpm heq =>
    hy (Or.inr ⟨i, p, hp, hpm, heq.symm⟩)
  exact exchange_of_ne (hnot j hj hm) (fun heq => hy (Or.inl (heq ▸ ha))) fun hlt =>
    hnot (j - 1) (by omega) (by omega)

omit [DecidableEq ι] in
/-- As many places are free as before. -/
theorem card_free_exchange (h : Family f free cs ms) (hj : 1 ≤ j) (hm : j ≤ ms i) (ha : f a = free)
    (hne : a ≠ free) {s : Finset α} (hold : cs i j ∈ s) (hnew : a ∈ s) :
    (s.filter fun y => Linked.exchange f (cs i) j a free y = free).card =
      (s.filter fun y => f y = free).card := by
  have hout : cs i j ∉ (s.filter fun y => f y = free).erase a := fun hmem =>
    h.used i j hj hm (Finset.mem_filter.mp (Finset.mem_of_mem_erase hmem)).2
  have hin : a ∈ s.filter fun y => f y = free := Finset.mem_filter.mpr ⟨hnew, ha⟩
  have hset : (s.filter fun y => Linked.exchange f (cs i) j a free y = free) =
      insert (cs i j) ((s.filter fun y => f y = free).erase a) := by
    ext y
    rw [Finset.mem_filter, Finset.mem_insert, Finset.mem_erase, Finset.mem_filter]
    rcases exchange_cases f (cs i) j a free y with ⟨rfl, hval⟩ | ⟨hself, rfl, hval⟩ |
      ⟨hself, hy, hlt, rfl, hval⟩ | ⟨hself, hy, hval⟩ <;> rw [hval]
    · simp [hold]
    · simp [h.next_ne_free hj hm, hself]
    · simp [hne, hself, h.used i (j - 1) (by omega) (by omega)]
    · simp [hself, hy]
  rw [hset, Finset.card_insert_of_notMem hout, Finset.card_erase_add_one hin]

end Family

end

end Linked
