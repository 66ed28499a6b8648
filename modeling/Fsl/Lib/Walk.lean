import Mathlib

/-!
# Walks that list what they pass

A walk goes from state to state, takes or skips what it finds there, and ends or gets stuck. A walk may
be cut into calls, each of which takes a bounded number of items; the next call begins where the one
before it ended.
-/

namespace Walk

variable {ι σ : Type}

/-- What a walk does in a state. -/
inductive Step (ι σ : Type)
  | take (i : ι) (s : σ)
  | skip (s : σ)
  | last
  | stuck

/-- What is taken, if the walk ends within `k` steps. -/
def walk (step : σ → Step ι σ) : ℕ → σ → Option (List ι)
  | 0, _ => none
  | k + 1, s =>
    match step s with
    | .take i s' => (walk step k s').map (i :: ·)
    | .skip s' => walk step k s'
    | .last => some []
    | .stuck => none

/-- The walk ends, and this is what it took. -/
def Lists (step : σ → Step ι σ) (s : σ) (l : List ι) : Prop := ∃ k, walk step k s = some l

variable {step : σ → Step ι σ} {s s' : σ} {l : List ι} {i : ι}

theorem lists_iff : Lists step s l ↔
    match step s with
    | .take i s' => ∃ l', l = i :: l' ∧ Lists step s' l'
    | .skip s' => Lists step s' l
    | .last => l = []
    | .stuck => False := by
  constructor
  · rintro ⟨k, hk⟩
    cases k with
    | zero => cases hk
    | succ k =>
      rw [walk] at hk
      split at hk
      next i s' hs =>
        obtain ⟨l', hl', rfl⟩ := Option.map_eq_some_iff.mp hk
        exact ⟨l', rfl, k, hl'⟩
      next s' hs => exact ⟨k, hk⟩
      next hs => exact (Option.some.inj hk).symm
      next hs => cases hk
  · intro h
    cases hs : step s with
    | take i s' =>
      rw [hs] at h
      obtain ⟨l', rfl, k, hk⟩ := h
      exact ⟨k + 1, by simp only [walk, hs, hk, Option.map_some]⟩
    | skip s' =>
      rw [hs] at h
      obtain ⟨k, hk⟩ := h
      exact ⟨k + 1, by rw [walk, hs]; exact hk⟩
    | last =>
      rw [hs] at h
      change l = [] at h
      subst h
      exact ⟨1, by rw [walk, hs]⟩
    | stuck =>
      rw [hs] at h
      exact h.elim

theorem lists_take_iff (h : step s = .take i s') :
    Lists step s l ↔ ∃ l', l = i :: l' ∧ Lists step s' l' := by
  rw [lists_iff, h]

theorem lists_skip_iff (h : step s = .skip s') : Lists step s l ↔ Lists step s' l := by
  rw [lists_iff, h]

theorem lists_last_iff (h : step s = .last) : Lists step s l ↔ l = [] := by
  rw [lists_iff, h]

theorem not_lists_of_stuck (h : step s = .stuck) : ¬ Lists step s l := by
  rw [lists_iff, h]
  exact id

/-! ## Calls -/

/-- One call: at most `cap` items are taken, and the walk is left where the next one begins. -/
def call (step : σ → Step ι σ) : ℕ → ℕ → σ → Option (List ι × σ)
  | 0, _, _ => none
  | k + 1, cap, s =>
    match step s with
    | .take i s' =>
      match cap with
      | 0 => some ([], s)
      | cap + 1 => (call step k cap s').map fun r => (i :: r.1, r.2)
    | .skip s' => call step k cap s'
    | .last => some ([], s)
    | .stuck => none

/-- Calls that take at least one item each, until one of them finds nothing. -/
def calls (step : σ → Step ι σ) (k : ℕ) : List ℕ → σ → Option (List ι)
  | [], _ => none
  | cap :: caps, s =>
    match call step k (cap + 1) s with
    | none => none
    | some ([], _) => some []
    | some (i :: l, s') => (calls step k caps s').map ((i :: l) ++ ·)

/-- What was taken in a call and what can be taken after it is what can be taken in all. -/
theorem lists_of_call {k cap : ℕ} {l' : List ι} (h : call step k cap s = some (l, s'))
    (h' : Lists step s' l') : Lists step s (l ++ l') := by
  induction k generalizing cap s l with
  | zero => cases h
  | succ k ih =>
    rw [call] at h
    split at h
    next i t hs =>
      cases cap with
      | zero =>
        cases h
        exact h'
      | succ cap =>
        obtain ⟨⟨l₁, s₁⟩, hr, heq⟩ := Option.map_eq_some_iff.mp h
        cases heq
        exact (lists_take_iff hs).mpr ⟨_, rfl, ih hr⟩
    next t hs => exact (lists_skip_iff hs).mpr (ih h)
    next hs =>
      cases h
      exact h'
    next => cases h

/-- A call with room that takes nothing has come to the end. -/
theorem lists_nil_of_call {k cap : ℕ} (h : call step k (cap + 1) s = some ([], s')) :
    Lists step s [] := by
  induction k generalizing s with
  | zero => cases h
  | succ k ih =>
    rw [call] at h
    split at h
    next i t hs =>
      obtain ⟨r, -, heq⟩ := Option.map_eq_some_iff.mp h
      cases heq
    next t hs => exact (lists_skip_iff hs).mpr (ih h)
    next hs => exact (lists_last_iff hs).mpr rfl
    next => cases h

theorem lists_of_calls {k : ℕ} {caps : List ℕ} (h : calls step k caps s = some l) :
    Lists step s l := by
  induction caps generalizing s l with
  | nil => cases h
  | cons cap caps ih =>
    rw [calls] at h
    split at h
    next => cases h
    next s' hc =>
      cases h
      exact lists_nil_of_call hc
    next i l₁ s' hc =>
      obtain ⟨l₂, hl₂, rfl⟩ := Option.map_eq_some_iff.mp h
      exact lists_of_call hc (ih hl₂)

theorem walk_succ {k : ℕ} (h : walk step k s = some l) : walk step (k + 1) s = some l := by
  induction k generalizing s l with
  | zero => cases h
  | succ k ih =>
    rw [walk] at h ⊢
    split at h
    next i t hs =>
      obtain ⟨l', hl', rfl⟩ := Option.map_eq_some_iff.mp h
      simp only [ih hl', Option.map_some]
    next t hs => exact ih h
    next hs => exact h
    next => cases h

/-- A call takes the first items and leaves the others. -/
theorem call_of_walk {k : ℕ} (cap : ℕ) (h : walk step k s = some l) :
    ∃ s', call step k cap s = some (l.take cap, s') ∧ walk step k s' = some (l.drop cap) := by
  induction k generalizing s l cap with
  | zero => cases h
  | succ k ih =>
    rw [call]
    have hwalk := h
    rw [walk] at h
    split at h
    next i t hs =>
      obtain ⟨l', hl', rfl⟩ := Option.map_eq_some_iff.mp h
      cases cap with
      | zero => exact ⟨s, rfl, hwalk⟩
      | succ cap =>
        obtain ⟨s', hc, hw⟩ := ih cap hl'
        exact ⟨s', by simp only [hc, Option.map_some, List.take_succ_cons], walk_succ hw⟩
    next t hs =>
      obtain ⟨s', hc, hw⟩ := ih cap h
      exact ⟨s', hc, walk_succ hw⟩
    next hs =>
      cases h
      exact ⟨s, by rw [List.take_nil], by rw [List.drop_nil]; exact hwalk⟩
    next => cases h

/-- One call more than there are items is enough. -/
theorem calls_of_walk {k : ℕ} {caps : List ℕ} (h : walk step k s = some l)
    (hlen : l.length < caps.length) : calls step k caps s = some l := by
  induction caps generalizing s l with
  | nil => cases hlen
  | cons cap caps ih =>
    obtain ⟨s', hc, hw⟩ := call_of_walk (cap + 1) h
    rw [calls, hc]
    cases l with
    | nil => rfl
    | cons i l =>
      rw [List.take_succ_cons]
      rw [List.drop_succ_cons] at hw
      have hrest : (l.drop cap).length < caps.length := by
        rw [List.length_drop]
        rw [List.length_cons, List.length_cons] at hlen
        omega
      simp only [ih hw hrest, Option.map_some, List.cons_append, List.take_append_drop]

/-! ## Counters -/

/-- What a walk does with an index. -/
inductive Verdict
  | take
  | skip
  | last
  | stuck
  deriving DecidableEq

/-- A walk over indices that are counted up. -/
def counting (v : UInt32 → Verdict) (i : UInt32) : Step UInt32 UInt32 :=
  match v i with
  | .take => .take i (i + 1)
  | .skip => .skip (i + 1)
  | .last => .last
  | .stuck => .stuck

variable {v : UInt32 → Verdict}

theorem lists_unique {l' : List ι} (h : Lists step s l) (h' : Lists step s l') : l = l' := by
  obtain ⟨k, hk⟩ := h
  induction k generalizing s l l' with
  | zero => cases hk
  | succ k ih =>
    rw [walk] at hk
    split at hk
    next i t hs =>
      obtain ⟨l₁, hl₁, rfl⟩ := Option.map_eq_some_iff.mp hk
      obtain ⟨l₂, rfl, hl₂⟩ := (lists_take_iff hs).mp h'
      rw [ih hl₂ hl₁]
    next t hs => exact ih ((lists_skip_iff hs).mp h') hk
    next hs =>
      cases hk
      exact ((lists_last_iff hs).mp h').symm
    next => cases hk

theorem toNat_succ_of_lt {i m : UInt32} (h : i < m) : (i + 1).toNat = i.toNat + 1 := by
  have hm := m.toNat_lt
  have hlt : i.toNat < m.toNat := h
  rw [UInt32.toNat_add]
  exact Nat.mod_eq_of_lt (by simp; omega)

/-- Up to the index it ends at, a walk that counts takes or skips. -/
theorem lists_of_counting {m i : UInt32} (hm : v m = .last) (him : i ≤ m)
    (hlt : ∀ j, i ≤ j → j < m → v j = .take ∨ v j = .skip) :
    ∃ l, Lists (counting v) i l ∧ ∀ j, j ∈ l ↔ i ≤ j ∧ j < m ∧ v j = .take := by
  simp only [UInt32.le_iff_toNat_le, UInt32.lt_iff_toNat_lt] at him hlt ⊢
  generalize hd : m.toNat - i.toNat = d
  induction d generalizing i with
  | zero =>
    have heq : i = m := UInt32.toNat_inj.mp (by omega)
    subst heq
    refine ⟨[], (lists_last_iff (by rw [counting, hm])).mpr rfl, fun j => ?_⟩
    have hnot : ¬ (i.toNat ≤ j.toNat ∧ j.toNat < i.toNat ∧ v j = .take) := by omega
    simp [hnot]
  | succ d ih =>
    have hnext : (i + 1).toNat = i.toNat + 1 :=
      toNat_succ_of_lt (UInt32.lt_iff_toNat_lt.mpr (by omega : i.toNat < m.toNat))
    obtain ⟨l, hl, hmem⟩ := ih (i := i + 1) (by omega) (fun j hj => hlt j (by omega)) (by omega)
    have hrest : ∀ j, i ≠ j → (i.toNat ≤ j.toNat ↔ (i + 1).toNat ≤ j.toNat) := by
      intro j hne
      have hne' : i.toNat ≠ j.toNat := fun h => hne (UInt32.toNat_inj.mp h)
      omega
    rcases hlt i le_rfl (by omega) with htake | hskip
    · refine ⟨i :: l, (lists_take_iff (by rw [counting, htake])).mpr ⟨l, rfl, hl⟩, fun j => ?_⟩
      rw [List.mem_cons, hmem]
      by_cases hij : i = j
      · subst hij
        simp [htake]
        omega
      · simp [hrest j hij, Ne.symm hij]
    · refine ⟨l, (lists_skip_iff (by rw [counting, hskip])).mpr hl, fun j => ?_⟩
      rw [hmem]
      by_cases hij : i = j
      · subst hij
        simp [hskip]
      · simp [hrest j hij]

theorem exists_last_of_walk {k n : ℕ} {l : List UInt32}
    (h : walk (counting v) k (UInt32.ofNat n) = some l) :
    ∃ m, n ≤ m ∧ v (UInt32.ofNat m) = .last ∧
      ∀ j, n ≤ j → j < m → v (UInt32.ofNat j) = .take ∨ v (UInt32.ofNat j) = .skip := by
  induction k generalizing n l with
  | zero => cases h
  | succ k ih =>
    have hnext : UInt32.ofNat n + 1 = UInt32.ofNat (n + 1) := by
      rw [UInt32.ofNat_add]
      rfl
    have hgo : ∀ l', walk (counting v) k (UInt32.ofNat n + 1) = some l' →
        (v (UInt32.ofNat n) = .take ∨ v (UInt32.ofNat n) = .skip) →
        ∃ m, n ≤ m ∧ v (UInt32.ofNat m) = .last ∧
          ∀ j, n ≤ j → j < m → v (UInt32.ofNat j) = .take ∨ v (UInt32.ofNat j) = .skip := by
      intro l' hl' hv
      rw [hnext] at hl'
      obtain ⟨m, hle, hlast, hall⟩ := ih hl'
      refine ⟨m, by omega, hlast, fun j hj hjm => ?_⟩
      rcases Nat.eq_or_lt_of_le hj with rfl | hj'
      · exact hv
      · exact hall j hj' hjm
    rw [walk, counting] at h
    cases hv : v (UInt32.ofNat n) with
    | take =>
      rw [hv] at h
      obtain ⟨l', hl', -⟩ := Option.map_eq_some_iff.mp h
      exact hgo l' hl' (.inl hv)
    | skip =>
      rw [hv] at h
      exact hgo l h (.inr hv)
    | last => exact ⟨n, le_rfl, hv, fun j hj hjn => absurd hj (by omega)⟩
    | stuck =>
      rw [hv] at h
      cases h

/-- Where the counter wraps around, the walk comes to indices it has been at. -/
theorem exists_last {l : List UInt32} (h : Lists (counting v) 0 l) :
    ∃ m, v m = .last ∧ ∀ j < m, v j = .take ∨ v j = .skip := by
  obtain ⟨k, hk⟩ := h
  obtain ⟨m, -, hlast, hall⟩ := exists_last_of_walk (n := 0) hk
  have hlt : m < 2 ^ 32 := by
    by_contra hge
    have hwrap : UInt32.ofNat (m - 2 ^ 32) = UInt32.ofNat m := by
      refine UInt32.toNat_inj.mp ?_
      rw [UInt32.toNat_ofNat', UInt32.toNat_ofNat']
      omega
    rcases hall (m - 2 ^ 32) (by omega) (by omega) with h | h <;> rw [hwrap, hlast] at h <;> cases h
  refine ⟨UInt32.ofNat m, hlast, fun j hj => ?_⟩
  have hjm : j.toNat < m := by
    have hj' : j.toNat < (UInt32.ofNat m).toNat := hj
    rwa [UInt32.toNat_ofNat', Nat.mod_eq_of_lt hlt] at hj'
  have hj := hall j.toNat (by omega) hjm
  rwa [UInt32.ofNat_toNat] at hj

/-- A walk that counts from 0 ends and lists `G` exactly if it ends at some index, takes or skips up
to there, and the items it takes are those of `G`. -/
theorem lists_counting_iff {G : UInt32 → Prop} :
    (∃ l, Lists (counting v) 0 l ∧ ∀ i, i ∈ l ↔ G i) ↔
      ∃ m, v m = .last ∧ (∀ j < m, v j = .take ∨ v j = .skip) ∧ ∀ i, G i ↔ i < m ∧ v i = .take := by
  constructor
  · rintro ⟨l, hl, hG⟩
    obtain ⟨m, hlast, hall⟩ := exists_last hl
    obtain ⟨l', hl', hmem⟩ := lists_of_counting hlast m.zero_le fun j _ hj => hall j hj
    refine ⟨m, hlast, hall, fun i => ?_⟩
    rw [← hG, lists_unique hl hl', hmem]
    simp
  · rintro ⟨m, hlast, hall, hG⟩
    obtain ⟨l, hl, hmem⟩ := lists_of_counting hlast m.zero_le fun j _ hj => hall j hj
    refine ⟨l, hl, fun i => ?_⟩
    rw [hmem, hG]
    simp

end Walk

