import Mathlib

/-!
# Direct-mapped caches

A table of `N` slots over an addressed backing store. A slot holds the address of the block it
caches, or a marker that no block has, and a block; block `a` can only sit in slot `a % N`.
`Coherent` says that every valid slot agrees with the backing store, and the lemmas say which
operations keep it: filling a slot from the store, and changing the store while dropping every
address that changed.
-/

namespace DirectMapped

variable {α : Type} {N : ℕ} [NeZero N]

/-- One slot: the address it caches, or the marker, and the cached block. -/
structure Slot (α : Type) where
  addr : ℕ
  data : α

/-- The slot an address maps to. -/
def slotOf (N : ℕ) [NeZero N] (a : ℕ) : Fin N := Fin.ofNat N a

/-- The block cached for `a`, if its slot holds `a`. -/
def find (t : Fin N → Slot α) (a : ℕ) : Option α :=
  if (t (slotOf N a)).addr = a then some (t (slotOf N a)).data else none

/-- Fill the slot of `a`, evicting what it held. -/
def put (t : Fin N → Slot α) (a : ℕ) (x : α) : Fin N → Slot α :=
  Function.update t (slotOf N a) ⟨a, x⟩

/-- Invalidate the slot of `a` if it holds `a`. -/
def dropOne (marker : ℕ) (t : Fin N → Slot α) (a : ℕ) : Fin N → Slot α :=
  if (t (slotOf N a)).addr = a then
    Function.update t (slotOf N a) { t (slotOf N a) with addr := marker }
  else t

/-- Invalidate the `k` addresses from `a` on, in ascending order. -/
def dropRange (marker : ℕ) (t : Fin N → Slot α) (a : ℕ) : ℕ → Fin N → Slot α
  | 0 => t
  | k + 1 => dropRange marker (dropOne marker t a) (a + 1) k

/-- Every valid slot holds an address that maps to it, with the block that the backing store
has there. -/
def Coherent (marker : ℕ) (backing : ℕ → Option α) (t : Fin N → Slot α) : Prop :=
  ∀ i, (t i).addr ≠ marker →
    slotOf N (t i).addr = i ∧ backing (t i).addr = some (t i).data

variable {marker : ℕ} {backing backing' : ℕ → Option α} {t : Fin N → Slot α}

theorem coherent_of_invalid (h : ∀ i, (t i).addr = marker) : Coherent marker backing t :=
  fun i hi => absurd (h i) hi

theorem Coherent.backing_of_find (h : Coherent marker backing t) {a : ℕ} {x : α}
    (ha : a ≠ marker) (hf : find t a = some x) : backing a = some x := by
  unfold find at hf
  split at hf
  · next he =>
    have hb := (h (slotOf N a) (by rw [he]; exact ha)).2
    rw [he] at hb
    rw [hb]
    exact hf
  · simp at hf

theorem Coherent.put (h : Coherent marker backing t) {a : ℕ} {x : α}
    (hx : backing a = some x) : Coherent marker backing (put t a x) := by
  intro i hi
  by_cases he : i = slotOf N a
  · subst he
    rw [DirectMapped.put, Function.update_self]
    exact ⟨rfl, hx⟩
  · simp only [DirectMapped.put, Function.update_of_ne he] at hi ⊢
    exact h i hi

/-- A dropped slot is either invalid or untouched, and an untouched one in its own slot does
not hold the dropped address. -/
theorem dropOne_cases (marker : ℕ) (t : Fin N → Slot α) (a : ℕ) (i : Fin N) :
    (dropOne marker t a i).addr = marker ∨
      (dropOne marker t a i = t i ∧ (slotOf N (t i).addr = i → (t i).addr ≠ a)) := by
  unfold dropOne
  split
  · next he =>
    by_cases hi : i = slotOf N a
    · subst hi
      left
      simp
    · right
      rw [Function.update_of_ne hi]
      refine ⟨rfl, fun hs ha => hi ?_⟩
      rw [← hs, ha]
  · next he =>
    right
    refine ⟨rfl, fun hs ha => he ?_⟩
    rw [← ha, hs]

theorem dropRange_cases (marker : ℕ) (t : Fin N → Slot α) (a k : ℕ) (i : Fin N) :
    (dropRange marker t a k i).addr = marker ∨
      (dropRange marker t a k i = t i ∧
        (slotOf N (t i).addr = i → (t i).addr < a ∨ a + k ≤ (t i).addr)) := by
  induction k generalizing t a with
  | zero => exact Or.inr ⟨rfl, fun _ => by omega⟩
  | succ k ih =>
    rw [dropRange]
    rcases ih (dropOne marker t a) (a + 1) with h | ⟨heq, hout⟩
    · exact Or.inl h
    · rcases dropOne_cases marker t a i with h | ⟨heq', hne⟩
      · exact Or.inl (by rw [heq]; exact h)
      · rw [heq'] at heq hout
        refine Or.inr ⟨heq, fun hs => ?_⟩
        have h1 := hout hs
        have h2 := hne hs
        omega

/-- Changing the backing store keeps the table coherent when every address whose block changed
is dropped. -/
theorem Coherent.dropRange (h : Coherent marker backing t) {a k : ℕ}
    (hsame : ∀ b x, b < a ∨ a + k ≤ b → backing b = some x → backing' b = some x) :
    Coherent marker backing' (dropRange marker t a k) := by
  intro i hi
  rcases dropRange_cases marker t a k i with hm | ⟨heq, hout⟩
  · exact absurd hm hi
  · rw [heq] at hi ⊢
    obtain ⟨hs, hb⟩ := h i hi
    exact ⟨hs, hsame _ _ (hout hs) hb⟩

/-! ## Tables without a marker

Where every address may be cached, a slot is invalid when the address in it maps to another slot. -/

/-- Every slot with an address of its own has the block that belongs to it. -/
def Homed (backing : ℕ → α) (t : Fin N → Slot α) : Prop :=
  ∀ i, slotOf N (t i).addr = i → (t i).data = backing (t i).addr

theorem homed_of_foreign {backing : ℕ → α} (h : ∀ i, slotOf N (t i).addr ≠ i) : Homed backing t :=
  fun i hi => absurd hi (h i)

theorem find_eq_none_of_foreign (h : ∀ i, slotOf N (t i).addr ≠ i) (a : ℕ) : find t a = none := by
  rw [find, if_neg]
  intro haddr
  refine h (slotOf N a) ?_
  rw [haddr]

/-- A table has the blocks that it holds, whatever the others are. -/
theorem homed_getD (t : Fin N → Slot α) (f : ℕ → α) : Homed (fun a => (find t a).getD (f a)) t := by
  intro i hi
  show (t i).data = (find t (t i).addr).getD _
  rw [find, hi, if_pos rfl]
  rfl

/-- What a table holds after a slot was filled. -/
theorem of_find_put {a b : ℕ} {x y : α} (h : find (put t a x) b = some y) :
    (b = a ∧ y = x) ∨ find t b = some y := by
  by_cases hslot : slotOf N b = slotOf N a
  · rw [find, hslot, DirectMapped.put, Function.update_self] at h
    by_cases hab : a = b
    · rw [if_pos hab] at h
      cases h
      exact .inl ⟨hab.symm, rfl⟩
    · rw [if_neg hab] at h
      cases h
  · rw [find, DirectMapped.put, Function.update_of_ne hslot] at h
    exact .inr h

theorem Homed.eq_of_find {backing : ℕ → α} (h : Homed backing t) {a : ℕ} {x : α}
    (hf : find t a = some x) : x = backing a := by
  rw [find] at hf
  split at hf
  next he =>
    have hdata := h (slotOf N a) (by rw [he])
    rw [he] at hdata
    cases hf
    exact hdata
  next => cases hf

theorem Homed.put {backing : ℕ → α} (h : Homed backing t) (a : ℕ) :
    Homed backing (put t a (backing a)) := by
  intro i hi
  by_cases he : i = slotOf N a
  · subst he
    rw [DirectMapped.put, Function.update_self]
  · simp only [DirectMapped.put, Function.update_of_ne he] at hi ⊢
    exact h i hi

end DirectMapped
