import Mathlib

/-!
# Segments of a list

`xs.overwrite i ys` puts `ys` in the place of the `ys.length` elements of `xs` from `i` on.
-/

namespace List

variable {α : Type*}

def overwrite (xs : List α) (i : ℕ) (ys : List α) : List α :=
  xs.take i ++ ys ++ xs.drop (i + ys.length)

theorem length_overwrite {xs ys : List α} {i : ℕ} (h : i + ys.length ≤ xs.length) :
    (xs.overwrite i ys).length = xs.length := by
  simp only [overwrite, length_append, length_take, length_drop]
  omega

theorem overwrite_nil {xs : List α} {i : ℕ} : xs.overwrite i [] = xs := by
  simp [overwrite]

theorem set_eq_overwrite {xs : List α} {i : ℕ} (h : i < xs.length) (x : α) :
    xs.set i x = xs.overwrite i [x] := by
  rw [set_eq_take_append_cons_drop, if_pos h, overwrite, append_assoc, singleton_append,
    length_singleton]

/-- Writing a segment and then the one that follows it is writing both at once. -/
theorem overwrite_overwrite {xs : List α} {i : ℕ} (ys zs : List α)
    (h : i + ys.length ≤ xs.length) :
    (xs.overwrite i ys).overwrite (i + ys.length) zs = xs.overwrite i (ys ++ zs) := by
  have hlen : (xs.take i ++ ys).length = i + ys.length := by
    rw [length_append, length_take]
    omega
  have htake : (xs.overwrite i ys).take (i + ys.length) = xs.take i ++ ys := by
    rw [overwrite, ← hlen, take_left']
    rfl
  have hdrop : (xs.overwrite i ys).drop (i + ys.length + zs.length) =
      xs.drop (i + (ys ++ zs).length) := by
    rw [overwrite, drop_append, drop_eq_nil_of_le (by omega), nil_append, hlen, drop_drop,
      length_append]
    congr 1
    omega
  rw [overwrite, htake, hdrop, overwrite, append_assoc (xs.take i) ys zs]

theorem getElem?_overwrite_of_not_mem {xs ys : List α} {i j : ℕ} (h : i + ys.length ≤ xs.length)
    (hj : j ∉ Set.Ico i (i + ys.length)) : (xs.overwrite i ys)[j]? = xs[j]? := by
  have htake : (xs.take i).length = i := by
    rw [length_take]
    omega
  rw [Set.mem_Ico] at hj
  by_cases hlt : j < i
  · rw [overwrite, append_assoc, getElem?_append_left (by omega), getElem?_take_of_lt hlt]
  · rw [overwrite, getElem?_append_right (by rw [length_append]; omega), getElem?_drop]
    congr 1
    rw [length_append]
    omega

/-- Writing over the whole list. -/
theorem overwrite_zero_of_length {xs ys : List α} (h : ys.length = xs.length) :
    xs.overwrite 0 ys = ys := by
  simp [overwrite, h]

/-- With distinct keys an element is found under its own. -/
theorem find?_of_nodup_map {κ : Type*} [BEq κ] [LawfulBEq κ] {key : α → κ} {l : List α}
    (hl : (l.map key).Nodup) {a : α} (ha : a ∈ l) : l.find? (fun b => key b == key a) = some a := by
  induction l with
  | nil => cases ha
  | cons b l ih =>
    obtain ⟨hb, hl⟩ := nodup_cons.mp hl
    rcases mem_cons.mp ha with rfl | ha
    · rw [find?_cons_of_pos (by simp)]
    · have hne : key b ≠ key a := fun heq => hb (heq ▸ mem_map_of_mem ha)
      rw [find?_cons_of_neg (by simpa using hne), ih hl ha]

end List
