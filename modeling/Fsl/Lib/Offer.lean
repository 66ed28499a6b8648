import Mathlib

/-!
# Offering items to a buffer

A list of places, some of them empty, is offered item by item to a buffer that may refuse one. What was
refused is where the next attempt begins, so that nothing is lost and nothing is offered again once it
was taken.
-/

namespace Offer

variable {α : Type*}

/-- What came of an attempt: the items in the buffer, the places passed, and whether one was refused. -/
structure Result (α : Type*) where
  buf : List α
  used : ℕ
  full : Bool

/-- Offer the items one by one; `fill` says whether the buffer takes the next one. -/
def scan (fill : List α → α → Bool) (buf : List α) : List (Option α) → Result α
  | [] => ⟨buf, 0, false⟩
  | none :: xs =>
    let r := scan fill buf xs
    ⟨r.buf, r.used + 1, r.full⟩
  | some a :: xs =>
    if fill buf a then
      let r := scan fill (buf ++ [a]) xs
      ⟨r.buf, r.used + 1, r.full⟩
    else ⟨buf, 0, true⟩

variable {fill : List α → α → Bool} {buf : List α} {xs ys : List (Option α)}

/-- Nothing refused: all places were passed. -/
theorem used_of_not_full (h : (scan fill buf xs).full = false) :
    (scan fill buf xs).used = xs.length := by
  induction xs generalizing buf with
  | nil => rfl
  | cons x xs ih =>
    cases x with
    | none => exact congrArg (· + 1) (ih h)
    | some a =>
      rw [scan] at h ⊢
      split at h
      next hfill =>
        rw [if_pos hfill]
        exact congrArg (· + 1) (ih h)
      next => cases h

/-- The items of the places that were passed are in the buffer, in order. -/
theorem scan_buf : (scan fill buf xs).buf =
    buf ++ (xs.take (scan fill buf xs).used).reduceOption := by
  induction xs generalizing buf with
  | nil => simp [scan]
  | cons x xs ih =>
    cases x with
    | none =>
      rw [scan, List.take_succ_cons, List.reduceOption_cons_of_none]
      exact ih
    | some a =>
      rw [scan]
      split
      next =>
        rw [List.take_succ_cons, List.reduceOption_cons_of_some, ih, List.append_assoc]
        rfl
      next => simp

theorem scan_append : scan fill buf (xs ++ ys) =
    if (scan fill buf xs).full then scan fill buf xs
    else
      let r := scan fill (scan fill buf xs).buf ys
      ⟨r.buf, xs.length + r.used, r.full⟩ := by
  induction xs generalizing buf with
  | nil => simp [scan]
  | cons x xs ih =>
    cases x with
    | none =>
      rw [List.cons_append, scan, scan, ih]
      cases hfull : (scan fill buf xs).full with
      | true => simp [hfull]
      | false =>
        simp only [Bool.false_eq_true, if_false, List.length_cons]
        congr 1
        omega
    | some a =>
      rw [List.cons_append, scan, scan]
      split
      next =>
        rw [ih]
        cases hfull : (scan fill (buf ++ [a]) xs).full with
        | true => simp [hfull]
        | false =>
          simp only [hfull, Bool.false_eq_true, if_false, List.length_cons]
          congr 1
          omega
      next => simp

/-- A buffer without bound refuses nothing. -/
theorem full_of_unbounded (h : ∀ b a, fill b a = true) : (scan fill buf xs).full = false := by
  induction xs generalizing buf with
  | nil => rfl
  | cons x xs ih =>
    cases x with
    | none => exact ih
    | some a =>
      rw [scan, if_pos (h buf a)]
      exact ih

/-- Where an empty buffer has room and takes nothing, there is nothing left. -/
theorem reduceOption_eq_nil (hroom : ∀ a, fill [] a = true) (h : (scan fill [] xs).buf = []) :
    xs.reduceOption = [] := by
  induction xs with
  | nil => rfl
  | cons x xs ih =>
    cases x with
    | none =>
      rw [List.reduceOption_cons_of_none]
      exact ih h
    | some a =>
      rw [scan, if_pos (hroom a), scan_buf] at h
      simp at h

/-- The places that are left after an attempt. -/
theorem take_add_used {n : ℕ} : (xs.take (n + (scan fill buf (xs.drop n)).used)).reduceOption =
    (xs.take n).reduceOption ++
      ((xs.drop n).take (scan fill buf (xs.drop n)).used).reduceOption := by
  rw [List.take_add, List.reduceOption_append]

end Offer
