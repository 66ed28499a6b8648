import Mathlib.Tactic

/-!
# Padding in wrap-around arithmetic

The distance from a position to the next multiple of `m` is `(m - p) mod m`. Modulo `w` the difference
wraps around as soon as the position is beyond `m`, and the remainder is then counted from `w`.
-/

namespace WrapPad

/-- The padding at `p` for boundaries at the multiples of `m`, computed modulo `w`. -/
def wrapPad (w m p : ℕ) : ℕ := (w - p + m) % w % m

variable {w m p : ℕ}

theorem wrapPad_lt (hpos : 0 < m) : wrapPad w m p < m := Nat.mod_lt _ hpos

theorem wrapPad_of_le (hm : m < w) (hp : p ≤ m) : wrapPad w m p = (m - p) % m := by
  rw [wrapPad, show w - p + m = m - p + w by omega, Nat.add_mod_right,
    Nat.mod_eq_of_lt (show m - p < w by omega)]

theorem wrapPad_of_lt (hp : m < p) (hpw : p < w) : wrapPad w m p = (w - p) % m := by
  rw [wrapPad, Nat.mod_eq_of_lt (show w - p + m < w by omega), Nat.add_mod_right]

/-- Up to the first boundary the padding leads there. -/
theorem add_wrapPad_of_le (hm : m < w) (hp : p ≤ m) :
    (p + wrapPad w m p) % w = if p = 0 then 0 else m := by
  rw [wrapPad_of_le hm hp]
  split
  case isTrue hzero => simp [hzero]
  case isFalse hpos =>
    rw [Nat.mod_eq_of_lt (show m - p < m by omega), Nat.add_sub_of_le hp, Nat.mod_eq_of_lt hm]

/-- Further on it leads to a multiple of `m` below `w`, counted from `w`. -/
theorem add_wrapPad_of_lt (hpos : 0 < m) (hp : m < p) (hpw : p < w) :
    (p + wrapPad w m p) % w = if w < p + m then 0 else w - m * ((w - p) / m) := by
  have hdiv := Nat.div_add_mod (w - p) m
  rw [wrapPad_of_lt hp hpw]
  split
  case isTrue hnear =>
    rw [Nat.mod_eq_of_lt (show w - p < m by omega), Nat.add_sub_of_le hpw.le, Nat.mod_self]
  case isFalse hfar =>
    have hq : 0 < m * ((w - p) / m) := Nat.mul_pos hpos (Nat.div_pos (by omega) hpos)
    rw [show p + (w - p) % m = w - m * ((w - p) / m) by omega]
    exact Nat.mod_eq_of_lt (by omega)

/-- Not too close to `w` it leads less than `m` ahead, always to the same place in a run of `m`. -/
theorem add_wrapPad_far (hpos : 0 < m) (hp : m < p) (hpw : p + m ≤ w) :
    p ≤ (p + wrapPad w m p) % w ∧ (p + wrapPad w m p) % w < p + m ∧
      (p + wrapPad w m p) % w % m = w % m := by
  have hdiv := Nat.div_add_mod (w - p) m
  have hlt := Nat.mod_lt (w - p) hpos
  have hle : m * ((w - p) / m) ≤ w := (Nat.mul_div_le _ _).trans (Nat.sub_le _ _)
  rw [add_wrapPad_of_lt hpos hp (by omega), if_neg (by omega)]
  refine ⟨by omega, by omega, ?_⟩
  rw [Nat.sub_mul_mod hle]

/-- Where the padding leads to a multiple of `m`. -/
theorem dvd_add_wrapPad_iff (hpos : 0 < m) (hm : m < w) (hpw : p < w) :
    m ∣ (p + wrapPad w m p) % w ↔ p ≤ m ∨ m ∣ w ∨ w < p + m := by
  rcases Nat.lt_or_ge m p with hp | hp
  · rw [add_wrapPad_of_lt hpos hp hpw]
    split
    case isTrue hnear => simp [hnear]
    case isFalse hfar =>
      have hle : m * ((w - p) / m) ≤ w := (Nat.mul_div_le _ _).trans (Nat.sub_le _ _)
      rw [(Nat.dvd_sub_iff_left hle (Nat.dvd_mul_right _ _))]
      constructor
      · exact fun h => .inr (.inl h)
      · rintro (h | h | h)
        · omega
        · exact h
        · exact absurd h hfar
  · rw [add_wrapPad_of_le hm hp]
    refine iff_of_true ?_ (.inl hp)
    split
    · exact Nat.dvd_zero m
    · exact dvd_rfl

/-- Where it leads back to the beginning. -/
theorem add_wrapPad_eq_zero_iff (hpos : 0 < m) (hm : m < w) (hpw : p < w) :
    (p + wrapPad w m p) % w = 0 ↔ p = 0 ∨ m < p ∧ w < p + m := by
  rcases Nat.lt_or_ge m p with hp | hp
  · rw [add_wrapPad_of_lt hpos hp hpw]
    split
    case isTrue hnear => exact iff_of_true rfl (.inr ⟨hp, hnear⟩)
    case isFalse hfar =>
      have hle : m * ((w - p) / m) ≤ w - p := Nat.mul_div_le _ _
      omega
  · rw [add_wrapPad_of_le hm hp]
    split
    case isTrue hzero => exact iff_of_true rfl (.inl hzero)
    case isFalse hne => omega

end WrapPad
