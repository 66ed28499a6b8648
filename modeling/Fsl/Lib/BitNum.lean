import Mathlib

/-!
# Numbers given by their bits and bytes

`ofBits f n` is the number whose bit `i` is `f i` for `i < n`, and `ofBytes f p k` the
little-endian number of the `k` bytes of `f` from `p` on. Everything about the two is derived
from their `testBit` lemmas: shifts, masks and joins are compared bit by bit.
-/

namespace BitNum

/-- The number with bits `f 0, …, f (n - 1)`, least significant first. -/
def ofBits (f : ℕ → Bool) (n : ℕ) : ℕ := ∑ i ∈ Finset.range n, (f i).toNat * 2 ^ i

@[simp] theorem ofBits_zero (f : ℕ → Bool) : ofBits f 0 = 0 := rfl

theorem ofBits_succ (f : ℕ → Bool) (n : ℕ) :
    ofBits f (n + 1) = 2 ^ n * (f n).toNat + ofBits f n := by
  rw [ofBits, Finset.sum_range_succ, Nat.add_comm, Nat.mul_comm]
  rfl

theorem ofBits_lt (f : ℕ → Bool) (n : ℕ) : ofBits f n < 2 ^ n := by
  induction n with
  | zero => simp
  | succ n ih =>
    have hb : (f n).toNat ≤ 1 := Bool.toNat_le (f n)
    have hm : 2 ^ n * (f n).toNat ≤ 2 ^ n * 1 := Nat.mul_le_mul_left _ hb
    rw [ofBits_succ, Nat.pow_succ]
    omega

theorem testBit_ofBits (f : ℕ → Bool) (n i : ℕ) :
    (ofBits f n).testBit i = (decide (i < n) && f i) := by
  induction n with
  | zero => simp
  | succ n ih =>
    rw [ofBits_succ, Nat.testBit_two_pow_mul_add _ (ofBits_lt f n), ih]
    by_cases hi : i < n
    · simp [hi, Nat.lt_succ_of_lt hi]
    · rw [if_neg hi]
      by_cases he : i = n
      · subst he
        cases f i <;> simp
      · have hlt : ¬ i < n + 1 := by omega
        have hpos : i - n ≠ 0 := by omega
        have hone : (f n).toNat < 2 ^ (i - n) :=
          lt_of_le_of_lt (Bool.toNat_le _) (Nat.one_lt_two_pow hpos)
        simp [hlt, Nat.testBit_lt_two_pow hone]

/-- A number below `2 ^ n` is the number of its bits. -/
theorem eq_ofBits {x n : ℕ} {f : ℕ → Bool}
    (h : ∀ i, x.testBit i = (decide (i < n) && f i)) : x = ofBits f n :=
  Nat.eq_of_testBit_eq fun i => by rw [h, testBit_ofBits]

theorem ofBits_congr {f g : ℕ → Bool} {n : ℕ} (h : ∀ i, i < n → f i = g i) :
    ofBits f n = ofBits g n := by
  refine eq_ofBits fun i => ?_
  rw [testBit_ofBits]
  by_cases hi : i < n
  · rw [h i hi]
  · simp [hi]

theorem ofBits_inj {f g : ℕ → Bool} {n : ℕ} (h : ofBits f n = ofBits g n) {i : ℕ}
    (hi : i < n) : f i = g i := by
  have ht := congrArg (fun x => x.testBit i) h
  simpa [testBit_ofBits, hi] using ht

/-- A number of `n + m` bits splits into its low `n` and its high `m` bits. -/
theorem ofBits_add (f : ℕ → Bool) (n m : ℕ) :
    ofBits f (n + m) = ofBits f n + 2 ^ n * ofBits (fun i => f (n + i)) m := by
  symm
  refine eq_ofBits fun i => ?_
  rw [Nat.add_comm, Nat.testBit_two_pow_mul_add _ (ofBits_lt f n), testBit_ofBits,
    testBit_ofBits]
  by_cases hi : i < n
  · have hnm : i < n + m := by omega
    simp [hi, hnm]
  · have he : n + (i - n) = i := by omega
    have hiff : i - n < m ↔ i < n + m := by omega
    simp [hi, he, hiff]

/-- The little-endian number of the `k` bytes of `f` from `p` on. -/
def ofBytes (f : ℕ → UInt8) (p : ℕ) : ℕ → ℕ
  | 0 => 0
  | k + 1 => ofBytes f p k + (f (p + k)).toNat * 256 ^ k

/-- Bit `k` of a byte string: bit `k % 8` of byte `k / 8`. -/
def bitOf (f : ℕ → UInt8) (k : ℕ) : Bool := (f (k / 8)).toNat.testBit (k % 8)

theorem ofBytes_eq_ofBits (f : ℕ → UInt8) (p k : ℕ) :
    ofBytes f p k = ofBits (fun i => bitOf f (8 * p + i)) (8 * k) := by
  induction k with
  | zero => rfl
  | succ k ih =>
    have hbyte : (f (p + k)).toNat = ofBits (fun i => bitOf f (8 * p + (8 * k + i))) 8 := by
      refine eq_ofBits fun i => ?_
      by_cases hi : i < 8
      · have hd : (8 * p + (8 * k + i)) / 8 = p + k := by omega
        have hm : (8 * p + (8 * k + i)) % 8 = i := by omega
        simp [bitOf, hd, hm, hi]
      · have hlt : (f (p + k)).toNat < 2 ^ i :=
          lt_of_lt_of_le (UInt8.toNat_lt _) (Nat.pow_le_pow_right (by omega) (by omega : 8 ≤ i))
        simp [hi, Nat.testBit_lt_two_pow hlt]
    have hpow : 256 ^ k = 2 ^ (8 * k) := by rw [Nat.pow_mul]
    rw [ofBytes, ih, show 8 * (k + 1) = 8 * k + 8 by omega, ofBits_add, hbyte, hpow,
      Nat.mul_comm (2 ^ (8 * k))]

theorem testBit_ofBytes (f : ℕ → UInt8) (p k i : ℕ) :
    (ofBytes f p k).testBit i = (decide (i < 8 * k) && bitOf f (8 * p + i)) := by
  rw [ofBytes_eq_ofBits, testBit_ofBits]

theorem ofBytes_lt (f : ℕ → UInt8) (p k : ℕ) : ofBytes f p k < 2 ^ (8 * k) := by
  rw [ofBytes_eq_ofBits]
  exact ofBits_lt _ _

theorem ofBytes_congr {f g : ℕ → UInt8} {p q k : ℕ} (h : ∀ j, j < k → f (p + j) = g (q + j)) :
    ofBytes f p k = ofBytes g q k := by
  induction k with
  | zero => rfl
  | succ k ih =>
    rw [ofBytes, ofBytes, ih fun j hj => h j (by omega), h k (by omega)]

/-- A mask of `n` ones keeps the low `n` bits. -/
theorem testBit_and_mask (x n i : ℕ) :
    (x &&& (2 ^ n - 1)).testBit i = (decide (i < n) && x.testBit i) := by
  rw [Nat.testBit_and, Nat.testBit_two_pow_sub_one, Bool.and_comm]

end BitNum
