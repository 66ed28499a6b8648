import Fsl.Runtime.Bitmap

/-!
# Ranges of bits

`bmp_set` and `bmp_unset` on any number of bits. The bits on the left, the full bytes and the bits on the
right follow one another without a gap, so that each part goes on where the one before it has ended.
-/

namespace Fsl

open BitNum

namespace Bitmap

/-- `b'` is `b` with the bits from `lo` up to `hi` set or cleared. -/
structure Puts (val : Bool) (b b' : Bitmap) (lo hi : ℕ) : Prop where
  bytes : b'.bytes = b.bytes
  size : b'.size = b.size
  bit : ∀ k, bitOf b'.data k = if lo ≤ k ∧ k < hi then val else bitOf b.data k

variable {b b₁ b₂ : Bitmap} {val : Bool} {lo mid hi : ℕ}

theorem Puts.refl (val : Bool) (b : Bitmap) (lo : ℕ) : Puts val b b lo lo := by
  refine ⟨rfl, rfl, fun k => ?_⟩
  rw [if_neg]
  omega

/-- Two ranges that meet. -/
theorem Puts.trans (h₁ : Puts val b b₁ lo mid) (h₂ : Puts val b₁ b₂ mid hi) (hlo : lo ≤ mid)
    (hhi : mid ≤ hi) : Puts val b b₂ lo hi := by
  refine ⟨h₂.bytes.trans h₁.bytes, h₂.size.trans h₁.size, fun k => ?_⟩
  rw [h₂.bit, h₁.bit]
  split_ifs <;> first | rfl | omega

/-- A byte is what its bits are. -/
theorem byte_eq_of_bits {f g : ℕ → UInt8} {i : ℕ}
    (h : ∀ j, j < 8 → bitOf f (8 * i + j) = bitOf g (8 * i + j)) : f i = g i := by
  refine UInt8.toNat_inj.mp (Nat.eq_of_testBit_eq fun j => ?_)
  by_cases hj : j < 8
  · have hbit := h j hj
    have hdiv : (8 * i + j) / 8 = i := by omega
    have hmod : (8 * i + j) % 8 = j := by omega
    rwa [bitOf, bitOf, hdiv, hmod] at hbit
  · have hpow : 2 ^ 8 ≤ 2 ^ j := Nat.pow_le_pow_right (by decide) (by omega)
    rw [Nat.testBit_lt_two_pow (lt_of_lt_of_le (UInt8.toNat_lt _) hpow),
      Nat.testBit_lt_two_pow (lt_of_lt_of_le (UInt8.toNat_lt _) hpow)]

/-- The bytes behind the range are as they were. -/
theorem Puts.data_eq (h : Puts val b b₁ lo hi) {i : ℕ} (hi : hi ≤ 8 * i) : b₁.data i = b.data i := by
  refine byte_eq_of_bits fun j _ => ?_
  rw [h.bit, if_neg (by omega)]

/-- There is one such bitmap. -/
theorem Puts.unique (h₁ : Puts val b b₁ lo hi) (h₂ : Puts val b b₂ lo hi) : b₁ = b₂ := by
  obtain ⟨data₁, bytes₁, size₁⟩ := b₁
  obtain ⟨data₂, bytes₂, size₂⟩ := b₂
  obtain rfl : bytes₁ = bytes₂ := h₁.bytes.trans h₂.bytes.symm
  obtain rfl : size₁ = size₂ := h₁.size.trans h₂.size.symm
  congr 1
  funext i
  exact byte_eq_of_bits fun j _ => (h₁.bit _).trans (h₂.bit _).symm

/-! ## Masks -/

theorem testBit_maskByte_mask (val : Bool) (byte mask : UInt8) {j : ℕ} (hj : j < 8) :
    (maskByte val byte mask).toNat.testBit j =
      if mask.toNat.testBit j then val else byte.toNat.testBit j := by
  unfold maskByte
  cases val with
  | true =>
    rw [if_pos rfl, UInt8.toNat_or, Nat.testBit_or]
    cases mask.toNat.testBit j <;> simp
  | false =>
    have hnot : (~~~mask).toNat = 2 ^ 8 - (mask.toNat + 1) := by
      rw [UInt8.toNat_not]
      show 2 ^ 8 - 1 - mask.toNat = _
      omega
    rw [if_neg (by decide), UInt8.toNat_and, hnot, Nat.testBit_and,
      Nat.testBit_two_pow_sub_succ mask.toNat_lt]
    cases mask.toNat.testBit j <;> simp [hj]

/-- `w` ones from bit `l` on. -/
theorem exists_onesMask {w l : ℕ} : ∃ mask, onesMask w l = .ok mask ∧
    ∀ j, j < 8 → mask.toNat.testBit j = decide (l ≤ j ∧ j < l + w) := by
  have hpos : (0 : ℤ) ≤ w ∧ (0 : ℤ) ≤ l := ⟨Int.natCast_nonneg w, Int.natCast_nonneg l⟩
  refine ⟨_, if_pos hpos, fun j hj => ?_⟩
  rw [UInt8.toNat_ofNat', Nat.testBit_mod_two_pow, Int.toNat_natCast, Int.toNat_natCast,
    Nat.testBit_shiftLeft, Nat.testBit_two_pow_sub_one]
  by_cases hl : l ≤ j
  · have hiff : j - l < w ↔ j < l + w := by omega
    simp [hj, hl, hiff]
  · simp [hl]

/-- One mask of `w` ones. -/
theorem puts_putMask (val : Bool) {i w l : ℕ} {mask : UInt8} (hi : i < b.bytes.toNat) (hwl : l + w ≤ 8)
    (hmask : ∀ j, j < 8 → mask.toNat.testBit j = decide (l ≤ j ∧ j < l + w)) :
    ∃ b', b.putMask val i mask = .ok b' ∧ Puts val b b' (8 * i + l) (8 * i + l + w) := by
  refine ⟨_, if_pos ⟨Int.natCast_nonneg i, by exact_mod_cast hi⟩, rfl, rfl, fun k => ?_⟩
  have hj : k % 8 < 8 := Nat.mod_lt _ (by decide)
  rw [Int.toNat_natCast]
  show (Function.update b.data i (maskByte val (b.data i) mask) (k / 8)).toNat.testBit (k % 8) = _
  by_cases hk : k / 8 = i
  · have hiff : (l ≤ k % 8 ∧ k % 8 < l + w) ↔ (8 * i + l ≤ k ∧ k < 8 * i + l + w) := by omega
    rw [hk, Function.update_self, testBit_maskByte_mask val _ _ hj, hmask _ hj, bitOf, hk]
    simp only [decide_eq_true_eq, hiff]
  · rw [Function.update_of_ne hk, if_neg (by omega)]
    rfl

theorem testBit_full (j : ℕ) : (0xff : UInt8).toNat.testBit j = decide (0 ≤ j ∧ j < 0 + 8) := by
  have hfull : (0xff : UInt8).toNat = 2 ^ 8 - 1 := rfl
  rw [hfull, Nat.testBit_two_pow_sub_one]
  simp

/-- The full bytes. -/
theorem puts_putBytes (val : Bool) {k i : ℕ} (h : i + k ≤ b.bytes.toNat) :
    ∃ b', putBytes val k i b = .ok b' ∧ Puts val b b' (8 * i) (8 * (i + k)) := by
  induction k generalizing i b with
  | zero => exact ⟨b, rfl, Puts.refl val b (8 * i)⟩
  | succ k ih =>
    obtain ⟨b₁, hput, h₁⟩ := puts_putMask val (b := b) (i := i) (w := 8) (l := 0) (by omega)
      le_rfl fun j _ => testBit_full j
    have hbytes : b₁.bytes.toNat = b.bytes.toNat := congrArg UInt32.toNat h₁.bytes
    obtain ⟨b₂, hrest, h₂⟩ := ih (b := b₁) (i := i + 1) (by omega)
    have hend : 8 * i + 0 + 8 = 8 * (i + 1) := by omega
    have hnext : 8 * (i + 1 + k) = 8 * (i + (k + 1)) := by omega
    rw [hend] at h₁
    rw [hnext] at h₂
    refine ⟨b₂, ?_, h₁.trans h₂ (by omega) (by omega)⟩
    rw [putBytes, hput, ok_bind]
    exact hrest

/-- The full bytes and the bits on the right. -/
def putTail (val : Bool) (b : Bitmap) (off count : ℤ) : Except Stop Bitmap := do
  let b ← b.putBytes val (count.tdiv 8).toNat (off.tdiv 8)
  if count % 8 ≠ 0 then do
    b.putMask val ((count.tdiv 8).toNat + off.tdiv 8) (← onesMask (count % 8) 0)
  else return b

theorem puts_putTail (val : Bool) (off count : ℕ) (hoff : count = 0 ∨ off % 8 = 0)
    (h : off + count ≤ 8 * b.bytes.toNat) :
    ∃ b', putTail val b off count = .ok b' ∧ Puts val b b' off (off + count) := by
  have hcount : ((count : ℤ).tdiv 8).toNat = count / 8 := rfl
  have hdiv : (off : ℤ).tdiv 8 = (off / 8 : ℕ) := rfl
  have hmod : (count : ℤ) % 8 = (count % 8 : ℕ) := rfl
  unfold putTail
  rw [hcount, hdiv, hmod]
  rcases hoff with rfl | hal
  · exact ⟨b, rfl, Puts.refl val b off⟩
  · obtain ⟨b₁, hbytes, h₁⟩ := puts_putBytes val (b := b) (k := count / 8) (i := off / 8)
      (by omega)
    have hstart : 8 * (off / 8) = off := by omega
    have hmid : 8 * (off / 8 + count / 8) = off + 8 * (count / 8) := by omega
    rw [hstart, hmid] at h₁
    rw [hbytes, ok_bind]
    by_cases hright : count % 8 = 0
    · have hend : off + 8 * (count / 8) = off + count := by omega
      rw [hend] at h₁
      exact ⟨b₁, if_neg (by omega), h₁⟩
    · have hlen : b₁.bytes.toNat = b.bytes.toNat := congrArg UInt32.toNat h₁.bytes
      obtain ⟨mask, hmask, hones⟩ := exists_onesMask (w := count % 8) (l := 0)
      obtain ⟨b₂, hput, h₂⟩ := puts_putMask val (b := b₁) (i := count / 8 + off / 8)
        (by omega) (by omega) hones
      have hfrom : 8 * (count / 8 + off / 8) + 0 = off + 8 * (count / 8) := by omega
      have hto : off + 8 * (count / 8) + count % 8 = off + count := by omega
      rw [hfrom, hto] at h₂
      refine ⟨b₂, ?_, h₁.trans h₂ (by omega) (by omega)⟩
      have hne : ((count % 8 : ℕ) : ℤ) ≠ 0 := by omega
      rw [if_pos hne]
      show onesMask ((count % 8 : ℕ) : ℤ) (0 : ℕ) >>= _ = _
      rw [hmask, ok_bind, ← Int.natCast_add]
      exact hput

/-- The parts on the left and behind it. -/
theorem bmpPut_eq {offset n : UInt32} (hassert : offset + (n - 1) < b.size)
    (hoff : offset.toNat < 2 ^ 31) (hn : n.toNat < 2 ^ 31) :
    bmpPut val b offset n =
      if offset.toNat % 8 = 0 then putTail val b offset.toNat n.toNat
      else (do
        let b ← b.putMask val (offset.toNat / 8 : ℕ)
          (← onesMask (min n.toNat (8 - offset.toNat % 8) : ℕ) (offset.toNat % 8 : ℕ))
        let off ← addInt offset.toNat (min n.toNat (8 - offset.toNat % 8) : ℕ)
        putTail val b off (n.toNat - (min n.toNat (8 - offset.toNat % 8) : ℕ))) := by
  have hdiv : (offset / 8).toNat = offset.toNat / 8 := UInt32.toNat_div _ _
  have hmod : (offset.toNat : ℤ) % 8 = (offset.toNat % 8 : ℕ) := rfl
  have hmin : min (n.toNat : ℤ) (8 - (offset.toNat % 8 : ℕ)) =
      (min n.toNat (8 - offset.toNat % 8) : ℕ) := by omega
  simp only [bmpPut, fslAssert_of hassert, ok_bind, toInt_of_lt hoff, toInt_of_lt hn, hdiv, hmod]
  by_cases hleft : offset.toNat % 8 = 0
  · have hadd : addInt (offset.toNat : ℤ) 0 = .ok (offset.toNat : ℤ) := by
      rw [addInt, if_pos (by omega), Int.add_zero]
    simp only [hleft, Int.natCast_zero, ne_eq, not_true_eq_false, if_false, if_true, pure_bind, hadd,
      ok_bind, Int.sub_zero]
    rfl
  · have hne : ((offset.toNat % 8 : ℕ) : ℤ) ≠ 0 := by omega
    simp only [if_pos hne, hmin, if_neg hleft, bind_assoc]
    rfl

section Put

variable {offset n : UInt32}

theorem assert_range (hn : 0 < n.toNat) (hend : offset.toNat + n.toNat ≤ b.size.toNat) :
    offset + (n - 1) < b.size := by
  have hsize := b.size.toNat_lt
  have hone : (1 : UInt32) ≤ n := UInt32.le_iff_toNat_le.mpr hn
  have hpred : (n - 1).toNat = n.toNat - 1 := UInt32.toNat_sub_of_le _ _ hone
  rw [UInt32.lt_iff_toNat_lt, UInt32.toNat_add, hpred]
  omega

/-- The bits from `offset` on, `n` of them, where no `int` reaches `2 ^ 31`. -/
theorem puts_bmpPut (val : Bool) (hoff : offset.toNat < 2 ^ 31) (hn : 0 < n.toNat)
    (hlt : n.toNat < 2 ^ 31)
    (hend : offset.toNat + n.toNat ≤ b.size.toNat) (hbytes : b.size.toNat ≤ 8 * b.bytes.toNat)
    (hleft : offset.toNat % 8 = 0 ∨
      offset.toNat + min n.toNat (8 - offset.toNat % 8) < 2 ^ 31) :
    ∃ b', bmpPut val b offset n = .ok b' ∧
      Puts val b b' offset.toNat (offset.toNat + n.toNat) := by
  rw [bmpPut_eq (assert_range hn hend) hoff hlt]
  by_cases hal : offset.toNat % 8 = 0
  · rw [if_pos hal]
    exact puts_putTail val offset.toNat n.toNat (Or.inr hal) (by omega)
  · -- the bits on the left end at a byte, unless they are all there is
    generalize hi : min n.toNat (8 - offset.toNat % 8) = i at hleft ⊢
    obtain ⟨mask, hmask, hones⟩ := exists_onesMask (w := i) (l := offset.toNat % 8)
    obtain ⟨b₁, hput, h₁⟩ := puts_putMask val (b := b) (i := offset.toNat / 8)
      (by omega) (by omega) hones
    have hlen : b₁.bytes.toNat = b.bytes.toNat := congrArg UInt32.toNat h₁.bytes
    have hfrom : 8 * (offset.toNat / 8) + offset.toNat % 8 = offset.toNat := by omega
    rw [hfrom] at h₁
    obtain ⟨b₂, htail, h₂⟩ := puts_putTail val (b := b₁) (offset.toNat + i)
      (n.toNat - i) (by omega) (by omega)
    have hto : offset.toNat + i + (n.toNat - i) = offset.toNat + n.toNat := by omega
    rw [hto] at h₂
    refine ⟨b₂, ?_, h₁.trans h₂ (by omega) (by omega)⟩
    have hrest : (n.toNat : ℤ) - (i : ℕ) = (n.toNat - i : ℕ) := by omega
    have hadd : addInt (offset.toNat : ℤ) (i : ℕ) = .ok ((offset.toNat + i : ℕ) : ℤ) := by
      rw [addInt, if_pos (by omega), Int.natCast_add]
    rw [if_neg hal, hmask, ok_bind, hput, ok_bind, hadd, ok_bind, hrest]
    exact htail

/-- Where the bits on the left end at bit `2 ^ 31`, the running offset overflows. -/
theorem bmpPut_overflow (hoff : offset.toNat < 2 ^ 31) (hn : 0 < n.toNat) (hlt : n.toNat < 2 ^ 31)
    (hend : offset.toNat + n.toNat ≤ b.size.toNat) (hbytes : b.size.toNat ≤ 8 * b.bytes.toNat)
    (hal : offset.toNat % 8 ≠ 0)
    (hover : 2 ^ 31 ≤ offset.toNat + min n.toNat (8 - offset.toNat % 8)) :
    bmpPut val b offset n = .error .fault := by
  obtain ⟨mask, hmask, hones⟩ := exists_onesMask (w := min n.toNat (8 - offset.toNat % 8))
    (l := offset.toNat % 8)
  obtain ⟨b₁, hput, -⟩ := puts_putMask val (b := b) (i := offset.toNat / 8)
    (by omega) (by omega) hones
  rw [bmpPut_eq (assert_range hn hend) hoff hlt, if_neg hal, hmask, ok_bind, hput, ok_bind,
    addInt_overflow hover]
  rfl

end Put

/-- The bits that can be set or cleared one at a time. From `2 ^ 31` on the running offset is negative,
and only bits on the left are still written where they belong. -/
def Markable (k : ℕ) : Prop := k < 2 ^ 31 - 1 ∨ 2 ^ 31 < k ∧ k % 8 ≠ 0

theorem puts_bmpPut_one (val : Bool) {offset : UInt32} (hsize : offset.toNat < b.size.toNat)
    (hbytes : b.size.toNat ≤ 8 * b.bytes.toNat) (hm : Markable offset.toNat) :
    ∃ b', bmpPut val b offset 1 = .ok b' ∧ Puts val b b' offset.toNat (offset.toNat + 1) := by
  have hone : (1 : UInt32).toNat = 1 := rfl
  rcases hm with hlow | ⟨hhigh, hal⟩
  · exact puts_bmpPut val (hlow.trans (by decide)) (by omega) (by omega) (by omega) hbytes (Or.inr (by omega))
  · have hassert : offset + (1 - 1) < b.size := assert_range (by omega) (by omega)
    have hdiv : (offset / 8).toNat = offset.toNat / 8 := UInt32.toNat_div _ _
    have hint : toInt offset = offset.toNat - 2 ^ 32 := by
      have hcases := toInt_cases offset
      omega
    have hint' : toInt 1 = 1 := rfl
    have hmod : ((offset.toNat : ℤ) - 2 ^ 32) % 8 = (offset.toNat % 8 : ℕ) := by omega
    have hne : ((offset.toNat % 8 : ℕ) : ℤ) ≠ 0 := by omega
    have hmin : min (1 : ℤ) (8 - (offset.toNat % 8 : ℕ)) = (1 : ℕ) := by omega
    have hlt := offset.toNat_lt
    have hadd : addInt ((offset.toNat : ℤ) - 2 ^ 32) (1 : ℕ) =
        .ok ((offset.toNat : ℤ) - 2 ^ 32 + (1 : ℕ)) := if_pos (by omega)
    have hzero : ((1 : ℤ) - (1 : ℕ)).tdiv 8 = 0 ∧ ((1 : ℤ) - (1 : ℕ)) % 8 = 0 := by decide
    obtain ⟨mask, hmask, hones⟩ := exists_onesMask (w := 1) (l := offset.toNat % 8)
    obtain ⟨b', hput, h⟩ := puts_putMask val (b := b) (i := offset.toNat / 8) (by omega)
      (by omega) hones
    have hfrom : 8 * (offset.toNat / 8) + offset.toNat % 8 = offset.toNat := by omega
    rw [hfrom] at h
    refine ⟨b', ?_, h⟩
    simp only [bmpPut, fslAssert_of hassert, ok_bind, hint, hint', hdiv, hmod, if_pos hne, hmin, hmask,
      hput, hadd, hzero.1, hzero.2, Int.toNat_zero, putBytes, ne_eq, not_true_eq_false, if_false]
    rfl

/-- Setting or clearing one bit of a bitmap that shows `p`. -/
theorem Bits.put {n : ℕ} {p : ℕ → Bool} (h : b.Bits n p) (val : Bool) (offset : UInt32)
    (hoff : offset.toNat < n) (hm : Markable offset.toNat) :
    ∃ b', bmpPut val b offset 1 = .ok b' ∧ b'.Bits n (Function.update p offset.toNat val) := by
  have hsize := h.size
  have hbytes := h.bytes
  obtain ⟨b', hput, h'⟩ := puts_bmpPut_one val (b := b) (by omega)
    (by omega) hm
  refine ⟨b', hput, (congrArg UInt32.toNat h'.size).trans hsize, h.le,
    (congrArg UInt32.toNat h'.bytes).trans hbytes, fun k hk => ?_⟩
  rw [h'.bytes] at hk
  rw [h'.bit, h.bit k hk]
  by_cases hk' : k = offset.toNat
  · rw [hk', Function.update_self, if_pos (by omega), decide_eq_true hoff, Bool.true_and]
  · rw [Function.update_of_ne hk', if_neg (by omega)]

/-- What `bmp_set` and `bmp_unset` have to leave: `bmp_is_set` tells the new value for the bits from `lo`
up to `hi` and is as it was for every other bit, no byte outside the bitmap changes, and clear padding
stays clear. -/
structure PutsExactly (val : Bool) (b b' : Bitmap) (lo hi : ℕ) : Prop where
  bytes : b'.bytes = b.bytes
  size : b'.size = b.size
  isSet : ∀ k : UInt32, bmpIsSet b' k = if lo ≤ k.toNat ∧ k.toNat < hi then .ok val else bmpIsSet b k
  outside : ∀ i, b.bytes.toNat ≤ i → b'.data i = b.data i
  padding : (∀ k, b.size.toNat ≤ k → k < 8 * b.bytes.toNat → bitOf b.data k = false) →
    ∀ k, b.size.toNat ≤ k → k < 8 * b.bytes.toNat → bitOf b'.data k = false

theorem Puts.exactly {b' : Bitmap} (h : Puts val b b' lo hi) (hhi : hi ≤ b.size.toNat)
    (hbytes : b.size.toNat ≤ 8 * b.bytes.toNat) : PutsExactly val b b' lo hi where
  bytes := h.bytes
  size := h.size
  isSet k := by
    rw [bmpIsSet, bmpIsSet, h.bytes, h.bit]
    by_cases hin : lo ≤ k.toNat ∧ k.toNat < hi
    · rw [if_pos hin, if_pos hin, if_pos (by omega)]
    · rw [if_neg hin, if_neg hin]
  outside i hout := h.data_eq (by omega)
  padding hclear k hge hlt := by
    rw [h.bit, if_neg (by omega)]
    exact hclear k hge hlt

/-- The number of bytes that `bmp_init` allocates. -/
theorem toNat_bytes (hinit : b.bytes = (b.size + 7) / 8) (hsize : b.size.toNat + 7 < 2 ^ 32) :
    b.bytes.toNat = (b.size.toNat + 7) / 8 := by
  rw [hinit, UInt32.toNat_div, UInt32.toNat_add]
  show (b.size.toNat + 7) % 2 ^ 32 / 8 = _
  rw [Nat.mod_eq_of_lt hsize]

/-- Setting and clearing bits is exact. -/
theorem bmpSet_bmpUnset_exactly (b : Bitmap) (offset n : UInt32) (hinit : b.bytes = (b.size + 7) / 8)
    (hsize : b.size.toNat < 2 ^ 31) (hn : 1 ≤ n.toNat)
    (hend : offset.toNat + n.toNat - 1 < b.size.toNat) :
    (∃ b', bmpSet b offset n = .ok b' ∧
      PutsExactly true b b' offset.toNat (offset.toNat + n.toNat)) ∧
    ∃ b', bmpUnset b offset n = .ok b' ∧
      PutsExactly false b b' offset.toNat (offset.toNat + n.toNat) := by
  have hlen := toNat_bytes hinit (by omega)
  have hput : ∀ val, ∃ b', bmpPut val b offset n = .ok b' ∧
      PutsExactly val b b' offset.toNat (offset.toNat + n.toNat) := by
    intro val
    obtain ⟨b', hput, h⟩ := puts_bmpPut val (b := b) (n := n)
      (show offset.toNat < 2 ^ 31 by omega) (by omega) (by omega) (by omega) (by omega) (Or.inr (by omega))
    exact ⟨b', hput, h.exactly (by omega) (by omega)⟩
  exact ⟨hput true, hput false⟩

/-- Twelve bits in two bytes. -/
def sampleTwelve : Bitmap := ⟨fun _ => 0x0f, 2, 12⟩

/-- Bits 3 to 10 of twelve are set and cleared. -/
theorem bmpSet_bmpUnset_exactly_twelve :
    (∃ b', bmpSet sampleTwelve 3 8 = .ok b' ∧ PutsExactly true sampleTwelve b' 3 11) ∧
    ∃ b', bmpUnset sampleTwelve 3 8 = .ok b' ∧ PutsExactly false sampleTwelve b' 3 11 :=
  bmpSet_bmpUnset_exactly sampleTwelve 3 8 (by decide) (by decide) (by decide) (by decide)

end Bitmap

end Fsl
