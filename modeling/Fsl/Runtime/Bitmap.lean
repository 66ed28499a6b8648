import Fsl.Lib.FirstFit
import Fsl.Runtime.Prog

/-!
# Bitmaps

The functions of `bitmap.c` behind `choice.c`. The last byte may have padding behind the declared
size; the functions that count read on to its end.
-/

namespace Fsl

open BitNum FirstFit

/-- `bitmap`; `data` is what `bmp_data` points to, of which `bytes` bytes are allocated. -/
structure Bitmap where
  data : ℕ → UInt8
  bytes : UInt32
  size : UInt32

namespace Bitmap

/-- An `unsigned int` that is passed as an `int`. -/
def toInt (u : UInt32) : ℤ := u.toInt32.toInt

/-- A sum of type `int`, which must not overflow. -/
def addInt (a b : ℤ) : Except Stop ℤ :=
  if -2 ^ 31 ≤ a + b ∧ a + b < 2 ^ 31 then .ok (a + b) else .error .fault

/-- `bmp_init`; what `fsl_alloc` returns is not cleared. -/
def bmpInit (mem : ℕ → UInt8) (elements : UInt32) : Bitmap :=
  { data := mem, bytes := (elements + 7) / 8, size := elements }

/-- `bmp_clear` -/
def bmpClear (b : Bitmap) : Bitmap :=
  { b with data := fun i => if i < b.bytes.toNat then 0 else b.data i }

/-- Set or clear the bits of `mask`. -/
def maskByte (val : Bool) (byte mask : UInt8) : UInt8 :=
  if val then byte ||| mask else byte &&& ~~~mask

/-- Set or clear the bits of `mask` in byte `i`. -/
def putMask (val : Bool) (b : Bitmap) (i : ℤ) (mask : UInt8) : Except Stop Bitmap :=
  if 0 ≤ i ∧ i < b.bytes.toNat then
    let byte := maskByte val (b.data i.toNat) mask
    .ok { b with data := Function.update b.data i.toNat byte }
  else .error .fault

/-- Set or clear the `k` bytes from byte `i` on. -/
def putBytes (val : Bool) : ℕ → ℤ → Bitmap → Except Stop Bitmap
  | 0, _, b => .ok b
  | k + 1, i, b => do
    let b ← b.putMask val i 0xff
    putBytes val k (i + 1) b

/-- `((1 << i) - 1) << left`; a shift by a negative number is undefined. -/
def onesMask (i left : ℤ) : Except Stop UInt8 :=
  if 0 ≤ i ∧ 0 ≤ left then .ok (UInt8.ofNat ((2 ^ i.toNat - 1) <<< left.toNat)) else .error .fault

/-- `bmp_set` and `bmp_unset`. The three parts are the bits on the left, the full bytes and the bits
on the right. -/
def bmpPut (val : Bool) (b : Bitmap) (offset n : UInt32) : Except Stop Bitmap := do
  fslAssert (offset + (n - 1) < b.size)
  let count := toInt n
  let off := toInt offset
  let left := off % 8
  let i := if left ≠ 0 then min count (8 - left) else 0
  let b ← (if left ≠ 0 then do b.putMask val (offset / 8).toNat (← onesMask i left) else pure b)
  let off ← addInt off i
  let count := count - i
  let b ← b.putBytes val (count.tdiv 8).toNat (off.tdiv 8)
  if count % 8 ≠ 0 then do
    b.putMask val ((count.tdiv 8).toNat + off.tdiv 8) (← onesMask (count % 8) 0)
  else return b

/-- `bmp_set` -/
def bmpSet : Bitmap → UInt32 → UInt32 → Except Stop Bitmap := bmpPut true

/-- `bmp_unset` -/
def bmpUnset : Bitmap → UInt32 → UInt32 → Except Stop Bitmap := bmpPut false

/-- `bmp_is_set` -/
def bmpIsSet (b : Bitmap) (offset : UInt32) : Except Stop Bool :=
  if offset.toNat / 8 < b.bytes.toNat then .ok (bitOf b.data offset.toNat) else .error .fault

/-- Count on in one byte, over its last `k` bits; `true` when a bit ends the count. -/
def countByte (val : Bool) (byte : UInt8) : ℕ → ℕ → Except Stop (ℕ × Bool)
  | 0, n => .ok (n, false)
  | k + 1, n =>
    if byte.toNat.testBit (7 - k) = val then
      if n + 1 < 2 ^ 31 then countByte val byte k (n + 1) else .error .fault
    else .ok (n, true)

/-- Count on over `k` bytes from byte `i` on; the first one is entered at bit `left`. -/
def countBytes (val : Bool) (data : ℕ → UInt8) : ℕ → ℕ → ℕ → ℕ → Except Stop ℕ
  | 0, _, _, n => .ok n
  | k + 1, i, left, n => do
    let (n, ended) ← countByte val (data i) (8 - left) n
    if ended then return n else countBytes val data k (i + 1) 0 n

/-- `bmp_count_contig_set` and `bmp_count_contig_avail`. -/
def bmpCountContig (val : Bool) (b : Bitmap) (offset : UInt32) : Except Stop ℕ :=
  countBytes val b.data (b.bytes.toNat - offset.toNat / 8) (offset.toNat / 8) (offset.toNat % 8) 0

/-- `bmp_count_contig_set` -/
def bmpCountContigSet : Bitmap → UInt32 → Except Stop ℕ := bmpCountContig true

/-- `bmp_count_contig_avail` -/
def bmpCountContigAvail : Bitmap → UInt32 → Except Stop ℕ := bmpCountContig false

/-- The bitmap of `n` elements whose set bits are those of `p`; the padding is clear. -/
structure Holds (b : Bitmap) (n : ℕ) (p : ℕ → Bool) : Prop where
  size : b.size.toNat = n
  lt : n < 2 ^ 31
  bytes : b.bytes.toNat = (n + 7) / 8
  bit : ∀ k, k < 8 * b.bytes.toNat → bitOf b.data k = (decide (k < n) && p k)

/-- The same for any number of elements at which `bmp_init` does not overflow. -/
structure Bits (b : Bitmap) (n : ℕ) (p : ℕ → Bool) : Prop where
  size : b.size.toNat = n
  le : n ≤ 2 ^ 32 - 8
  bytes : b.bytes.toNat = (n + 7) / 8
  bit : ∀ k, k < 8 * b.bytes.toNat → bitOf b.data k = (decide (k < n) && p k)

variable {b : Bitmap} {n : ℕ} {p : ℕ → Bool} {val : Bool}

theorem Bits.holds (h : b.Bits n p) (hlt : n < 2 ^ 31) : b.Holds n p :=
  ⟨h.size, hlt, h.bytes, h.bit⟩

theorem toInt_cases (u : UInt32) :
    u.toNat < 2 ^ 31 ∧ toInt u = u.toNat ∨ 2 ^ 31 ≤ u.toNat ∧ toInt u = u.toNat - 2 ^ 32 := by
  have hint : toInt u = u.toBitVec.toInt := rfl
  have hnat : u.toBitVec.toNat = u.toNat := rfl
  rw [hint, BitVec.toInt_eq_toNat_cond, hnat]
  split
  · left
    omega
  · right
    constructor
    · omega
    · norm_num

theorem toInt_of_lt {u : UInt32} (h : u.toNat < 2 ^ 31) : toInt u = u.toNat := by
  have hcases := toInt_cases u
  omega

theorem ofInt_toInt (u : UInt32) : UInt32.ofInt (toInt u) = u := by
  have hlt := u.toNat_lt
  have hcases := toInt_cases u
  refine UInt32.toNat_inj.mp ?_
  rw [UInt32.ofInt, UInt32.toNat_ofNat']
  omega

theorem ofInt_natCast (k : ℕ) : UInt32.ofInt (k : ℤ) = UInt32.ofNat k := by
  refine UInt32.toNat_inj.mp ?_
  rw [UInt32.ofInt, UInt32.toNat_ofNat', UInt32.toNat_ofNat']
  omega

theorem addInt_natCast {i j : ℕ} (h : i + j < 2 ^ 31) :
    addInt (i : ℤ) (j : ℤ) = .ok ((i + j : ℕ) : ℤ) := by
  rw [addInt, if_pos (by omega), Int.natCast_add]

theorem eq_of_addInt {a b c : ℤ} (h : addInt a b = .ok c) : c = a + b := by
  unfold addInt at h
  split_ifs at h
  exact (Except.ok.inj h).symm

theorem addInt_overflow {i j : ℕ} (h : 2 ^ 31 ≤ i + j) : addInt (i : ℤ) (j : ℤ) = .error .fault :=
  if_neg (by omega)

theorem bits_bmpClear (mem : ℕ → UInt8) (elements : UInt32) (h : elements.toNat ≤ 2 ^ 32 - 8) :
    (bmpClear (bmpInit mem elements)).Bits elements.toNat fun _ => false where
  size := rfl
  le := h
  bytes := by
    show ((elements + 7) / 8).toNat = _
    rw [UInt32.toNat_div, UInt32.toNat_add]
    show (elements.toNat + 7) % 2 ^ 32 / 8 = _
    omega
  bit k hk := by
    have hbyte : k / 8 < (bmpInit mem elements).bytes.toNat := Nat.div_lt_of_lt_mul hk
    rw [bitOf, Bool.and_false]
    show ((if k / 8 < (bmpInit mem elements).bytes.toNat then (0 : UInt8) else mem (k / 8)).toNat).testBit
      (k % 8) = false
    rw [if_pos hbyte]
    exact Nat.zero_testBit _

/-! ## Reading -/

theorem Bits.isSet (h : b.Bits n p) {offset : UInt32} (hoff : offset.toNat < n) :
    bmpIsSet b offset = .ok (p offset.toNat) := by
  have hbytes := h.bytes
  rw [bmpIsSet, if_pos (by omega), h.bit _ (by omega), decide_eq_true hoff, Bool.true_and]

theorem Holds.isSet (h : b.Holds n p) {offset : UInt32} (hoff : offset.toNat < n) :
    bmpIsSet b offset = .ok (p offset.toNat) := by
  have hbytes := h.bytes
  rw [bmpIsSet, if_pos (by omega), h.bit _ (by omega), decide_eq_true hoff, Bool.true_and]

/-- The count over the last `k` bits of a byte goes on by a run. -/
theorem countByte_eq (val : Bool) (byte : UInt8) {k : ℕ} (hk : k ≤ 8) (hn : n < 2 ^ 31) :
    countByte val byte k n =
      if n + run (fun j => byte.toNat.testBit j == val) k (8 - k) < 2 ^ 31 then
        .ok (n + run (fun j => byte.toNat.testBit j == val) k (8 - k),
          decide (run (fun j => byte.toNat.testBit j == val) k (8 - k) < k))
      else .error .fault := by
  induction k generalizing n with
  | zero =>
    rw [countByte, run, Nat.add_zero, if_pos hn]
    rfl
  | succ k ih =>
    have hnext : 8 - (k + 1) + 1 = 8 - k := by omega
    have hpos : 8 - (k + 1) = 7 - k := by omega
    rw [countByte, run, hnext, hpos]
    by_cases hbit : byte.toNat.testBit (7 - k) = val
    · simp only [hbit, beq_self_eq_true, if_true]
      by_cases hlt : n + 1 < 2 ^ 31
      · rw [if_pos hlt, ih (by omega) hlt, Nat.add_assoc, Nat.add_comm 1]
        simp only [Nat.add_lt_add_iff_right]
      · rw [if_neg hlt, if_neg (by omega)]
    · simp only [beq_iff_eq, if_neg hbit, Nat.add_zero, if_pos hn, Nat.succ_pos, decide_true]

/-- The count over the last bytes goes on by a run of bits. -/
theorem countBytes_eq (val : Bool) (data : ℕ → UInt8) {k i left : ℕ} (hleft : left < 8)
    (hk : k = 0 → left = 0) (hn : n < 2 ^ 31) :
    countBytes val data k i left n =
      if n + run (fun j => bitOf data j == val) (8 * k - left) (8 * i + left) < 2 ^ 31 then
        .ok (n + run (fun j => bitOf data j == val) (8 * k - left) (8 * i + left))
      else .error .fault := by
  induction k generalizing i left n with
  | zero =>
    rw [hk rfl, countBytes, run, Nat.add_zero, if_pos hn]
  | succ k ih =>
    have hbyte : run (fun j => (data i).toNat.testBit j == val) (8 - left) (8 - (8 - left)) =
        run (fun j => bitOf data j == val) (8 - left) (8 * i + left) := by
      refine run_congr fun j hj => ?_
      have hdiv : (8 * i + left + j) / 8 = i := by omega
      have hmod : (8 * i + left + j) % 8 = 8 - (8 - left) + j := by omega
      rw [bitOf, hdiv, hmod]
    have hsplit : 8 * (k + 1) - left = (8 - left) + 8 * k := by omega
    have hnext : 8 * i + left + (8 - left) = 8 * (i + 1) := by omega
    rw [countBytes, countByte_eq val _ (by omega) hn, hbyte, hsplit, run_add, hnext]
    generalize hr : run (fun j => bitOf data j == val) (8 - left) (8 * i + left) = r
    have hle : r ≤ 8 - left := hr ▸ run_le _ _ _
    by_cases hlt : n + r < 2 ^ 31
    · rw [if_pos hlt, ok_bind]
      by_cases hend : r < 8 - left
      · simp only [decide_eq_true hend, if_true, if_neg hend.ne, if_pos hlt]
        rfl
      · have hfull : r = 8 - left := by omega
        have hnone : ¬ (decide (r < 8 - left)) = true := by simp [hend]
        simp only [if_neg hnone, if_pos hfull]
        rw [ih (by decide) (fun _ => rfl) hlt, Nat.sub_zero, Nat.add_zero, hfull, Nat.add_assoc]
    · rw [if_neg hlt, if_neg (by split_ifs <;> omega)]
      rfl

/-- A count over a bitmap, which reads the padding too. -/
theorem Holds.countContig (h : b.Holds n p) (val : Bool) {offset : UInt32}
    (hoff : offset.toNat < n) :
    bmpCountContig val b offset =
      if run (fun j => (decide (j < n) && p j) == val) (8 * ((n + 7) / 8) - offset.toNat)
          offset.toNat < 2 ^ 31 then
        .ok (run (fun j => (decide (j < n) && p j) == val) (8 * ((n + 7) / 8) - offset.toNat)
          offset.toNat)
      else .error .fault := by
  have hbytes := h.bytes
  have hrun : run (fun j => bitOf b.data j == val)
        (8 * (b.bytes.toNat - offset.toNat / 8) - offset.toNat % 8)
        (8 * (offset.toNat / 8) + offset.toNat % 8) =
      run (fun j => (decide (j < n) && p j) == val) (8 * ((n + 7) / 8) - offset.toNat)
        offset.toNat := by
    have hk : 8 * (b.bytes.toNat - offset.toNat / 8) - offset.toNat % 8 =
        8 * ((n + 7) / 8) - offset.toNat := by omega
    have hi : 8 * (offset.toNat / 8) + offset.toNat % 8 = offset.toNat := by omega
    rw [hk, hi]
    refine run_congr fun j hj => ?_
    rw [h.bit _ (by omega)]
  rw [bmpCountContig, countBytes_eq val _ (Nat.mod_lt _ (by decide)) (by omega) (by decide), hrun]
  simp only [Nat.zero_add]

end Bitmap

end Fsl
