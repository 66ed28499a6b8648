import Fsl.Runtime.Coherence

/-!
# Bit fields of the disk

`runtime/io.c` and the `__getLocalPhys` of `rt-pread/io.c`, on a little-endian host. A field that
does not start at a byte boundary is put together from aligned reads; the two functions that do
so are shared by the runtimes and take the aligned read as an argument.
-/

namespace Fsl

open BitNum

/-- `__fsl_mode`. -/
inductive Mode
  | little
  | big
  deriving DecidableEq, Repr

/-- `x << k` on 64-bit words. The processor takes the shift count modulo 64. -/
def shl64 (x k : ℕ) : ℕ := (x <<< (k % 64)) % 2 ^ 64

/-- `bswap_16`, `bswap_32` and `bswap_64`: the low `k` bytes in reverse order. -/
def bswap (k v : ℕ) : ℕ := ofBits (fun i => v.testBit (8 * (k - 1 - i / 8) + i % 8)) (8 * k)

section Monadic

variable {m : Type → Type} [Monad m] [MonadExceptOf Stop m]

/-- `__swapBytes`. -/
def swapBytes (v : ℕ) : ℕ → m ℕ
  | 1 => pure v
  | 2 => pure (bswap 2 v)
  | 4 => pure (bswap 4 v)
  | 8 => pure (bswap 8 v)
  | 5 => pure (((v &&& 0xff00000000) >>> 32) ||| ((v &&& 0x00ff000000) >>> 16) |||
      (v &&& 0x0000ff0000) ||| ((v &&& 0x000000ff00) <<< 16) ||| ((v &&& 0x00000000ff) <<< 32))
  | 6 => pure (((v &&& 0xff0000000000) >>> 40) ||| ((v &&& 0x00ff00000000) >>> 24) |||
      ((v &&& 0x0000ff000000) >>> 8) ||| ((v &&& 0x000000ff0000) <<< 8) |||
      ((v &&& 0x00000000ff00) <<< 24) ||| ((v &&& 0x0000000000ff) <<< 40))
  | _ => throw Stop.assertion

/-- The read of a part of a field that may be absent; an absent part adds no bits. -/
def readPart (present : Prop) [Decidable present] (rd : m ℕ) : m ℕ :=
  if present then rd else pure 0

/-- `__getLocalPhysMisalign`, over the aligned read `rd`. -/
def getLocalPhysMisalign (rd : ℕ → ℕ → m ℕ) (bitOff numBits : ℕ) : m ℕ := do
  let bitsLeft := min (8 - bitOff % 8) numBits
  let bytesFull := (numBits - bitsLeft) / 8
  let bitsRight := numBits - (8 * bytesFull + bitsLeft)
  fslAssert (0 < bitsLeft ∧ bitsLeft < 8)
  -- the left bits
  let v ← rd (8 * (bitOff / 8)) 8
  let ret := v >>> (bitOff % 8)
  -- the full bytes
  let v ← readPart (bytesFull ≠ 0) (rd (8 * (1 + bitOff / 8)) (8 * bytesFull))
  let ret := ret ||| shl64 v bitsLeft
  -- for `num_bits = 64` the shift is by 0 and the mask is empty
  let ret := ret &&& (shl64 1 numBits - 1)
  -- any slack on the right
  let v ← readPart (bitsRight ≠ 0) (rd (8 * (1 + bitOff / 8 + bytesFull)) 8)
  let v := v &&& (shl64 1 bitsRight - 1)
  return ret ||| shl64 v (bitsLeft + 8 * bytesFull)

/-- `bytes_full` of `__getLocalPhysMisalignSwp`: a difference of 64-bit words, divided and then
cut down to an `int`. -/
@[irreducible] def bytesFullSwp (numBits bits : ℕ) : ℤ :=
  (((2 ^ 64 + numBits - bits) % 2 ^ 64 / 8 : ℕ) : ℤ).bmod 0x100000000

/-- `__getLocalPhysMisalignSwp`, over the aligned read `rd`. -/
def getLocalPhysMisalignSwp (rd : ℕ → ℕ → m ℕ) (bitOff numBits : ℕ) : m ℕ := do
  let bitsLeft := min (8 - bitOff % 8) numBits
  let bitsRight := (bitOff + numBits) % 8
  let bytesFull := bytesFullSwp numBits (bitsLeft + bitsRight)
  fslAssert (0 < bitsLeft ∧ bitsLeft < 8)
  fslAssert (((bitsLeft + bitsRight : ℕ) + 8 * bytesFull) % 0x10000000000000000 = (numBits : ℤ))
  let v ← rd (8 * (bitOff / 8)) 8
  let ret := v &&& 0xff
  let ret := ret &&& (2 ^ bitsLeft - 1)
  let ret := shl64 ret (numBits - bitsLeft)
  let v ← readPart (bytesFull ≠ 0) (rd (8 * (1 + bitOff / 8)) (8 * bytesFull.toNat))
  let ret := ret ||| shl64 v bitsRight
  let v ← readPart (bitsRight ≠ 0) (rd (8 * (1 + bitOff / 8 + bytesFull.toNat)) 8)
  let ret := ret ||| v >>> (8 - bitsRight)
  return ret &&& (shl64 1 numBits - 1)

/-- The outer branch of `__getLocalPhys`, with the aligned read of a runtime. The misaligned reads of the
source call back into `__getLocalPhys` at byte addresses, so they are handed its aligned branch. -/
def physWith (mode : Mode) (rd : ℕ → ℕ → m ℕ) (bitOff numBits : ℕ) : m ℕ :=
  if bitOff % 8 ≠ 0 then
    match mode with
    | .big => getLocalPhysMisalignSwp rd bitOff numBits
    | .little => getLocalPhysMisalign rd bitOff numBits
  else rd bitOff numBits

variable {mode : Mode} {rd : ℕ → ℕ → m ℕ} {bitOff numBits : ℕ}

theorem physWith_aligned (h : bitOff % 8 = 0) :
    physWith mode rd bitOff numBits = rd bitOff numBits := if_neg (not_not.mpr h)

theorem physWith_little (h : bitOff % 8 ≠ 0) :
    physWith .little rd bitOff numBits = getLocalPhysMisalign rd bitOff numBits := if_pos h

theorem physWith_big (h : bitOff % 8 ≠ 0) :
    physWith .big rd bitOff numBits = getLocalPhysMisalignSwp rd bitOff numBits := if_pos h

end Monadic

/-! ## Swapping bytes -/

theorem testBit_byte_shiftRight (v a b i : ℕ) :
    ((v &&& (0xff <<< a)) >>> b).testBit i =
      (v.testBit (b + i) && decide (a ≤ b + i ∧ b + i < a + 8)) := by
  have hff : (0xff : ℕ) = 2 ^ 8 - 1 := by norm_num
  rw [Nat.testBit_shiftRight, Nat.testBit_and, Nat.testBit_shiftLeft, hff,
    Nat.testBit_two_pow_sub_one]
  by_cases h : a ≤ b + i
  · have hiff : b + i - a < 8 ↔ b + i < a + 8 := by omega
    simp [h, hiff]
  · simp [h]

theorem testBit_byte_shiftLeft (v a b i : ℕ) :
    ((v &&& (0xff <<< a)) <<< b).testBit i =
      (v.testBit (i - b) && decide (a + b ≤ i ∧ i < a + b + 8)) := by
  have hff : (0xff : ℕ) = 2 ^ 8 - 1 := by norm_num
  rw [Nat.testBit_shiftLeft, Nat.testBit_and, Nat.testBit_shiftLeft, hff,
    Nat.testBit_two_pow_sub_one]
  by_cases h : b ≤ i
  · by_cases ha : a ≤ i - b
    · have h1 : i - b - a < 8 ↔ i < a + b + 8 := by omega
      have h2 : a + b ≤ i := by omega
      simp [h, ha, h1, h2]
    · have h2 : ¬ a + b ≤ i := by omega
      simp [ha, h2]
  · have h2 : ¬ a + b ≤ i := by omega
    simp [h, h2]

theorem swap5_eq (v : ℕ) :
    ((v &&& 0xff00000000) >>> 32) ||| ((v &&& 0x00ff000000) >>> 16) ||| (v &&& 0x0000ff0000) |||
      ((v &&& 0x000000ff00) <<< 16) ||| ((v &&& 0x00000000ff) <<< 32) = bswap 5 v := by
  have hsplit : ((v &&& 0xff00000000) >>> 32) ||| ((v &&& 0x00ff000000) >>> 16) |||
      (v &&& 0x0000ff0000) ||| ((v &&& 0x000000ff00) <<< 16) ||| ((v &&& 0x00000000ff) <<< 32) =
    ((v &&& (0xff <<< 32)) >>> 32) ||| ((v &&& (0xff <<< 24)) >>> 16) |||
      ((v &&& (0xff <<< 16)) >>> 0) ||| ((v &&& (0xff <<< 8)) <<< 16) |||
      ((v &&& (0xff <<< 0)) <<< 32) := rfl
  rw [hsplit]
  refine eq_ofBits fun i => ?_
  simp only [Nat.testBit_or, testBit_byte_shiftRight, testBit_byte_shiftLeft]
  obtain ⟨j, r, hr, rfl⟩ : ∃ j r, r < 8 ∧ i = 8 * j + r := ⟨i / 8, i % 8, by omega, by omega⟩
  have hdiv : (8 * j + r) / 8 = j := by omega
  have hmod : (8 * j + r) % 8 = r := by omega
  rw [hdiv, hmod]
  by_cases hj : j < 5
  · interval_cases j <;> simp <;> grind
  · simp only [show ¬ 8 * j + r < 8 * 5 by omega]
    grind

theorem swap6_eq (v : ℕ) :
    ((v &&& 0xff0000000000) >>> 40) ||| ((v &&& 0x00ff00000000) >>> 24) |||
      ((v &&& 0x0000ff000000) >>> 8) ||| ((v &&& 0x000000ff0000) <<< 8) |||
      ((v &&& 0x00000000ff00) <<< 24) ||| ((v &&& 0x0000000000ff) <<< 40) = bswap 6 v := by
  have hsplit : ((v &&& 0xff0000000000) >>> 40) ||| ((v &&& 0x00ff00000000) >>> 24) |||
      ((v &&& 0x0000ff000000) >>> 8) ||| ((v &&& 0x000000ff0000) <<< 8) |||
      ((v &&& 0x00000000ff00) <<< 24) ||| ((v &&& 0x0000000000ff) <<< 40) =
    ((v &&& (0xff <<< 40)) >>> 40) ||| ((v &&& (0xff <<< 32)) >>> 24) |||
      ((v &&& (0xff <<< 24)) >>> 8) ||| ((v &&& (0xff <<< 16)) <<< 8) |||
      ((v &&& (0xff <<< 8)) <<< 24) ||| ((v &&& (0xff <<< 0)) <<< 40) := rfl
  rw [hsplit]
  refine eq_ofBits fun i => ?_
  simp only [Nat.testBit_or, testBit_byte_shiftRight, testBit_byte_shiftLeft]
  obtain ⟨j, r, hr, rfl⟩ : ∃ j r, r < 8 ∧ i = 8 * j + r := ⟨i / 8, i % 8, by omega, by omega⟩
  have hdiv : (8 * j + r) / 8 = j := by omega
  have hmod : (8 * j + r) % 8 = r := by omega
  rw [hdiv, hmod]
  by_cases hj : j < 6
  · interval_cases j <;> simp <;> grind
  · simp only [show ¬ 8 * j + r < 8 * 6 by omega]
    grind

/-- The widths `__swapBytes` handles. -/
def SwapWidth (k : ℕ) : Prop := k = 1 ∨ k = 2 ∨ k = 4 ∨ k = 5 ∨ k = 6 ∨ k = 8

instance (k : ℕ) : Decidable (SwapWidth k) := by
  unfold SwapWidth
  infer_instance

variable {m : Type → Type} [Monad m] [MonadExceptOf Stop m]

/-- On the widths it handles, `__swapBytes` reverses the bytes. -/
theorem swapBytes_of {k v : ℕ} (hk : SwapWidth k) (hv : v < 2 ^ (8 * k)) :
    (swapBytes v k : m ℕ) = pure (bswap k v) := by
  rcases hk with rfl | rfl | rfl | rfl | rfl | rfl
  · refine congrArg pure (eq_ofBits fun i => ?_)
    by_cases hi : i < 8
    · have he : i % 8 = i := by omega
      simp [hi, he]
    · have hlt : v < 2 ^ i := lt_of_lt_of_le hv (Nat.pow_le_pow_right (by omega) (by omega))
      simp [hi, Nat.testBit_lt_two_pow hlt]
  · rfl
  · rfl
  · exact congrArg pure (swap5_eq v)
  · exact congrArg pure (swap6_eq v)
  · rfl

theorem swapBytes_of_not {k : ℕ} (v : ℕ) (hk : ¬ SwapWidth k) :
    (swapBytes v k : m ℕ) = throw Stop.assertion := by
  unfold SwapWidth at hk
  unfold swapBytes
  split <;> first | omega | rfl

/-! ## Shifts and masks -/

theorem testBit_shl64 {k : ℕ} (x i : ℕ) (hk : k < 64) :
    (shl64 x k).testBit i = (decide (i < 64) && (decide (k ≤ i) && x.testBit (i - k))) := by
  rw [shl64, Nat.testBit_mod_two_pow, Nat.mod_eq_of_lt hk, Nat.testBit_shiftLeft]

/-- The mask `(1UL << n) - 1`; it is empty for `n = 64`. -/
theorem testBit_mask64 {n : ℕ} (i : ℕ) (h64 : n ≤ 64) :
    (shl64 1 n - 1).testBit i = (decide (n ≠ 64) && decide (i < n)) := by
  by_cases h : n = 64
  · subst h
    simp [shl64]
  · have hn : n < 64 := by omega
    have hlt : 2 ^ n < 2 ^ 64 := Nat.pow_lt_pow_right (by omega) hn
    have hval : shl64 1 n = 2 ^ n := by
      rw [shl64, Nat.mod_eq_of_lt hn, Nat.one_shiftLeft, Nat.mod_eq_of_lt hlt]
    rw [hval, Nat.testBit_two_pow_sub_one]
    simp [h]

/-! ## Two aligned reads that agree -/

theorem bytesFullSwp_of_le {numBits bits : ℕ} (h64 : numBits ≤ 64) (h : bits ≤ numBits) :
    bytesFullSwp numBits bits = ((numBits - bits) / 8 : ℕ) := by
  have hw : (2 ^ 64 + numBits - bits) % 2 ^ 64 / 8 = (numBits - bits) / 8 := by omega
  unfold bytesFullSwp
  rw [hw]
  refine Int.bmod_eq_of_le ?_ ?_ <;> norm_num <;> omega

theorem bytesFullSwp_of_lt {numBits bits : ℕ} (h : numBits < bits) (h8 : bits ≤ numBits + 8) :
    bytesFullSwp numBits bits = -1 := by
  have hw : (2 ^ 64 + numBits - bits) % 2 ^ 64 / 8 = 2305843009213693951 := by omega
  unfold bytesFullSwp
  rw [hw]
  decide

/-- The assertion of `__getLocalPhysMisalignSwp` on its three parts holds where the field reaches
the end of its first byte. -/
theorem swpParts_iff {bitOff numBits : ℕ} (h1 : 1 ≤ numBits) (h64 : numBits ≤ 64) :
    ((min (8 - bitOff % 8) numBits + (bitOff + numBits) % 8 : ℕ) + 8 * bytesFullSwp numBits
      (min (8 - bitOff % 8) numBits + (bitOff + numBits) % 8)) % 0x10000000000000000 =
        (numBits : ℤ) ↔
      8 ≤ bitOff % 8 + numBits := by
  by_cases h : 8 ≤ bitOff % 8 + numBits
  · rw [bytesFullSwp_of_le h64 (by omega)]
    omega
  · rw [bytesFullSwp_of_lt (by omega) (by omega)]
    omega

section Refinement

variable {σ : Type} {I : σ → Prop} {rd : ℕ → ℕ → StateT σ (Except Stop) ℕ}
  {rd' : ℕ → ℕ → Except Stop ℕ} {mode : Mode} {bitOff numBits : ℕ}

theorem readPart_refines {p : Prop} [Decidable p] {x : StateT σ (Except Stop) ℕ}
    {v : Except Stop ℕ} (h : p → Refines I Eq x v) :
    Refines I Eq (readPart p x) (readPart p v) :=
  Refines.ite h fun _ => Refines.pure rfl

/-- The misaligned reads refine each other when the aligned reads they are built from do. -/
theorem physWith_refines
    (h : ∀ a k, a % 8 = 0 → 1 ≤ k → k ≤ 64 → a < 2 ^ 66 → Refines I Eq (rd a k) (rd' a k))
    (h1 : 1 ≤ numBits) (h64 : numBits ≤ 64) (hoff : bitOff < 2 ^ 64) :
    Refines I Eq (physWith mode rd bitOff numBits) (physWith mode rd' bitOff numBits) := by
  by_cases hal : bitOff % 8 = 0
  · rw [physWith_aligned hal, physWith_aligned hal]
    exact h bitOff numBits hal h1 h64 (by omega)
  · cases mode with
    | little =>
      rw [physWith_little hal, physWith_little hal]
      refine fslAssert_bind_refines fun _ => ?_
      refine Refines.bind (h _ _ (by omega) (by omega) (by omega) (by omega)) fun v _ hv => ?_
      subst hv
      refine Refines.bind (readPart_refines fun hf =>
        h _ _ (by omega) (by omega) (by omega) (by omega)) fun v _ hv => ?_
      subst hv
      refine Refines.bind (readPart_refines fun hr =>
        h _ _ (by omega) (by omega) (by omega) (by omega)) fun v _ hv => ?_
      subst hv
      exact Refines.pure rfl
    | big =>
      rw [physWith_big hal, physWith_big hal]
      refine fslAssert_bind_refines fun _ => ?_
      refine fslAssert_bind_refines fun hparts => ?_
      have hend := (swpParts_iff h1 h64).mp hparts
      have hbytes := bytesFullSwp_of_le h64 (show min (8 - bitOff % 8) numBits +
        (bitOff + numBits) % 8 ≤ numBits by omega)
      refine Refines.bind (h _ _ (by omega) (by omega) (by omega) (by omega)) fun v _ hv => ?_
      subst hv
      refine Refines.bind (readPart_refines fun hf =>
        h _ _ (by omega) (by omega) (by omega) (by omega)) fun v _ hv => ?_
      subst hv
      refine Refines.bind (readPart_refines fun hr =>
        h _ _ (by omega) (by omega) (by omega) (by omega)) fun v _ hv => ?_
      subst hv
      exact Refines.pure rfl

end Refinement

/-! ## The pread runtime -/

namespace Pread

/-- What `__getLocalPhys` makes of an aligned value. -/
def orient (mode : Mode) (numBits ret : ℕ) : m ℕ :=
  if numBits % 8 = 0 then
    match mode with
    | .big => swapBytes ret (numBits / 8)
    | .little => pure ret
  else pure ret

/-- The common path of `__getLocalPhys`. -/
def physAligned (mode : Mode) (bitOff numBits : ℕ) : IoM ℕ := do
  let ret ← ioCacheGet bitOff numBits
  orient mode numBits ret

/-- `__getLocalPhys`. -/
def getLocalPhys (mode : Mode) (bitOff numBits : ℕ) : IoM ℕ :=
  physWith mode (physAligned mode) bitOff numBits

/-- The common path over the file `d`, whatever the cache holds. -/
def diskAligned (mode : Mode) (d : Disk) (bitOff numBits : ℕ) : Except Stop ℕ := do
  let ret ← cacheGet d bitOff numBits
  orient mode numBits ret

/-- `__getLocalPhys` over the file `d`. -/
def diskPhys (mode : Mode) (d : Disk) (bitOff numBits : ℕ) : Except Stop ℕ :=
  physWith mode (diskAligned mode d) bitOff numBits

theorem swapBytes_refines {σ : Type} {I : σ → Prop} (v k : ℕ) :
    Refines I Eq (swapBytes v k : StateT σ (Except Stop) ℕ) (swapBytes v k) := by
  unfold swapBytes
  split <;> first | exact Refines.pure rfl | exact Refines.throw _

/-- From every coherent cache over the file `d`, `__getLocalPhys` ends as it does over `d`. -/
theorem getLocalPhys_refines {d : Disk} {mode : Mode} {bitOff numBits : ℕ} (h1 : 1 ≤ numBits)
    (h64 : numBits ≤ 64) (hoff : bitOff < 2 ^ 64) :
    Refines (Over d) Eq (getLocalPhys mode bitOff numBits) (diskPhys mode d bitOff numBits) := by
  refine physWith_refines (fun a k _ hk hk64 ha => ?_) h1 h64 hoff
  refine Refines.bind (ioCacheGet_refines hk hk64 ha) fun ret _ hret => ?_
  subst hret
  refine Refines.ite (fun _ => ?_) fun _ => Refines.pure rfl
  cases mode with
  | big => exact swapBytes_refines ret (k / 8)
  | little => exact Refines.pure rfl

/-! ## Little-endian fields -/

variable {d : Disk} {bitOff numBits : ℕ}

/-- The file holds the last line of the range, and so all of them. -/
def Full (d : Disk) (bitOff numBits : ℕ) : Prop :=
  32 * ((bitOff + numBits - 1) / 256 + 1) ≤ d.size

instance (d : Disk) (bitOff numBits : ℕ) : Decidable (Full d bitOff numBits) := by
  unfold Full
  infer_instance

/-- Whole bytes come back in full, in one line or in two. -/
theorem cacheGet_bytes {q k : ℕ} (hfull : Full d (8 * q) (8 * k)) :
    cacheGet d (8 * q) (8 * k) = .ok (ofBits (fun i => d.bit (8 * q + i)) (8 * k)) := by
  have hwidth : (if 8 * q / 256 = (8 * q + 8 * k - 1) / 256 then 8 * k else 8 * (8 * k / 8)) =
      8 * k := by
    split <;> omega
  rw [cacheGet, fslAssert_of ⟨hfull, Nat.mul_mod_right 8 q⟩, hwidth]
  rfl

theorem cacheGet_stops (h : ¬ Full d bitOff numBits) :
    cacheGet d bitOff numBits = .error .assertion := by
  rw [cacheGet, fslAssert_of_not fun hc => h hc.1]
  rfl

theorem cacheGet_ne_fault (d : Disk) (bitOff numBits : ℕ) :
    cacheGet d bitOff numBits ≠ .error .fault := by
  rw [cacheGet, fslAssert]
  split <;> simp [bind, Except.bind, pure, Except.pure, throw, throwThe, MonadExceptOf.throw]

theorem diskAligned_little (d : Disk) (bitOff numBits : ℕ) :
    diskAligned .little d bitOff numBits = cacheGet d bitOff numBits := by
  unfold diskAligned orient
  cases cacheGet d bitOff numBits with
  | error e => rfl
  | ok v =>
    show (if numBits % 8 = 0 then Except.ok v else Except.ok v) = Except.ok v
    rw [ite_self]

end Pread

end Fsl
