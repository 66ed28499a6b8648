import Fsl.Runtime.Cache

/-!
# Writes of the pread runtime

`rt-pread/io.c`: a field write goes to the file and drops the cached lines it may touch; a
one-bit write first reads its byte through the cache. Next to each operation stands what it does
to the file alone, and the operation simulates it on every coherent cache.
-/

namespace Fsl.Pread

open DirectMapped BitNum

/-- `pwrite64` followed by the check of its count; both leave the cache alone. -/
def ioPwrite (buf : List UInt8) (off : ℕ) : IoM Unit := fun io =>
  (io.disk.pwrite buf off).map fun d => ((), { io with disk := d })

/-- The byte that a `numBits`-wide write at bit `bitLeft` of a byte holding `outV` leaves. -/
def rmwByte (outV val numBits bitLeft : ℕ) : UInt8 :=
  let mask := 2 ^ numBits - 1
  let val := val &&& (2 ^ numBits - 1)
  let outV := outV &&& (0xffffffffffffffff ^^^ (mask <<< bitLeft))
  UInt8.ofNat (outV ||| (val <<< bitLeft))

/-- `fsl_io_write_bit`: read, modify and write one byte. -/
def ioWriteBit (bitOff val numBits : ℕ) : IoM Unit := do
  fslAssert (numBits < 8)
  let bitLeft := bitOff % 8
  let outV ← ioCacheGet (bitOff - bitLeft) 8
  ioPwrite [rmwByte outV val numBits bitLeft] (bitOff / 8)
  ioCacheDropBytes (bitOff / 8) 1

/-- The bytes a whole-byte field write sends to the file, least significant first. -/
def valBytes (val numBits : ℕ) : List UInt8 :=
  (List.range (numBits / 8)).map fun i => UInt8.ofNat (val >>> (8 * i))

/-- `fsl_io_write`: one bit anywhere, or whole bytes at a byte boundary. -/
def ioWrite (bitOff val numBits : ℕ) : IoM Unit := do
  if numBits = 1 then ioWriteBit bitOff val numBits
  else do
    fslAssert (bitOff % 8 = 0)
    fslAssert (numBits % 8 = 0)
    ioPwrite (valBytes val numBits) (bitOff / 8)
    ioCacheDropBytes (bitOff / 8) (1 + (numBits + 7) / 8)

/-- `fsl_io_write_bytes`. -/
def ioWriteBytes (buf : List UInt8) (off : ℕ) : IoM Unit := do
  ioPwrite buf off
  ioCacheDropBytes off buf.length

/-- `fsl_io_write` on the file alone. The one-bit write needs the whole line of its byte, which
the cached read fetches. -/
def diskWrite (bitOff val numBits : ℕ) (d : Disk) : Except Stop Disk := do
  if numBits = 1 then
    let outV ← cacheGet d (bitOff - bitOff % 8) 8
    d.pwrite [rmwByte outV val 1 (bitOff % 8)] (bitOff / 8)
  else do
    fslAssert (bitOff % 8 = 0)
    fslAssert (numBits % 8 = 0)
    d.pwrite (valBytes val numBits) (bitOff / 8)

/-- A coherent cache over the file `d`. -/
def OverDisk (io : Io) (d : Disk) : Prop := Over d io

/-- A file update as a computation on the file. -/
def update (f : Disk → Except Stop Disk) : StateT Disk (Except Stop) Unit := fun d =>
  (f d).map fun d' => ((), d')

/-- Writing a range of the file and dropping at least its lines keeps the cache coherent. -/
theorem pwriteDrop_simulates (buf : List UInt8) (off : ℕ) {m : ℕ} (hm : buf.length ≤ m) :
    Simulates OverDisk Eq (do ioPwrite buf off; ioCacheDropBytes off m)
      (update fun d => d.pwrite buf off) := by
  rintro io d ⟨rfl, hc⟩
  cases hw : io.disk.pwrite buf off with
  | error e =>
    simp only [update, hw, Except.map, ioPwrite, bind, StateT.bind, Except.bind]
  | ok d' =>
    have hco : DirectMapped.Coherent invalidAddr (backing d') (dropRange invalidAddr io.cache.ents
        (off / 32) ((off + m + 32 - 1) / 32 + 1 - off / 32)) := by
      refine Coherent.dropRange hc fun b x hout hb => ?_
      unfold backing at hb ⊢
      split at hb
      · next hfull =>
        have hsz := Disk.size_le_pwrite hw
        rw [if_pos (le_trans hfull hsz), ← hb]
        congr 1
        funext k
        have hk := k.isLt
        have hnot : ¬ (off ≤ 32 * b + k ∧ 32 * b + k < off + buf.length) := by omega
        rw [fileLine, fileLine, Disk.byte_pwrite hw, if_neg hnot]
      · cases hb
    simp only [update, hw, Except.map]
    refine ⟨(), { io with disk := d', cache := { io.cache with ents := _ } }, ?_, trivial, rfl, hco⟩
    simp only [ioPwrite, hw, Except.map, bind, StateT.bind, Except.bind, ioCacheDropBytes, get,
      getThe, MonadStateOf.get, StateT.get, pure, Except.pure, set, StateT.set]

/-! ## The operations on a coherent cache -/

theorem fslAssert_bind_simulates {p : Prop} [Decidable p] {x : IoM Unit}
    {f : Disk → Except Stop Disk} (h : p → Simulates OverDisk Eq x (update f)) :
    Simulates OverDisk Eq (fslAssert p >>= fun _ => x)
      (update fun d => fslAssert p >>= fun _ => f d) := by
  by_cases hp : p
  · have hx : (fslAssert p >>= fun _ => x) = x := by
      rw [fslAssert, if_pos hp]
      rfl
    have hy : (fun d => fslAssert p >>= fun _ => f d) = f := by
      funext d
      rw [fslAssert_of hp]
      rfl
    rw [hx, hy]
    exact h hp
  · intro io d _
    simp only [update, fslAssert_of_not hp]
    rw [fslAssert, if_neg hp]
    rfl

theorem ioWriteBit_simulates {bitOff : ℕ} (val : ℕ) (hoff : bitOff < 2 ^ 64) :
    Simulates OverDisk Eq (ioWriteBit bitOff val 1) (update fun d => do
      let outV ← cacheGet d (bitOff - bitOff % 8) 8
      d.pwrite [rmwByte outV val 1 (bitOff % 8)] (bitOff / 8)) := by
  have hread : Simulates OverDisk Eq (ioCacheGet (bitOff - bitOff % 8) 8)
      fun d => (cacheGet d (bitOff - bitOff % 8) 8).map fun outV => (outV, d) :=
    Simulates.of_refines fun d => ioCacheGet_refines (by omega) (by omega) (by omega)
  have hy : (update fun d => do
        let outV ← cacheGet d (bitOff - bitOff % 8) 8
        d.pwrite [rmwByte outV val 1 (bitOff % 8)] (bitOff / 8)) =
      (fun d => (cacheGet d (bitOff - bitOff % 8) 8).map fun outV => (outV, d)) >>= fun outV =>
        update fun d => d.pwrite [rmwByte outV val 1 (bitOff % 8)] (bitOff / 8) := by
    funext d
    simp only [update, bind, StateT.bind]
    cases cacheGet d (bitOff - bitOff % 8) 8 <;> rfl
  rw [hy]
  change Simulates OverDisk Eq (ioCacheGet (bitOff - bitOff % 8) 8 >>= fun outV => do
    ioPwrite [rmwByte outV val 1 (bitOff % 8)] (bitOff / 8)
    ioCacheDropBytes (bitOff / 8) 1) _
  refine hread.bind fun outV outV' hout => ?_
  subst hout
  exact pwriteDrop_simulates _ _ (by simp)

/-- The width and alignment `fsl_io_write` is written for. -/
def WriteWidth (bitOff numBits : ℕ) : Prop :=
  numBits = 1 ∨ (bitOff % 8 = 0 ∧ numBits % 8 = 0 ∧ 8 ≤ numBits ∧ numBits ≤ 64)

instance (bitOff numBits : ℕ) : Decidable (WriteWidth bitOff numBits) := by
  unfold WriteWidth
  infer_instance

theorem WriteWidth.pos {bitOff numBits : ℕ} (h : WriteWidth bitOff numBits) : 1 ≤ numBits := by
  rcases h with h | ⟨-, -, h, -⟩ <;> omega

theorem length_valBytes (val numBits : ℕ) : (valBytes val numBits).length = numBits / 8 := by
  simp [valBytes]

theorem ioWrite_simulates {bitOff numBits : ℕ} (val : ℕ) (hoff : bitOff < 2 ^ 64) :
    Simulates OverDisk Eq (ioWrite bitOff val numBits) (update (diskWrite bitOff val numBits)) := by
  unfold ioWrite diskWrite
  by_cases h1 : numBits = 1
  · simp only [h1, if_true]
    exact ioWriteBit_simulates val hoff
  · simp only [h1, if_false]
    refine fslAssert_bind_simulates fun _ => ?_
    refine fslAssert_bind_simulates fun _ => ?_
    refine pwriteDrop_simulates _ _ ?_
    rw [length_valBytes]
    omega

theorem ioWriteBytes_simulates (buf : List UInt8) (off : ℕ) :
    Simulates OverDisk Eq (ioWriteBytes buf off) (update fun d => d.pwrite buf off) :=
  pwriteDrop_simulates buf off le_rfl

/-! ## What a write does to the bits of the file -/

theorem bit_pwrite {d d' : Disk} {buf : List UInt8} {off : ℕ} (h : d.pwrite buf off = .ok d')
    (k : ℕ) :
    d'.bit k = if 8 * off ≤ k ∧ k < 8 * (off + buf.length)
      then (buf.getD (k / 8 - off) 0).toNat.testBit (k % 8) else d.bit k := by
  rw [Disk.bit, bitOf, Disk.byte_pwrite h]
  have hiff : (off ≤ k / 8 ∧ k / 8 < off + buf.length) ↔
      (8 * off ≤ k ∧ k < 8 * (off + buf.length)) := by omega
  by_cases hin : off ≤ k / 8 ∧ k / 8 < off + buf.length
  · rw [if_pos hin, if_pos (hiff.mp hin)]
  · rw [if_neg hin, if_neg (mt hiff.mpr hin)]
    rfl

theorem testBit_rmwByte {outV l i : ℕ} (val : ℕ) (hl : l < 8) (hi : i < 8) :
    (rmwByte outV val 1 l).toNat.testBit i = if i = l then val.testBit 0 else outV.testBit i := by
  have hsub : ∀ x : ℕ, (UInt8.ofNat x).toNat.testBit i = x.testBit i := by
    intro x
    rw [UInt8.toNat_ofNat', Nat.testBit_mod_two_pow]
    simp [hi]
  have hones : (0xffffffffffffffff : ℕ) = 2 ^ 64 - 1 := by norm_num
  have hi64 : i < 64 := by omega
  simp only [rmwByte, hsub, Nat.testBit_or, Nat.testBit_and, Nat.testBit_xor,
    Nat.testBit_shiftLeft, hones, Nat.testBit_two_pow_sub_one]
  by_cases he : i = l
  · subst he
    simp [hi64]
  · by_cases hge : l ≤ i
    · have hpos : ¬ i - l < 1 := by omega
      simp [he, hge, hpos, hi64]
    · simp [he, hge, hi64]

theorem testBit_valBytes {val numBits i j : ℕ} (hi : i < numBits / 8) (hj : j < 8) :
    ((valBytes val numBits).getD i 0).toNat.testBit j = val.testBit (8 * i + j) := by
  have hlen : i < (valBytes val numBits).length := by rwa [length_valBytes]
  have hget : (valBytes val numBits).getD i 0 = UInt8.ofNat (val >>> (8 * i)) := by
    rw [List.getD_eq_getElem _ _ hlen]
    simp [valBytes]
  rw [hget, UInt8.toNat_ofNat', Nat.testBit_mod_two_pow, Nat.testBit_shiftRight]
  simp [hj]

/-- A field write sets the bits of its field and no other. -/
theorem bit_diskWrite {d d' : Disk} {bitOff val numBits : ℕ} (hw : WriteWidth bitOff numBits)
    (h : diskWrite bitOff val numBits d = .ok d') (k : ℕ) :
    d'.bit k = if bitOff ≤ k ∧ k < bitOff + numBits then val.testBit (k - bitOff) else d.bit k := by
  unfold diskWrite at h
  by_cases h1 : numBits = 1
  · subst h1
    rw [if_pos rfl, cacheGet] at h
    by_cases hfull : 32 * ((bitOff - bitOff % 8 + 8 - 1) / 256 + 1) ≤ d.size ∧
        (bitOff - bitOff % 8) % 8 = 0
    · rw [fslAssert_of hfull] at h
      have hline : (bitOff - bitOff % 8) / 256 = (bitOff - bitOff % 8 + 8 - 1) / 256 := by omega
      rw [if_pos hline] at h
      rw [bit_pwrite h]
      have hiff : (8 * (bitOff / 8) ≤ k ∧ k < 8 * (bitOff / 8 + 1)) ↔ k / 8 = bitOff / 8 := by omega
      simp only [List.length_singleton]
      by_cases hk : k / 8 = bitOff / 8
      · have hzero : k / 8 - bitOff / 8 = 0 := by omega
        have hoff : bitOff - bitOff % 8 + k % 8 = k := by omega
        rw [if_pos (hiff.mpr hk), hzero, List.getD_cons_zero, testBit_rmwByte val (by omega)
          (by omega), testBit_ofBits]
        by_cases he : k % 8 = bitOff % 8
        · have hek : k = bitOff := by omega
          subst hek
          simp
        · have hne : ¬ (bitOff ≤ k ∧ k < bitOff + 1) := by omega
          have hlt : k % 8 < 8 := by omega
          rw [if_neg he, if_neg hne]
          simp [hoff, hlt]
      · have hne : ¬ (bitOff ≤ k ∧ k < bitOff + 1) := by omega
        rw [if_neg (mt hiff.mp hk), if_neg hne]
    · rw [fslAssert_of_not hfull] at h
      cases h
  · rw [if_neg h1] at h
    obtain ⟨hal, hbytes, -, -⟩ := hw.resolve_left h1
    rw [fslAssert_of hal, fslAssert_of hbytes] at h
    rw [bit_pwrite (show d.pwrite (valBytes val numBits) (bitOff / 8) = .ok d' from h),
      length_valBytes]
    have hiff : (8 * (bitOff / 8) ≤ k ∧ k < 8 * (bitOff / 8 + numBits / 8)) ↔
        (bitOff ≤ k ∧ k < bitOff + numBits) := by omega
    by_cases hk : bitOff ≤ k ∧ k < bitOff + numBits
    · rw [if_pos (hiff.mpr hk), if_pos hk, testBit_valBytes (by omega) (by omega)]
      congr 1
      omega
    · rw [if_neg (mt hiff.mp hk), if_neg hk]

theorem size_le_diskWrite {d d' : Disk} {bitOff val numBits : ℕ}
    (h : diskWrite bitOff val numBits d = .ok d') : d.size ≤ d'.size := by
  unfold diskWrite at h
  by_cases h1 : numBits = 1
  · rw [if_pos h1] at h
    cases hc : cacheGet d (bitOff - bitOff % 8) 8 with
    | error e =>
      rw [hc] at h
      cases h
    | ok outV =>
      rw [hc] at h
      exact Disk.size_le_pwrite h
  · rw [if_neg h1] at h
    by_cases hal : bitOff % 8 = 0
    · by_cases hb : numBits % 8 = 0
      · rw [fslAssert_of hal, fslAssert_of hb] at h
        exact Disk.size_le_pwrite h
      · rw [fslAssert_of hal, fslAssert_of_not hb] at h
        cases h
    · rw [fslAssert_of_not hal] at h
      cases h

/-- A field write whose lines the file holds completely goes through and keeps the size. -/
theorem diskWrite_of_le (d : Disk) {bitOff numBits : ℕ} (val : ℕ) (hw : WriteWidth bitOff numBits)
    (hin : bitOff + numBits ≤ 8 * d.size)
    (hline : numBits = 1 → 32 * (bitOff / 256 + 1) ≤ d.size) :
    ∃ d', diskWrite bitOff val numBits d = .ok d' ∧ d'.size = d.size := by
  unfold diskWrite
  by_cases h1 : numBits = 1
  · have hfull : 32 * ((bitOff - bitOff % 8 + 8 - 1) / 256 + 1) ≤ d.size ∧
        (bitOff - bitOff % 8) % 8 = 0 := by omega
    rw [if_pos h1, cacheGet, fslAssert_of hfull]
    refine d.pwrite_of_le _ _ ?_
    rw [List.length_singleton]
    omega
  · obtain ⟨hal, hb, -, -⟩ := hw.resolve_left h1
    rw [if_neg h1, fslAssert_of hal, fslAssert_of hb]
    refine d.pwrite_of_le _ _ ?_
    rw [length_valBytes]
    omega

end Fsl.Pread
