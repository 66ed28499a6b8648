import Fsl.Runtime.LittleEndian

/-!
# Big-endian fields

In big-endian mode a field is read most significant bit first: bit `k` of the disk is then bit
`7 - k % 8` of byte `k / 8`. This file says which fields the pread runtime reads so, and that
reading a region field by field gives its big-endian number exactly when every field is of that
kind.
-/

namespace Fsl

open BitNum

/-- Bit `k` of the disk, most significant bit of each byte first. -/
def Disk.beBit (d : Disk) (k : ℕ) : Bool := d.bit (8 * (k / 8) + (7 - k % 8))

/-- The number of the `n` bits from `off` on, most significant first. -/
def beField (d : Disk) (off n : ℕ) : ℕ := ofBits (fun i => d.beBit (off + (n - 1 - i))) n

/-- The big-endian number of `k` bytes. -/
def bigEndian (f : ℕ → UInt8) (p : ℕ) : ℕ → ℕ
  | 0 => 0
  | k + 1 => bigEndian f p k * 256 + (f (p + k)).toNat

/-- Fields of the given widths next to each other, most significant first. -/
def concatMsb : List ℕ → List ℕ → ℕ
  | _ :: ws, v :: vs => v * 2 ^ ws.sum + concatMsb ws vs
  | _, _ => 0

theorem beField_lt (d : Disk) (off n : ℕ) : beField d off n < 2 ^ n := ofBits_lt _ _

theorem beField_add (d : Disk) (off n m : ℕ) :
    beField d off (n + m) = beField d off n * 2 ^ m + beField d (off + n) m := by
  have hlow : ofBits (fun i => d.beBit (off + (n + m - 1 - i))) m = beField d (off + n) m := by
    refine ofBits_congr fun i hi => ?_
    rw [show off + (n + m - 1 - i) = off + n + (m - 1 - i) by omega]
  have hhigh : ofBits (fun i => d.beBit (off + (n + m - 1 - (m + i)))) n = beField d off n := by
    refine ofBits_congr fun i hi => ?_
    rw [show n + m - 1 - (m + i) = n - 1 - i by omega]
  rw [beField, Nat.add_comm n m, ofBits_add, Nat.add_comm m n, hlow, hhigh, Nat.mul_comm,
    Nat.add_comm]

theorem beField_byte (d : Disk) (p : ℕ) : beField d (8 * p) 8 = (d.byte p).toNat := by
  symm
  refine eq_ofBits fun i => ?_
  by_cases hi : i < 8
  · have hdiv : (8 * p + (8 - 1 - i)) / 8 = p := by omega
    have hmod : (8 * p + (8 - 1 - i)) % 8 = 7 - i := by omega
    have hbit : (8 * p + (7 - (7 - i))) / 8 = p ∧ (8 * p + (7 - (7 - i))) % 8 = i := by omega
    rw [Disk.beBit, hdiv, hmod, Disk.bit, bitOf, hbit.1, hbit.2]
    simp [hi]
  · have hlt : (d.byte p).toNat < 2 ^ i :=
      lt_of_lt_of_le (UInt8.toNat_lt _) (Nat.pow_le_pow_right (by omega) (by omega : 8 ≤ i))
    simp [hi, Nat.testBit_lt_two_pow hlt]

/-- Whole bytes read most significant bit first are their big-endian number. -/
theorem beField_bytes (d : Disk) (p k : ℕ) : beField d (8 * p) (8 * k) = bigEndian d.byte p k := by
  induction k with
  | zero => rfl
  | succ k ih =>
    have h256 : (2 : ℕ) ^ 8 = 256 := by norm_num
    rw [bigEndian, ← ih, Nat.mul_succ, beField_add, ← Nat.mul_add, beField_byte, h256]

/-- Reversing the bytes of a little-endian number gives the big-endian one. -/
theorem bswap_ofBits (d : Disk) (q k : ℕ) :
    bswap k (ofBits (fun i => d.bit (8 * q + i)) (8 * k)) = beField d (8 * q) (8 * k) := by
  refine ofBits_congr fun i hi => ?_
  have hdiv : (8 * q + (8 * k - 1 - i)) / 8 = q + (k - 1 - i / 8) := by omega
  have hmod : (8 * q + (8 * k - 1 - i)) % 8 = 7 - i % 8 := by omega
  have hlt : 8 * (k - 1 - i / 8) + i % 8 < 8 * k := by omega
  have hpos : 8 * q + (8 * (k - 1 - i / 8) + i % 8) =
      8 * (q + (k - 1 - i / 8)) + (7 - (7 - i % 8)) := by omega
  rw [testBit_ofBits, Disk.beBit, hdiv, hmod, hpos]
  simp [hlt]

/-- The bits of a misaligned field from its left bits, its full bytes and its right bits. -/
theorem joinPartsSwp {r n bl bf br v w u : ℕ} {f : ℕ → Bool} (hr : 0 < r) (hr8 : r < 8)
    (h64 : n < 64) (hbl : bl = 8 - r) (hsum : r + n = 8 + 8 * bf + br) (hbr : br < 8)
    (hv : ∀ i, v.testBit i = (decide (i < 8) && f (7 - i)))
    (hw : ∀ i, w.testBit i = (decide (i < 8 * bf) && f (8 + (8 * bf - 1 - i))))
    (hu : u >>> (8 - br) = ofBits (fun i => f (8 + 8 * bf + (br - 1 - i))) br) :
    (shl64 (v &&& 0xff &&& (2 ^ bl - 1)) (n - bl) ||| shl64 w br ||| u >>> (8 - br)) &&&
        (shl64 1 n - 1) = ofBits (fun i => f (r + (n - 1 - i))) n := by
  refine eq_ofBits fun i => ?_
  have hff : (0xff : ℕ) = 2 ^ 8 - 1 := by norm_num
  have h1 : n - bl < 64 := by omega
  have h2 : br < 64 := by omega
  rw [Nat.testBit_and, Nat.testBit_or, Nat.testBit_or, testBit_mask64 i h64.le, testBit_shl64 _ _ h1,
    testBit_shl64 _ _ h2, testBit_and_mask, hff, testBit_and_mask, hu, testBit_ofBits, hv, hw]
  have hn : n ≠ 64 := by omega
  by_cases hin : i < n
  · have hi64 : i < 64 := by omega
    by_cases hb : i < br
    · have h3 : ¬ br ≤ i := by omega
      have h4 : ¬ n - bl ≤ i := by omega
      have h5 : 8 + 8 * bf + (br - 1 - i) = r + (n - 1 - i) := by omega
      simp [hin, hn, hb, h3, h4, h5]
    · have h3 : br ≤ i := by omega
      by_cases hm : i < n - bl
      · have h4 : ¬ n - bl ≤ i := by omega
        have h5 : i - br < 8 * bf := by omega
        have h6 : 8 + (8 * bf - 1 - (i - br)) = r + (n - 1 - i) := by omega
        simp [hin, hn, hi64, hb, h3, h4, h5, h6]
      · have h4 : n - bl ≤ i := by omega
        have h5 : ¬ i - br < 8 * bf := by omega
        have h6 : i - (n - bl) < bl := by omega
        have h7 : i - (n - bl) < 8 := by omega
        have h8 : 7 - (i - (n - bl)) = r + (n - 1 - i) := by omega
        simp [hin, hn, hi64, hb, h4, h5, h6, h7, h8]
  · simp [hin]

namespace Pread

variable {d : Disk} {bitOff numBits : ℕ}

/-- The shape of a field that `__getLocalPhys` reads most significant bit first: whole bytes of a
width `__swapBytes` handles, or a misaligned field that fills its first byte and whose full bytes
are of such a width. -/
def BeShape (bitOff numBits : ℕ) : Prop :=
  if bitOff % 8 = 0 then numBits % 8 = 0 ∧ SwapWidth (numBits / 8)
  else (bitOff % 8 + numBits) / 8 = 1 ∨ SwapWidth ((bitOff % 8 + numBits) / 8 - 1)

theorem diskAligned_big_bytes {q k : ℕ} (hfull : Full d (8 * q) (8 * k)) :
    diskAligned .big d (8 * q) (8 * k) =
      if SwapWidth k then .ok (beField d (8 * q) (8 * k)) else .error .assertion := by
  have hmod : 8 * k % 8 = 0 := Nat.mul_mod_right 8 k
  have hdiv : 8 * k / 8 = k := by omega
  have hrun : diskAligned .big d (8 * q) (8 * k) =
      swapBytes (ofBits (fun i => d.bit (8 * q + i)) (8 * k)) k := by
    rw [diskAligned, cacheGet_bytes hfull]
    show orient .big (8 * k) _ = _
    rw [orient, if_pos hmod, hdiv]
  rw [hrun]
  by_cases hk : SwapWidth k
  · rw [if_pos hk, swapBytes_of hk (ofBits_lt _ _), bswap_ofBits]
    rfl
  · rw [if_neg hk, swapBytes_of_not _ hk]
    rfl

theorem diskAligned_big_part {q k : ℕ} (hk : k % 8 ≠ 0) :
    diskAligned .big d q k = cacheGet d q k := by
  have horient : ∀ v, (orient .big k v : Except Stop ℕ) = .ok v := fun v => if_neg hk
  rw [diskAligned]
  cases cacheGet d q k with
  | error e => rfl
  | ok v => exact horient v

theorem diskAligned_stops {mode : Mode} (h : ¬ Full d bitOff numBits) :
    diskAligned mode d bitOff numBits = .error .assertion := by
  rw [diskAligned, cacheGet_stops h]
  rfl

theorem swapBytes_ne_fault (v k : ℕ) : (swapBytes v k : Except Stop ℕ) ≠ .error .fault := by
  unfold swapBytes
  split <;> simp [pure, Except.pure, throw, throwThe, MonadExceptOf.throw]

theorem diskAligned_ne_fault (mode : Mode) (d : Disk) (bitOff numBits : ℕ) :
    diskAligned mode d bitOff numBits ≠ .error .fault := by
  unfold diskAligned
  cases hc : cacheGet d bitOff numBits with
  | error e =>
    intro h
    exact cacheGet_ne_fault d bitOff numBits (hc.trans h)
  | ok v =>
    show orient mode numBits v ≠ _
    unfold orient
    split
    · cases mode with
      | big => exact swapBytes_ne_fault v _
      | little => simp [pure, Except.pure]
    · simp [pure, Except.pure]

theorem readPart_diskAligned_ne_fault {p : Prop} [Decidable p] (mode : Mode) (d : Disk) (a k : ℕ) :
    readPart p (diskAligned mode d a k) ≠ .error .fault := by
  unfold readPart
  split
  · exact diskAligned_ne_fault mode d a k
  · simp [pure, Except.pure]

/-- A misaligned field that ends inside its first byte stops the process. -/
theorem misalignSwp_inner {rd : ℕ → ℕ → Except Stop ℕ} (h1 : 1 ≤ numBits)
    (h : bitOff % 8 + numBits < 8) :
    getLocalPhysMisalignSwp rd bitOff numBits = .error .assertion := by
  have hassert : 0 < min (8 - bitOff % 8) numBits ∧ min (8 - bitOff % 8) numBits < 8 := by omega
  have hparts := mt (swpParts_iff h1 (by omega : numBits ≤ 64)).mp (not_le.mpr h)
  rw [getLocalPhysMisalignSwp, fslAssert_of hassert, fslAssert_of_not hparts]
  rfl

/-- Any other misaligned field has `bf` full bytes and is read part by part. -/
theorem misalignSwp_parts {rd : ℕ → ℕ → Except Stop ℕ} {bf : ℕ} (hal : bitOff % 8 ≠ 0)
    (h64 : numBits ≤ 64) (hbf : (bitOff % 8 + numBits) / 8 = bf + 1) :
    getLocalPhysMisalignSwp rd bitOff numBits = (do
      let v ← rd (8 * (bitOff / 8)) 8
      let w ← readPart (bf ≠ 0) (rd (8 * (1 + bitOff / 8)) (8 * bf))
      let u ← readPart ((bitOff + numBits) % 8 ≠ 0) (rd (8 * (1 + bitOff / 8 + bf)) 8)
      return (shl64 (v &&& 0xff &&& (2 ^ (8 - bitOff % 8) - 1)) (numBits - (8 - bitOff % 8)) |||
        shl64 w ((bitOff + numBits) % 8) ||| u >>> (8 - (bitOff + numBits) % 8)) &&&
          (shl64 1 numBits - 1)) := by
  have hmin : min (8 - bitOff % 8) numBits = 8 - bitOff % 8 := by omega
  have hassert : 0 < min (8 - bitOff % 8) numBits ∧ min (8 - bitOff % 8) numBits < 8 := by omega
  have hparts := (swpParts_iff (by omega) h64).mpr (show 8 ≤ bitOff % 8 + numBits by omega)
  have hbytes : bytesFullSwp numBits (8 - bitOff % 8 + (bitOff + numBits) % 8) = (bf : ℤ) := by
    rw [bytesFullSwp_of_le h64 (by omega)]
    omega
  rw [getLocalPhysMisalignSwp, fslAssert_of hassert, fslAssert_of hparts, hmin, hbytes,
    Int.toNat_natCast]
  have hpresent : readPart ((bf : ℤ) ≠ 0) (rd (8 * (1 + bitOff / 8)) (8 * bf)) =
      readPart (bf ≠ 0) (rd (8 * (1 + bitOff / 8)) (8 * bf)) := by
    unfold readPart
    simp only [ne_eq, Int.natCast_eq_zero]
  rw [hpresent]
  rfl

/-- A misaligned big-endian field of the file. -/
theorem misalignSwp_value (hal : bitOff % 8 ≠ 0) (h64 : numBits ≤ 64)
    (hfull : Full d bitOff numBits) (hshape : BeShape bitOff numBits) :
    getLocalPhysMisalignSwp (diskAligned .big d) bitOff numBits =
      .ok (beField d bitOff numBits) := by
  simp only [Full] at hfull
  rw [BeShape, if_neg hal] at hshape
  obtain ⟨bf, hbf⟩ : ∃ bf, (bitOff % 8 + numBits) / 8 = bf + 1 := by
    refine ⟨(bitOff % 8 + numBits) / 8 - 1, ?_⟩
    unfold SwapWidth at hshape
    omega
  have hswap : bf = 0 ∨ SwapWidth bf := by
    rw [hbf] at hshape
    exact hshape.imp (fun h => by omega) id
  have hlt64 : numBits < 64 := by
    unfold SwapWidth at hswap
    omega
  generalize hbr : (bitOff + numBits) % 8 = br
  have hbyte : ∀ q, 32 * ((8 * q) / 256 + 1) ≤ d.size →
      diskAligned .big d (8 * q) 8 = .ok (beField d (8 * q) 8) := by
    intro q hq
    have h := diskAligned_big_bytes (d := d) (q := q) (k := 1) (by simp only [Full]; omega)
    rwa [if_pos (show SwapWidth 1 from Or.inl rfl)] at h
  have hw : readPart (bf ≠ 0) (diskAligned .big d (8 * (1 + bitOff / 8)) (8 * bf)) =
      .ok (beField d (8 * (1 + bitOff / 8)) (8 * bf)) := by
    by_cases h0 : bf = 0
    · subst h0
      rfl
    · rw [readPart, if_pos h0, diskAligned_big_bytes (by simp only [Full]; omega),
        if_pos (hswap.resolve_left h0)]
  obtain ⟨u, hu, hval⟩ : ∃ u,
      readPart (br ≠ 0) (diskAligned .big d (8 * (1 + bitOff / 8 + bf)) 8) = .ok u ∧
        u >>> (8 - br) = beField d (8 * (1 + bitOff / 8 + bf)) br := by
    by_cases h0 : br = 0
    · rw [h0]
      exact ⟨0, rfl, rfl⟩
    · refine ⟨beField d (8 * (1 + bitOff / 8 + bf)) 8, ?_, ?_⟩
      · rw [readPart, if_pos h0, hbyte _ (by omega)]
      · refine eq_ofBits fun i => ?_
        rw [Nat.testBit_shiftRight, beField, testBit_ofBits]
        have hiff : 8 - br + i < 8 ↔ i < br := by omega
        by_cases hi : i < br
        · rw [show 8 - 1 - (8 - br + i) = br - 1 - i by omega]
          simp [hiff]
        · simp [hiff, hi]
  rw [misalignSwp_parts hal h64 hbf, hbr, hw, hu, hbyte (bitOff / 8) (by omega)]
  refine congrArg Except.ok ?_
  have hoff : ∀ i, 8 * (bitOff / 8) + (bitOff % 8 + i) = bitOff + i := by omega
  have hvbits : ∀ i, (beField d (8 * (bitOff / 8)) 8).testBit i =
      (decide (i < 8) && d.beBit (8 * (bitOff / 8) + (7 - i))) := fun i => testBit_ofBits _ _ _
  have hwbits : ∀ i, (beField d (8 * (1 + bitOff / 8)) (8 * bf)).testBit i =
      (decide (i < 8 * bf) && d.beBit (8 * (bitOff / 8) + (8 + (8 * bf - 1 - i)))) := by
    intro i
    rw [beField, testBit_ofBits, show 8 * (1 + bitOff / 8) + (8 * bf - 1 - i) =
      8 * (bitOff / 8) + (8 + (8 * bf - 1 - i)) by omega]
  have hubits : u >>> (8 - br) =
      ofBits (fun i => d.beBit (8 * (bitOff / 8) + (8 + 8 * bf + (br - 1 - i)))) br := by
    rw [hval]
    refine ofBits_congr fun i _ => ?_
    rw [show 8 * (1 + bitOff / 8 + bf) + (br - 1 - i) =
      8 * (bitOff / 8) + (8 + 8 * bf + (br - 1 - i)) by omega]
  have hjoin := joinPartsSwp (f := fun i => d.beBit (8 * (bitOff / 8) + i)) (r := bitOff % 8)
    (n := numBits) (by omega) (by omega) hlt64 rfl (by omega) (by omega) hvbits hwbits hubits
  simp only [hoff] at hjoin
  exact hjoin

theorem misalignSwp_stops (hal : bitOff % 8 ≠ 0) (h1 : 1 ≤ numBits) (h64 : numBits ≤ 64)
    (h : ¬ (Full d bitOff numBits ∧ BeShape bitOff numBits)) :
    getLocalPhysMisalignSwp (diskAligned .big d) bitOff numBits = .error .assertion := by
  rw [BeShape, if_neg hal] at h
  by_cases hin : bitOff % 8 + numBits < 8
  · exact misalignSwp_inner h1 hin
  · obtain ⟨bf, hbf⟩ : ∃ bf, (bitOff % 8 + numBits) / 8 = bf + 1 :=
      ⟨(bitOff % 8 + numBits) / 8 - 1, by omega⟩
    rw [hbf, Nat.add_sub_cancel] at h
    rw [misalignSwp_parts hal h64 hbf]
    refine bind_stops (diskAligned_ne_fault .big d _ _) fun v hv => ?_
    refine bind_stops (readPart_diskAligned_ne_fault .big d _ _) fun w hw => ?_
    refine bind_stops (readPart_diskAligned_ne_fault .big d _ _) fun u hu => ?_
    -- some part that is present lies in the last line or has a width that cannot be swapped
    exfalso
    have hswap : bf = 0 ∨ SwapWidth bf := by
      by_cases h0 : bf = 0
      · exact Or.inl h0
      · right
        by_contra hs
        rw [readPart, if_pos h0] at hw
        by_cases hf : Full d (8 * (1 + bitOff / 8)) (8 * bf)
        · rw [diskAligned_big_bytes hf, if_neg hs] at hw
          cases hw
        · rw [diskAligned_stops hf] at hw
          cases hw
    have hfull : ¬ Full d bitOff numBits := fun hf =>
      h ⟨hf, hswap.imp (fun h0 => by omega) id⟩
    simp only [Full] at hfull
    by_cases hr : (bitOff + numBits) % 8 = 0
    · by_cases h0 : bf = 0
      · rw [diskAligned_stops (by simp only [Full]; omega)] at hv
        cases hv
      · rw [readPart, if_pos h0, diskAligned_stops (by simp only [Full]; omega)] at hw
        cases hw
    · rw [readPart, if_pos hr, diskAligned_stops (by simp only [Full]; omega)] at hu
      cases hu

/-- A field of the right shape on complete lines is read most significant bit first. -/
theorem diskPhys_big (h64 : numBits ≤ 64) (hfull : Full d bitOff numBits)
    (hshape : BeShape bitOff numBits) :
    diskPhys .big d bitOff numBits = .ok (beField d bitOff numBits) := by
  unfold diskPhys
  by_cases hal : bitOff % 8 = 0
  · obtain ⟨q, rfl⟩ := Nat.dvd_of_mod_eq_zero hal
    rw [BeShape, if_pos hal] at hshape
    obtain ⟨k, rfl⟩ := Nat.dvd_of_mod_eq_zero hshape.1
    rw [Nat.mul_div_cancel_left k (by omega)] at hshape
    rw [physWith_aligned hal, diskAligned_big_bytes hfull, if_pos hshape.2]
  · rw [physWith_big hal, misalignSwp_value hal h64 hfull hshape]

/-- Every other field stops the process or is read as a little-endian one: it starts at a byte
boundary and does not fill its last byte. -/
theorem diskPhys_big_of_not (h1 : 1 ≤ numBits) (h64 : numBits ≤ 64)
    (h : ¬ (Full d bitOff numBits ∧ BeShape bitOff numBits)) :
    diskPhys .big d bitOff numBits = .error .assertion ∨
      (bitOff % 8 = 0 ∧ numBits % 8 ≠ 0 ∧
        diskPhys .big d bitOff numBits =
          .ok (ofBits (fun i => d.bit (bitOff + i) && keepsBit bitOff numBits i) numBits)) := by
  unfold diskPhys
  by_cases hal : bitOff % 8 = 0
  · rw [physWith_aligned hal]
    by_cases hfull : Full d bitOff numBits
    · by_cases hn : numBits % 8 = 0
      · left
        obtain ⟨q, rfl⟩ := Nat.dvd_of_mod_eq_zero hal
        obtain ⟨k, rfl⟩ := Nat.dvd_of_mod_eq_zero hn
        rw [BeShape, if_pos hal, Nat.mul_div_cancel_left k (by omega)] at h
        rw [diskAligned_big_bytes hfull, if_neg fun hs => h ⟨hfull, hn, hs⟩]
      · right
        have hle : cacheGet d bitOff numBits =
            .ok (ofBits (fun i => d.bit (bitOff + i) && keepsBit bitOff numBits i) numBits) := by
          rw [← diskAligned_little, show diskAligned .little d bitOff numBits =
            diskPhys .little d bitOff numBits from (physWith_aligned hal).symm,
            diskPhys_little h1 h64, if_pos hfull]
        exact ⟨hal, hn, by rw [diskAligned_big_part hn, hle]⟩
    · exact Or.inl (diskAligned_stops hfull)
  · left
    rw [physWith_big hal, misalignSwp_stops hal h1 h64 h]

theorem lt_of_diskPhys_big (h1 : 1 ≤ numBits) (h64 : numBits ≤ 64) {v : ℕ}
    (h : diskPhys .big d bitOff numBits = .ok v) : v < 2 ^ numBits := by
  by_cases hok : Full d bitOff numBits ∧ BeShape bitOff numBits
  · rw [diskPhys_big h64 hok.1 hok.2] at h
    rw [← Except.ok.inj h]
    exact beField_lt _ _ _
  · rcases diskPhys_big_of_not h1 h64 hok with hs | ⟨-, -, hv⟩
    · rw [hs] at h
      cases h
    · rw [hv] at h
      rw [← Except.ok.inj h]
      exact ofBits_lt _ _

end Pread

end Fsl
