import Fsl.Runtime.PhysRead

/-!
# Little-endian fields

What the pread runtime returns for a little-endian field, and when that is the number of the bits
of the field.
-/

namespace Fsl.Pread

open BitNum

variable {d : Disk} {bitOff numBits : ℕ}

theorem readPart_bytes {p : Prop} [Decidable p] {q k : ℕ} (hk : k ≠ 0 ↔ p)
    (hfull : p → Full d (8 * q) (8 * k)) :
    readPart p (cacheGet d (8 * q) (8 * k)) =
      .ok (ofBits (fun i => d.bit (8 * q + i)) (8 * k)) := by
  by_cases hp : p
  · rw [readPart, if_pos hp, cacheGet_bytes (hfull hp)]
  · have h0 : k = 0 := by
      by_contra h
      exact hp (hk.mp h)
    subst h0
    rw [readPart, if_neg hp]
    rfl

/-- The bits of a misaligned field, put together from its left bits, its full bytes and its right
bits. The mask before the last part drops the others of a 64-bit field. -/
theorem joinParts {r n bl bf br v w u : ℕ} {f : ℕ → Bool} (hr : 0 < r) (hr8 : r < 8)
    (h64 : n ≤ 64) (hbl : bl = min (8 - r) n) (hbf : bf = (n - bl) / 8)
    (hbr : br = n - (8 * bf + bl)) (hv : ∀ i, v.testBit i = (decide (i < 8) && f i))
    (hw : ∀ i, w.testBit i = (decide (i < 8 * bf) && f (8 + i)))
    (hu : ∀ i, i < br → u.testBit i = f (8 + 8 * bf + i)) :
    ((v >>> r ||| shl64 w bl) &&& (shl64 1 n - 1)) |||
        shl64 (u &&& (shl64 1 br - 1)) (bl + 8 * bf) =
      ofBits (fun i => f (r + i) && decide (n ≠ 64 ∨ 64 - r ≤ i)) n := by
  refine eq_ofBits fun i => ?_
  have hbl64 : bl < 64 := by omega
  have hsum64 : bl + 8 * bf < 64 := by omega
  rw [Nat.testBit_or, Nat.testBit_and, Nat.testBit_or, testBit_mask64 i h64, testBit_shl64 _ _ hbl64,
    testBit_shl64 _ _ hsum64, Nat.testBit_and, testBit_mask64 _ (by omega), Nat.testBit_shiftRight,
    hv, hw]
  by_cases hin : i < n
  · have hi64 : i < 64 := by omega
    by_cases h1 : i < bl
    · have h2 : r + i < 8 := by omega
      have h3 : ¬ bl ≤ i := by omega
      have h4 : ¬ bl + 8 * bf ≤ i := by omega
      have h5 : ¬ 64 - r ≤ i := by omega
      by_cases hn : n = 64 <;> simp [hin, h2, h3, h4, h5, hn]
    · have h3 : bl ≤ i := by omega
      have h2 : ¬ r + i < 8 := by omega
      by_cases h6 : i < bl + 8 * bf
      · have h4 : ¬ bl + 8 * bf ≤ i := by omega
        have h5 : ¬ 64 - r ≤ i := by omega
        have h7 : i - bl < 8 * bf := by omega
        have h8 : 8 + (i - bl) = r + i := by omega
        by_cases hn : n = 64 <;> simp [hin, hi64, h2, h3, h4, h5, h7, h8, hn]
      · have h4 : bl + 8 * bf ≤ i := by omega
        have h7 : ¬ i - bl < 8 * bf := by omega
        have h8 : i - (bl + 8 * bf) < br := by omega
        have h9 : 8 + 8 * bf + (i - (bl + 8 * bf)) = r + i := by omega
        have hbr64 : br ≠ 64 := by omega
        rw [hu _ h8, h9]
        by_cases hn : n = 64
        · have h5 : 64 - r ≤ i := by omega
          simp [hi64, h2, h4, h5, h7, h8, hn, hbr64]
        · simp [hin, hi64, h2, h4, h7, h8, hn, hbr64]
  · have h8 : ¬ i - (bl + 8 * bf) < br := by omega
    simp [hin, h8]

/-- A misaligned field of the file. -/
theorem misalign_value (hal : bitOff % 8 ≠ 0) (h1 : 1 ≤ numBits) (h64 : numBits ≤ 64)
    (hfull : Full d bitOff numBits) :
    getLocalPhysMisalign (diskAligned .little d) bitOff numBits =
      .ok (ofBits (fun i => d.bit (bitOff + i) &&
        decide (numBits ≠ 64 ∨ 64 - bitOff % 8 ≤ i)) numBits) := by
  simp only [Full] at hfull
  have hrd : diskAligned .little d = cacheGet d := by
    funext a k
    exact diskAligned_little d a k
  generalize hbl : min (8 - bitOff % 8) numBits = bl
  generalize hbf : (numBits - bl) / 8 = bf
  generalize hbr : numBits - (8 * bf + bl) = br
  have hv : cacheGet d (8 * (bitOff / 8)) 8 =
      .ok (ofBits (fun i => d.bit (8 * (bitOff / 8) + i)) 8) := by
    refine cacheGet_bytes (k := 1) ?_
    simp only [Full]
    omega
  have hw : readPart (bf ≠ 0) (cacheGet d (8 * (1 + bitOff / 8)) (8 * bf)) =
      .ok (ofBits (fun i => d.bit (8 * (1 + bitOff / 8) + i)) (8 * bf)) := by
    refine readPart_bytes Iff.rfl fun hne => ?_
    simp only [Full]
    omega
  obtain ⟨u, hu, hbits⟩ : ∃ u,
      readPart (br ≠ 0) (cacheGet d (8 * (1 + bitOff / 8 + bf)) 8) = .ok u ∧
        ∀ i, i < br → u.testBit i = d.bit (8 * (1 + bitOff / 8 + bf) + i) := by
    by_cases h0 : br = 0
    · refine ⟨0, ?_, fun i hi => by omega⟩
      rw [readPart, if_neg (not_not.mpr h0)]
      rfl
    · refine ⟨ofBits (fun i => d.bit (8 * (1 + bitOff / 8 + bf) + i)) (8 * 1), ?_, fun i hi => ?_⟩
      · rw [readPart, if_pos h0]
        refine cacheGet_bytes (k := 1) ?_
        simp only [Full]
        omega
      · rw [testBit_ofBits]
        have hi8 : i < 8 * 1 := by omega
        simp [hi8]
  have hrun : getLocalPhysMisalign (diskAligned .little d) bitOff numBits =
      .ok (((ofBits (fun i => d.bit (8 * (bitOff / 8) + i)) 8 >>> (bitOff % 8) |||
        shl64 (ofBits (fun i => d.bit (8 * (1 + bitOff / 8) + i)) (8 * bf)) bl) &&&
          (shl64 1 numBits - 1)) ||| shl64 (u &&& (shl64 1 br - 1)) (bl + 8 * bf)) := by
    have hassert : 0 < bl ∧ bl < 8 := by omega
    simp only [getLocalPhysMisalign, hrd, hbl, hbf, hbr, fslAssert_of hassert, hv, hw, hu]
    rfl
  have hoff : ∀ i, 8 * (bitOff / 8) + (bitOff % 8 + i) = bitOff + i := by omega
  rw [hrun, joinParts (f := fun i => d.bit (8 * (bitOff / 8) + i)) (by omega) (by omega) h64
    hbl.symm hbf.symm hbr.symm (fun i => testBit_ofBits _ _ _) (fun i => ?_) fun i hi => ?_]
  · simp only [hoff]
  · rw [testBit_ofBits, show 8 * (1 + bitOff / 8) + i = 8 * (bitOff / 8) + (8 + i) by omega]
  · rw [hbits i hi, show 8 * (1 + bitOff / 8 + bf) + i = 8 * (bitOff / 8) + (8 + 8 * bf + i) by
      omega]

theorem readPart_ne_fault {p : Prop} [Decidable p] (d : Disk) (a k : ℕ) :
    readPart p (cacheGet d a k) ≠ .error .fault := by
  unfold readPart
  split
  · exact cacheGet_ne_fault d a k
  · intro h
    cases h

theorem misalign_stops (hal : bitOff % 8 ≠ 0) (h1 : 1 ≤ numBits)
    (hfull : ¬ Full d bitOff numBits) :
    getLocalPhysMisalign (diskAligned .little d) bitOff numBits = .error .assertion := by
  simp only [Full] at hfull
  have hrd : diskAligned .little d = cacheGet d := by
    funext a k
    exact diskAligned_little d a k
  rw [getLocalPhysMisalign, hrd]
  generalize hbl : min (8 - bitOff % 8) numBits = bl
  generalize hbf : (numBits - bl) / 8 = bf
  generalize hbr : numBits - (8 * bf + bl) = br
  have hassert : 0 < bl ∧ bl < 8 := by omega
  simp only [fslAssert_of hassert]
  refine bind_stops (x := Except.ok ()) (by simp) fun _ _ => ?_
  refine bind_stops (cacheGet_ne_fault d _ _) fun v hv => ?_
  refine bind_stops (readPart_ne_fault d _ _) fun w hw => ?_
  refine bind_stops (readPart_ne_fault d _ _) fun u hu => ?_
  -- the last part that is present lies in the last line
  exfalso
  by_cases hr : br = 0
  · by_cases hf : bf = 0
    · rw [cacheGet_stops (by simp only [Full]; omega)] at hv
      cases hv
    · rw [readPart, if_pos hf, cacheGet_stops (by simp only [Full]; omega)] at hw
      cases hw
  · rw [readPart, if_pos hr, cacheGet_stops (by simp only [Full]; omega)] at hu
    cases hu

/-- The bits of a little-endian field that `__getLocalPhys` keeps: an aligned field that crosses
a line loses the bits after its last whole byte, and a misaligned field of 64 bits keeps only
those of its last byte. -/
def keepsBit (bitOff numBits i : ℕ) : Bool :=
  if bitOff % 8 = 0 then decide (bitOff / 256 = (bitOff + numBits - 1) / 256 ∨ i < 8 * (numBits / 8))
  else decide (numBits ≠ 64 ∨ 64 - bitOff % 8 ≤ i)

/-- `__getLocalPhys` in little-endian mode over the file `d`, for every field. -/
theorem diskPhys_little (h1 : 1 ≤ numBits) (h64 : numBits ≤ 64) :
    diskPhys .little d bitOff numBits =
      if Full d bitOff numBits
      then .ok (ofBits (fun i => d.bit (bitOff + i) && keepsBit bitOff numBits i) numBits)
      else .error .assertion := by
  unfold diskPhys
  by_cases hal : bitOff % 8 = 0
  · rw [physWith_aligned hal, diskAligned_little]
    by_cases hfull : Full d bitOff numBits
    · rw [if_pos hfull, cacheGet, fslAssert_of ⟨hfull, hal⟩]
      refine congrArg Except.ok (eq_ofBits fun i => ?_)
      rw [testBit_ofBits, keepsBit, if_pos hal]
      by_cases hsame : bitOff / 256 = (bitOff + numBits - 1) / 256
      · simp [hsame]
      · by_cases hi : i < 8 * (numBits / 8)
        · have hin : i < numBits := by omega
          simp [hsame, hi, hin]
        · simp [hsame, hi]
    · rw [if_neg hfull, cacheGet_stops hfull]
  · rw [physWith_little hal]
    by_cases hfull : Full d bitOff numBits
    · rw [if_pos hfull, misalign_value hal h1 h64 hfull]
      simp only [keepsBit, if_neg hal]
    · rw [if_neg hfull, misalign_stops hal h1 hfull]

theorem diskPhys_little_eq_iff (h1 : 1 ≤ numBits) (h64 : numBits ≤ 64) :
    diskPhys .little d bitOff numBits = .ok (ofBits (fun i => d.bit (bitOff + i)) numBits) ↔
      Full d bitOff numBits ∧
        ∀ i, i < numBits → keepsBit bitOff numBits i = false → d.bit (bitOff + i) = false := by
  rw [diskPhys_little h1 h64]
  by_cases hfull : Full d bitOff numBits
  · rw [if_pos hfull]
    constructor
    · intro h
      refine ⟨hfull, fun i hi hk => ?_⟩
      have hbit := ofBits_inj (Except.ok.inj h) hi
      rw [hk, Bool.and_false] at hbit
      exact hbit.symm
    · rintro ⟨-, hzero⟩
      refine congrArg Except.ok (ofBits_congr fun i hi => ?_)
      cases hk : keepsBit bitOff numBits i with
      | true => rw [Bool.and_true]
      | false => rw [hzero i hi hk, Bool.and_false]
  · rw [if_neg hfull]
    simp [hfull]

/-- A little-endian read is exact precisely where the file holds the last line of the field, an
aligned field that crosses a line has only zeros after its last whole byte, and a misaligned
field of 64 bits has only zeros before its last byte. -/
theorem getLocalPhys_little_exact_iff {io : Io} (hr : io.Reachable) (h1 : 1 ≤ numBits)
    (h64 : numBits ≤ 64) (hin : bitOff + numBits ≤ 8 * io.disk.size) :
    (∃ io', getLocalPhys .little bitOff numBits io =
        .ok (ofBits (fun i => io.disk.bit (bitOff + i)) numBits, io')) ↔
      32 * ((bitOff + numBits - 1) / 256 + 1) ≤ io.disk.size ∧
      (bitOff % 8 = 0 → bitOff / 256 ≠ (bitOff + numBits - 1) / 256 →
        ∀ i, 8 * (numBits / 8) ≤ i → i < numBits → io.disk.bit (bitOff + i) = false) ∧
      (bitOff % 8 ≠ 0 → numBits = 64 →
        ∀ i, i < 64 - bitOff % 8 → io.disk.bit (bitOff + i) = false) := by
  have hsize := io.disk.size_lt
  have href : Refines (Over io.disk) Eq (getLocalPhys .little bitOff numBits)
      (diskPhys .little io.disk bitOff numBits) := getLocalPhys_refines h1 h64 (by omega)
  rw [href.exists_run_iff ⟨rfl, hr.coherent⟩, diskPhys_little_eq_iff h1 h64, Full]
  refine and_congr_right fun _ => ?_
  by_cases hal : bitOff % 8 = 0
  · simp only [keepsBit, hal, if_true, decide_eq_false_iff_not, not_or, not_lt, ne_eq,
      not_true_eq_false, false_implies, and_true, true_implies]
    exact ⟨fun h hne i hle hi => h i hi ⟨hne, hle⟩, fun h i hi hk => h hk.1 i hk.2 hi⟩
  · simp only [keepsBit, hal, if_false, decide_eq_false_iff_not, not_or, not_le, ne_eq,
      not_false_eq_true, false_implies, true_and, true_implies, not_not]
    exact ⟨fun h hn i hi => h i (by omega) ⟨hn, hi⟩, fun h i _ hk => h hk.1 i hk.2⟩

theorem onesDisk_size : 64 < 2 ^ 61 := by norm_num

/-- Two cache lines of ones. -/
def onesDisk : Disk := Disk.ofFn 64 (fun _ => 0xff) onesDisk_size

/-- On a disk of ones every aligned field inside a line reads exactly. -/
theorem getLocalPhys_little_exact_byte :
    ∃ io', getLocalPhys .little 248 8 ⟨onesDisk, ioCacheInit fun _ _ => 0⟩ =
      .ok (ofBits (fun i => onesDisk.bit (248 + i)) 8, io') := by
  refine (getLocalPhys_little_exact_iff (reachable_init onesDisk _) (by decide) (by decide)
    (by decide)).mpr ⟨by decide, ?_, ?_⟩
  · intro _ hne
    exact absurd rfl hne
  · intro hal
    exact absurd rfl hal

/-- A 12-bit entry that starts in the last byte of a line comes back without its high bits. -/
theorem getLocalPhys_little_not_exact :
    ¬ ∀ (io : Io) (bitOff numBits : ℕ), io.Reachable → 1 ≤ numBits → numBits ≤ 64 →
      bitOff + numBits ≤ 8 * io.disk.size →
        ∃ io', getLocalPhys .little bitOff numBits io =
          .ok (ofBits (fun i => io.disk.bit (bitOff + i)) numBits, io') := by
  intro h
  have hex := h ⟨onesDisk, ioCacheInit fun _ _ => 0⟩ 248 12 (reachable_init onesDisk _)
    (by decide) (by decide) (by decide)
  have href : Refines (Over onesDisk) Eq (getLocalPhys .little 248 12)
      (diskPhys .little onesDisk 248 12) :=
    getLocalPhys_refines (by decide) (by decide) (by decide)
  rw [href.exists_run_iff ⟨rfl, (reachable_init onesDisk _).coherent⟩,
    diskPhys_little_eq_iff (by decide) (by decide)] at hex
  have hbit : onesDisk.bit (248 + 8) = false := hex.2 8 (by decide) (by decide)
  revert hbit
  decide

end Fsl.Pread
