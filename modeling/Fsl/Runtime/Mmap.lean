import Fsl.Runtime.BigEndian

/-!
# The mmap runtime

`rt-mmap/io.c` maps the file and reads a field by one load of 64 bits. Only whole blocks of 4096
bytes are mapped. This file says for which fields the two runtimes agree.
-/

namespace Fsl.Mmap

open BitNum Pread

/-- The length of the mapping, `io_blk_c * 4096`. -/
def mapLen (size : ℕ) : ℕ := size / 4096 * 4096

/-- `get_nth_64b`: a load of eight bytes faults where one of them is not mapped. -/
def getNth64b (d : Disk) (n : ℕ) : Except Stop ℕ :=
  if n + 8 ≤ mapLen d.size then .ok (ofBytes d.byte n 8) else .error .fault

/-- The common path of `__getLocalPhys`. -/
def physAligned (mode : Mode) (d : Disk) (bitOff numBits : ℕ) : Except Stop ℕ := do
  let ret ← getNth64b d (bitOff / 8)
  let ret := if numBits < 64 then ret &&& (shl64 1 numBits - 1) else ret
  match mode with
  | .big => swapBytes ret (numBits / 8)
  | .little => pure ret

/-- `__getLocalPhys`. -/
def getLocalPhys (mode : Mode) (d : Disk) (bitOff numBits : ℕ) : Except Stop ℕ :=
  physWith mode (physAligned mode d) bitOff numBits

variable {d : Disk} {mode : Mode} {bitOff numBits : ℕ}

theorem physAligned_fault (h : ¬ bitOff / 8 + 8 ≤ mapLen d.size) :
    physAligned mode d bitOff numBits = .error .fault := by
  rw [physAligned, getNth64b, if_neg h]
  rfl

/-- A mapped load gives the bits of the field, which big-endian mode then swaps. -/
theorem physAligned_mapped {p : ℕ} (h : p + 8 ≤ mapLen d.size) (h64 : numBits ≤ 64) :
    physAligned mode d (8 * p) numBits =
      match mode with
      | .big => swapBytes (ofBits (fun i => d.bit (8 * p + i)) numBits) (numBits / 8)
      | .little => .ok (ofBits (fun i => d.bit (8 * p + i)) numBits) := by
  have hdiv : 8 * p / 8 = p := by omega
  have hval : (if numBits < 64 then ofBytes d.byte p 8 &&& (shl64 1 numBits - 1)
      else ofBytes d.byte p 8) = ofBits (fun i => d.bit (8 * p + i)) numBits := by
    refine eq_ofBits fun i => ?_
    by_cases hn : numBits < 64
    · rw [if_pos hn, Nat.testBit_and, testBit_mask64 i h64, testBit_ofBytes]
      have hne : numBits ≠ 64 := by omega
      by_cases hi : i < numBits
      · have hi64 : i < 8 * 8 := by omega
        simp [hi, hi64, hne, Disk.bit]
      · simp [hi]
    · have he : numBits = 64 := by omega
      subst he
      rw [if_neg hn, testBit_ofBytes]
      rfl
  rw [physAligned, hdiv, getNth64b, if_pos h]
  show (match mode with
    | .big => swapBytes (if numBits < 64 then ofBytes d.byte p 8 &&& (shl64 1 numBits - 1)
      else ofBytes d.byte p 8) (numBits / 8)
    | .little => Except.ok (if numBits < 64 then ofBytes d.byte p 8 &&& (shl64 1 numBits - 1)
      else ofBytes d.byte p 8)) = _
  rw [hval]

/-- A mapped load lies on complete lines of the pread runtime. -/
theorem full_of_mapped {p : ℕ} (h : p + 8 ≤ mapLen d.size) (h64 : numBits ≤ 64) :
    Full d (8 * p) numBits := by
  unfold mapLen at h
  unfold Full
  omega

/-- On whole bytes that are mapped the two runtimes agree. -/
theorem physAligned_eq {p k : ℕ} (h : p + 8 ≤ mapLen d.size) (h8 : k ≤ 8) :
    physAligned mode d (8 * p) (8 * k) = diskAligned mode d (8 * p) (8 * k) := by
  have hfull := full_of_mapped h (show 8 * k ≤ 64 by omega)
  rw [physAligned_mapped h (by omega)]
  cases mode with
  | little => rw [diskAligned_little, cacheGet_bytes hfull]
  | big =>
    have hdiv : 8 * k / 8 = k := by omega
    show swapBytes _ (8 * k / 8) = _
    rw [diskAligned_big_bytes hfull, hdiv]
    by_cases hk : SwapWidth k
    · rw [if_pos hk, swapBytes_of hk (ofBits_lt _ _), bswap_ofBits]
      rfl
    · rw [if_neg hk, swapBytes_of_not _ hk]
      rfl

/-- The bytes at which `__getLocalPhys` loads for a field, as far as it gets. -/
def loads (mode : Mode) (bitOff numBits : ℕ) : List ℕ :=
  let q := bitOff / 8
  let ends := bitOff % 8 + numBits
  let bytesFull := ends / 8 - 1
  if bitOff % 8 = 0 then [q]
  else if ends < 8 then
    -- in big-endian mode the assertion comes before the first load
    match mode with
    | .little => [q]
    | .big => []
  else q :: ((if bytesFull ≠ 0 then [q + 1] else []) ++
    if ends % 8 ≠ 0 ∧ (mode = .little ∨ bytesFull = 0 ∨ SwapWidth bytesFull)
    then [q + 1 + bytesFull] else [])

/-- All loads for the field are mapped. -/
def Mapped (size : ℕ) (mode : Mode) (bitOff numBits : ℕ) : Prop :=
  ∀ p ∈ loads mode bitOff numBits, p + 8 ≤ mapLen size

theorem physAligned_byte {p : ℕ} (h : p + 8 ≤ mapLen d.size) :
    ∃ v, physAligned mode d (8 * p) 8 = .ok v := by
  rw [physAligned_mapped h (by omega)]
  cases mode with
  | little => exact ⟨_, rfl⟩
  | big => exact ⟨_, rfl⟩

theorem readPart_eq {p : Prop} [Decidable p] {x y : Except Stop ℕ} (h : p → x = y) :
    readPart p x = readPart p y := by
  unfold readPart
  split
  · next hp => exact h hp
  · rfl

/-- A misaligned read: the first byte, the full bytes and the last byte, as far as there are any. -/
def threeParts (rd : ℕ → ℕ → Except Stop ℕ) (join : ℕ → ℕ → ℕ → ℕ) (q bf br : ℕ) :
    Except Stop ℕ := do
  let v ← rd (8 * q) 8
  let w ← readPart (bf ≠ 0) (rd (8 * (1 + q)) (8 * bf))
  let u ← readPart (br ≠ 0) (rd (8 * (1 + q + bf)) 8)
  return join v w u

theorem middle_ok {q bf : ℕ} (h : bf ≠ 0 → q + 8 ≤ mapLen d.size) (h8 : bf ≤ 8)
    (hs : mode = .little ∨ bf = 0 ∨ SwapWidth bf) :
    ∃ w, readPart (bf ≠ 0) (diskAligned mode d (8 * q) (8 * bf)) = .ok w := by
  by_cases h0 : bf = 0
  · exact ⟨0, by rw [readPart, if_neg (not_not.mpr h0)]; rfl⟩
  · have hfull := full_of_mapped (h h0) (show 8 * bf ≤ 64 by omega)
    rw [readPart, if_pos h0]
    cases mode with
    | little =>
      rw [diskAligned_little, cacheGet_bytes hfull]
      exact ⟨_, rfl⟩
    | big =>
      rw [diskAligned_big_bytes hfull, if_pos ((hs.resolve_left (by simp)).resolve_left h0)]
      exact ⟨_, rfl⟩

/-- The three parts agree when all loads are mapped that are reached, and fault otherwise. -/
theorem threeParts_agree (join : ℕ → ℕ → ℕ → ℕ) (q : ℕ) {bf : ℕ} (br : ℕ) (h8 : bf ≤ 8) :
    threeParts (physAligned mode d) join q bf br =
      if q + 8 ≤ mapLen d.size ∧ (bf ≠ 0 → q + 1 + 8 ≤ mapLen d.size) ∧
        (br ≠ 0 → mode = .little ∨ bf = 0 ∨ SwapWidth bf → q + 1 + bf + 8 ≤ mapLen d.size)
      then threeParts (diskAligned mode d) join q bf br else .error .fault := by
  unfold threeParts
  by_cases hq : q + 8 ≤ mapLen d.size
  · obtain ⟨v, hv⟩ : ∃ v, physAligned mode d (8 * q) 8 = .ok v := physAligned_byte hq
    have hvd : diskAligned mode d (8 * q) 8 = .ok v := by
      rw [← hv]
      exact (physAligned_eq (k := 1) hq (by omega)).symm
    rw [hv, hvd]
    by_cases hw : bf ≠ 0 → q + 1 + 8 ≤ mapLen d.size
    · have hmap : bf ≠ 0 → 1 + q + 8 ≤ mapLen d.size := fun hne => by
        have := hw hne
        omega
      have hweq : readPart (bf ≠ 0) (physAligned mode d (8 * (1 + q)) (8 * bf)) =
          readPart (bf ≠ 0) (diskAligned mode d (8 * (1 + q)) (8 * bf)) :=
        readPart_eq fun hne => physAligned_eq (hmap hne) h8
      rw [hweq]
      by_cases hs : mode = .little ∨ bf = 0 ∨ SwapWidth bf
      · obtain ⟨w, hwd⟩ : ∃ w,
            readPart (bf ≠ 0) (diskAligned mode d (8 * (1 + q)) (8 * bf)) = .ok w :=
          middle_ok hmap h8 hs
        rw [hwd]
        by_cases hu : br ≠ 0 → q + 1 + bf + 8 ≤ mapLen d.size
        · have hueq : readPart (br ≠ 0) (physAligned mode d (8 * (1 + q + bf)) 8) =
              readPart (br ≠ 0) (diskAligned mode d (8 * (1 + q + bf)) 8) := by
            refine readPart_eq fun hne => physAligned_eq (k := 1) ?_ (by omega)
            have := hu hne
            omega
          rw [if_pos ⟨hq, hw, fun hne _ => hu hne⟩, hueq]
        · obtain ⟨hne, hout⟩ := Classical.not_imp.mp hu
          rw [if_neg fun h => hout (h.2.2 hne hs), readPart, if_pos hne,
            physAligned_fault (by omega)]
          rfl
      · rw [if_pos ⟨hq, hw, fun _ h => absurd h hs⟩]
        obtain ⟨hbig, hne, hsw⟩ : mode = .big ∧ bf ≠ 0 ∧ ¬ SwapWidth bf := by
          simp only [not_or] at hs
          refine ⟨?_, hs.2⟩
          cases mode with
          | big => rfl
          | little => exact absurd rfl hs.1
        subst hbig
        rw [readPart, if_pos hne,
          diskAligned_big_bytes (full_of_mapped (hmap hne) (by omega)), if_neg hsw]
        rfl
    · obtain ⟨hne, hout⟩ := Classical.not_imp.mp hw
      rw [if_neg fun h => hw h.2.1, readPart, if_pos hne, physAligned_fault (by omega)]
      rfl
  · rw [physAligned_fault (by omega), if_neg fun h => hq h.1]
    rfl

theorem misalign_eq_threeParts (hal : bitOff % 8 ≠ 0) (h1 : 1 ≤ numBits) :
    ∃ join, ∀ rd : ℕ → ℕ → Except Stop ℕ, getLocalPhysMisalign rd bitOff numBits =
      threeParts rd join (bitOff / 8) ((bitOff % 8 + numBits) / 8 - 1)
        (if bitOff % 8 + numBits < 8 then 0 else (bitOff % 8 + numBits) % 8) := by
  have hassert : 0 < min (8 - bitOff % 8) numBits ∧ min (8 - bitOff % 8) numBits < 8 := by omega
  have hbf : (numBits - min (8 - bitOff % 8) numBits) / 8 = (bitOff % 8 + numBits) / 8 - 1 := by
    omega
  have hbr : numBits - (8 * ((bitOff % 8 + numBits) / 8 - 1) + min (8 - bitOff % 8) numBits) =
      if bitOff % 8 + numBits < 8 then 0 else (bitOff % 8 + numBits) % 8 := by
    split <;> omega
  generalize (bitOff % 8 + numBits) / 8 - 1 = bf at hbf hbr ⊢
  generalize (if bitOff % 8 + numBits < 8 then 0 else (bitOff % 8 + numBits) % 8) = br at hbr ⊢
  refine ⟨fun v w u => ((v >>> (bitOff % 8) ||| shl64 w (min (8 - bitOff % 8) numBits)) &&&
    (shl64 1 numBits - 1)) ||| shl64 (u &&& (shl64 1 br - 1))
      (min (8 - bitOff % 8) numBits + 8 * bf), fun rd => ?_⟩
  rw [getLocalPhysMisalign, fslAssert_of hassert, hbf, hbr]
  rfl

theorem misalignSwp_eq_threeParts (hal : bitOff % 8 ≠ 0) (h64 : numBits ≤ 64)
    (h8 : 8 ≤ bitOff % 8 + numBits) :
    ∃ join, ∀ rd : ℕ → ℕ → Except Stop ℕ, getLocalPhysMisalignSwp rd bitOff numBits =
      threeParts rd join (bitOff / 8) ((bitOff % 8 + numBits) / 8 - 1)
        ((bitOff % 8 + numBits) % 8) := by
  have hbf : (bitOff % 8 + numBits) / 8 = (bitOff % 8 + numBits) / 8 - 1 + 1 := by omega
  have hbr : (bitOff + numBits) % 8 = (bitOff % 8 + numBits) % 8 := by omega
  rw [← hbr]
  exact ⟨_, fun rd => misalignSwp_parts hal h64 hbf⟩

/-- A misaligned field is read as the pread runtime reads it, or faults. -/
theorem getLocalPhys_misaligned (hal : bitOff % 8 ≠ 0) (h1 : 1 ≤ numBits) (h64 : numBits ≤ 64)
    [Decidable (Mapped d.size mode bitOff numBits)] :
    getLocalPhys mode d bitOff numBits =
      if Mapped d.size mode bitOff numBits then diskPhys mode d bitOff numBits
      else .error .fault := by
  unfold getLocalPhys diskPhys
  by_cases h8 : bitOff % 8 + numBits < 8
  · cases mode with
    | big =>
      have hmap : Mapped d.size .big bitOff numBits := by
        intro p hp
        simp [loads, hal, h8] at hp
      rw [if_pos hmap, physWith_big hal, physWith_big hal, misalignSwp_inner h1 h8,
        misalignSwp_inner h1 h8]
    | little =>
      obtain ⟨join, hjoin⟩ := misalign_eq_threeParts hal h1
      have hbf : (bitOff % 8 + numBits) / 8 - 1 = 0 := by omega
      rw [physWith_little hal, physWith_little hal, hjoin, hjoin, threeParts_agree _ _ _ (by omega)]
      refine if_congr ?_ rfl rfl
      simp [Mapped, loads, hal, h8, hbf]
  · have hle : (bitOff % 8 + numBits) / 8 - 1 ≤ 8 := by omega
    have hmap : Mapped d.size mode bitOff numBits ↔ bitOff / 8 + 8 ≤ mapLen d.size ∧
        ((bitOff % 8 + numBits) / 8 - 1 ≠ 0 → bitOff / 8 + 1 + 8 ≤ mapLen d.size) ∧
        ((bitOff % 8 + numBits) % 8 ≠ 0 → mode = .little ∨ (bitOff % 8 + numBits) / 8 - 1 = 0 ∨
          SwapWidth ((bitOff % 8 + numBits) / 8 - 1) →
            bitOff / 8 + 1 + ((bitOff % 8 + numBits) / 8 - 1) + 8 ≤ mapLen d.size) := by
      generalize hbf : (bitOff % 8 + numBits) / 8 - 1 = bf
      simp only [Mapped, loads, if_neg hal, if_neg h8, hbf, List.mem_cons, List.mem_append,
        List.mem_ite_nil_right, List.not_mem_nil, or_false, forall_eq_or_imp]
      refine and_congr_right fun _ => ⟨fun h => ⟨fun hne => h _ (Or.inl ⟨hne, rfl⟩),
        fun hne hs => h _ (Or.inr ⟨⟨hne, hs⟩, rfl⟩)⟩, ?_⟩
      rintro ⟨h1, h2⟩ p (⟨hne, rfl⟩ | ⟨⟨hne, hs⟩, rfl⟩)
      · exact h1 hne
      · exact h2 hne hs
    cases mode with
    | big =>
      obtain ⟨join, hjoin⟩ := misalignSwp_eq_threeParts hal h64 (not_lt.mp h8)
      rw [physWith_big hal, physWith_big hal, hjoin, hjoin, threeParts_agree _ _ _ hle]
      exact if_congr hmap.symm rfl rfl
    | little =>
      obtain ⟨join, hjoin⟩ := misalign_eq_threeParts hal h1
      rw [physWith_little hal, physWith_little hal, hjoin, hjoin, if_neg h8,
        threeParts_agree _ _ _ hle]
      exact if_congr hmap.symm rfl rfl

/-! ## Fields at a byte boundary -/

/-- A partial field of the pread runtime at a byte boundary. -/
theorem diskAligned_field {p : ℕ} (hn : numBits % 8 ≠ 0) (hfull : Full d (8 * p) numBits) :
    diskAligned mode d (8 * p) numBits = .ok (ofBits (fun i => d.bit (8 * p + i))
      (if 8 * p / 256 = (8 * p + numBits - 1) / 256 then numBits else 8 * (numBits / 8))) := by
  have hget : diskAligned mode d (8 * p) numBits = cacheGet d (8 * p) numBits := by
    cases mode with
    | little => exact diskAligned_little d _ _
    | big => exact diskAligned_big_part hn
  rw [hget, cacheGet, fslAssert_of ⟨hfull, Nat.mul_mod_right 8 p⟩]
  rfl

/-- The partial fields on which the runtimes agree: inside one line of the pread runtime, and not
changed by the byte swap of the mmap runtime. -/
def PartialOk (mode : Mode) (bitOff numBits : ℕ) : Prop :=
  bitOff / 256 = (bitOff + numBits - 1) / 256 ∧ (mode = .little ∨ numBits / 8 = 1)

theorem aligned_agree {p : ℕ} (h64 : numBits ≤ 64) (hmap : p + 8 ≤ mapLen d.size)
    (h : numBits % 8 = 0 ∨ PartialOk mode (8 * p) numBits) :
    physAligned mode d (8 * p) numBits = diskAligned mode d (8 * p) numBits := by
  by_cases hn : numBits % 8 = 0
  · obtain ⟨k, rfl⟩ := Nat.dvd_of_mod_eq_zero hn
    exact physAligned_eq hmap (by omega)
  · obtain ⟨hline, hmode⟩ := h.resolve_left hn
    rw [diskAligned_field hn (full_of_mapped hmap h64), if_pos hline, physAligned_mapped hmap h64]
    cases mode with
    | little => rfl
    | big =>
      have h1 : numBits / 8 = 1 := hmode.resolve_left (by simp)
      simp only [h1]
      rfl

/-- Wherever the runtimes agree on all contents, the field is one of these. -/
theorem aligned_of_agree {p size : ℕ} (h64 : numBits ≤ 64) (hsz : size < 2 ^ 61)
    (hmap : p + 8 ≤ mapLen size)
    (h : ∀ d : Disk, d.size = size →
      physAligned mode d (8 * p) numBits = diskAligned mode d (8 * p) numBits) :
    numBits % 8 = 0 ∨ PartialOk mode (8 * p) numBits := by
  by_contra hnot
  obtain ⟨hn, hpart⟩ := not_or.mp hnot
  have hsize : p + 8 ≤ size := by
    unfold mapLen at hmap
    omega
  -- the join of two lines loses the bits of the last byte: seen on a disk of ones
  have hcross : (mode = .little ∨ numBits / 8 = 1) →
      8 * p / 256 = (8 * p + numBits - 1) / 256 := by
    intro hmode
    by_contra hline
    obtain ⟨d, hds, hbyte⟩ := Disk.exists_of_fn (fun _ => 0xff) hsz
    have hd := h d hds
    rw [← hds] at hmap
    rw [diskAligned_field hn (full_of_mapped hmap h64), if_neg hline,
      physAligned_mapped hmap h64] at hd
    have hval : ofBits (fun i => d.bit (8 * p + i)) numBits =
        ofBits (fun i => d.bit (8 * p + i)) (8 * (numBits / 8)) := by
      cases mode with
      | little => exact Except.ok.inj hd
      | big =>
        have h1 : numBits / 8 = 1 := hmode.resolve_left (by simp)
        simp only [h1] at hd ⊢
        exact Except.ok.inj hd
    have hbit := congrArg (fun x => x.testBit (8 * (numBits / 8))) hval
    have hlt : 8 * (numBits / 8) < numBits := by omega
    have hone : d.bit (8 * p + 8 * (numBits / 8)) = true := by
      have hdiv : (8 * p + 8 * (numBits / 8)) / 8 = p + numBits / 8 := by omega
      have hmod : (8 * p + 8 * (numBits / 8)) % 8 = 0 := by omega
      rw [Disk.bit, bitOf, hdiv, hmod, hbyte _ (by omega)]
      decide
    simp [testBit_ofBits, hlt, hone] at hbit
  cases mode with
  | little => exact hpart ⟨hcross (Or.inl rfl), Or.inl rfl⟩
  | big =>
    by_cases h1 : numBits / 8 = 1
    · exact hpart ⟨hcross (Or.inr h1), Or.inr h1⟩
    · -- the byte swap moves or refuses a lone first bit
      obtain ⟨d, hds, hbyte⟩ := Disk.exists_of_fn (fun j => if j = p then 1 else 0) hsz
      have hd := h d hds
      rw [← hds] at hmap
      rw [diskAligned_field hn (full_of_mapped hmap h64), physAligned_mapped hmap h64] at hd
      change swapBytes _ (numBits / 8) = _ at hd
      by_cases hs : SwapWidth (numBits / 8)
      · have hk : 2 ≤ numBits / 8 := by
          unfold SwapWidth at hs
          omega
        have hlone : ∀ i, 0 < i → i < 64 → d.bit (8 * p + i) = false := by
          intro i hi hi64
          rw [Disk.bit, bitOf, hbyte _ (by omega)]
          by_cases hj : (8 * p + i) / 8 = p
          · rw [if_pos hj]
            exact Nat.testBit_lt_two_pow (Nat.one_lt_two_pow (by omega))
          · rw [if_neg hj]
            exact Nat.zero_testBit _
        have hfirst : d.bit (8 * p + 0) = true := by
          have hdiv : (8 * p + 0) / 8 = p := by omega
          have hmod : (8 * p + 0) % 8 = 0 := by omega
          rw [Disk.bit, bitOf, hdiv, hmod, hbyte _ (by omega), if_pos rfl]
          decide
        have hsmall : ofBits (fun i => d.bit (8 * p + i)) numBits =
            ofBits (fun i => d.bit (8 * p + i)) (8 * (numBits / 8)) := by
          refine eq_ofBits fun i => ?_
          rw [testBit_ofBits]
          by_cases hi : i < 8 * (numBits / 8)
          · have hin : i < numBits := by omega
            simp [hi, hin]
          · by_cases hin : i < numBits
            · rw [hlone i (by omega) (by omega)]
              simp
            · simp [hi, hin]
        rw [hsmall, swapBytes_of hs (ofBits_lt _ _)] at hd
        have hwidth : 0 < (if 8 * p / 256 = (8 * p + numBits - 1) / 256 then numBits
            else 8 * (numBits / 8)) := by
          split <;> omega
        have hleft : (bswap (numBits / 8)
            (ofBits (fun i => d.bit (8 * p + i)) (8 * (numBits / 8)))).testBit 0 = false := by
          have hidx : 8 * (numBits / 8 - 1 - 0 / 8) + 0 % 8 = 8 * (numBits / 8 - 1) := by omega
          rw [bswap, testBit_ofBits, testBit_ofBits, hidx, hlone _ (by omega) (by omega),
            Bool.and_false, Bool.and_false]
        rw [Except.ok.inj hd, testBit_ofBits, hfirst, decide_eq_true hwidth] at hleft
        cases hleft
      · rw [swapBytes_of_not _ hs] at hd
        cases hd

/-! ## The two runtimes -/

theorem diskPhys_ne_fault (h1 : 1 ≤ numBits) (h64 : numBits ≤ 64) :
    diskPhys mode d bitOff numBits ≠ .error .fault := by
  cases mode with
  | little =>
    rw [diskPhys_little h1 h64]
    split <;> simp
  | big =>
    by_cases hok : Full d bitOff numBits ∧ BeShape bitOff numBits
    · rw [diskPhys_big h64 hok.1 hok.2]
      simp
    · rcases diskPhys_big_of_not h1 h64 hok with hs | ⟨-, -, hv⟩
      · rw [hs]
        simp
      · rw [hv]
        simp

/-- From the state `io` of the pread runtime, the two runtimes return the same value for a field
of its file, or both stop on an assertion. -/
def Agree (mode : Mode) (bitOff numBits : ℕ) (io : Io) : Prop :=
  (∃ v io', Pread.getLocalPhys mode bitOff numBits io = .ok (v, io') ∧
    getLocalPhys mode io.disk bitOff numBits = .ok v) ∨
  (Pread.getLocalPhys mode bitOff numBits io = .error .assertion ∧
    getLocalPhys mode io.disk bitOff numBits = .error .assertion)

theorem agree_iff {io : Io} (hr : io.Reachable) (h1 : 1 ≤ numBits) (h64 : numBits ≤ 64)
    (hoff : bitOff < 2 ^ 64) :
    Agree mode bitOff numBits io ↔
      getLocalPhys mode io.disk bitOff numBits = diskPhys mode io.disk bitOff numBits := by
  have href : Refines (Over io.disk) Eq (Pread.getLocalPhys mode bitOff numBits)
      (diskPhys mode io.disk bitOff numBits) := getLocalPhys_refines h1 h64 hoff
  have hover : Over io.disk io := ⟨rfl, hr.coherent⟩
  constructor
  · rintro (⟨v, io', hp, hm⟩ | ⟨hp, hm⟩)
    · rw [hm, (href.exists_run_iff hover v).mp ⟨io', hp⟩]
    · rw [hm, (href.run_error_iff hover _).mp hp]
  · intro heq
    cases hd : diskPhys mode io.disk bitOff numBits with
    | ok v =>
      obtain ⟨io', hp⟩ := (href.exists_run_iff hover v).mpr hd
      exact Or.inl ⟨v, io', hp, heq.trans hd⟩
    | error e =>
      cases e with
      | assertion => exact Or.inr ⟨(href.run_error_iff hover _).mpr hd, heq.trans hd⟩
      | fault => exact absurd hd (diskPhys_ne_fault h1 h64)

/-- The runtimes agree on a field, whatever the file holds and from every reachable cache, exactly
when every load of the mmap runtime is mapped and a field that starts at a byte boundary consists
of whole bytes, or lies in one cache line and is not changed by a byte swap. -/
theorem mmap_pread_agree_iff {size : ℕ} (h1 : 1 ≤ numBits) (h64 : numBits ≤ 64)
    (hin : bitOff + 64 ≤ 8 * size) (hsz : size < 2 ^ 61) :
    (∀ io : Io, io.Reachable → io.disk.size = size → Agree mode bitOff numBits io) ↔
      Mapped size mode bitOff numBits ∧
        (bitOff % 8 = 0 → numBits % 8 = 0 ∨ PartialOk mode bitOff numBits) := by
  have hall : (∀ io : Io, io.Reachable → io.disk.size = size → Agree mode bitOff numBits io) ↔
      ∀ d : Disk, d.size = size →
        getLocalPhys mode d bitOff numBits = diskPhys mode d bitOff numBits := by
    constructor
    · intro h d hd
      have hr := reachable_init d fun _ _ => 0
      exact (agree_iff hr h1 h64 (by omega)).mp (h _ hr hd)
    · intro h io hr hd
      exact (agree_iff hr h1 h64 (by omega)).mpr (h io.disk hd)
  rw [hall]
  by_cases hal : bitOff % 8 = 0
  · obtain ⟨p, rfl⟩ := Nat.dvd_of_mod_eq_zero hal
    have hdiv : 8 * p / 8 = p := by omega
    have hmapped : Mapped size mode (8 * p) numBits ↔ p + 8 ≤ mapLen size := by
      simp [Mapped, loads, hdiv]
    simp only [getLocalPhys, diskPhys, physWith_aligned hal, hmapped, hal, true_implies]
    constructor
    · intro h
      have hmap : p + 8 ≤ mapLen size := by
        by_contra hout
        obtain ⟨d, hds, -⟩ := Disk.exists_of_fn (fun _ => 0) hsz
        have hd := h d hds
        rw [physAligned_fault (by rw [hds, hdiv]; exact hout)] at hd
        exact diskAligned_ne_fault _ _ _ _ hd.symm
      exact ⟨hmap, aligned_of_agree h64 hsz hmap h⟩
    · rintro ⟨hmap, hok⟩ d rfl
      exact aligned_agree h64 hmap hok
  · simp only [hal, false_implies, and_true]
    classical
    constructor
    · intro h
      by_contra hout
      obtain ⟨d, hds, -⟩ := Disk.exists_of_fn (fun _ => 0) hsz
      have hd := h d hds
      rw [getLocalPhys_misaligned hal h1 h64, hds, if_neg hout] at hd
      exact diskPhys_ne_fault h1 h64 hd.symm
    · rintro hmap d rfl
      rw [getLocalPhys_misaligned hal h1 h64, if_pos hmap]

/-- A 32-bit field in the first block of a disk of two blocks. -/
theorem mmap_pread_agree_word :
    ∃ io : Io, io.Reachable ∧ io.disk.size = 8192 ∧ Agree .big 32 32 io := by
  have hall : ∀ io : Io, io.Reachable → io.disk.size = 8192 → Agree .big 32 32 io :=
    (mmap_pread_agree_iff (by decide) (by decide) (by decide) (by norm_num)).mpr
      ⟨by unfold Mapped; decide, fun _ => Or.inl rfl⟩
  have hr := reachable_init (Disk.ofFn 8192 (fun i => UInt8.ofNat i) (by norm_num)) fun _ _ => 0
  exact ⟨_, hr, rfl, hall _ hr rfl⟩

/-- The 12 bits at byte 31 of a disk of one block: the pread runtime loses the bits that lie in
the next cache line, the mmap runtime does not. -/
theorem mmap_pread_not_agree :
    ¬ ∀ (io : Io) (mode : Mode) (bitOff numBits : ℕ), io.Reachable → 1 ≤ numBits → numBits ≤ 64 →
      bitOff + 64 ≤ 8 * io.disk.size → Agree mode bitOff numBits io := by
  intro h
  have hall : ∀ d : Disk, d.size = 4096 →
      physAligned .little d (8 * 31) 12 = diskAligned .little d (8 * 31) 12 := by
    intro d hds
    have hr := reachable_init d fun _ _ => 0
    have hagree := h _ .little (8 * 31) 12 hr (by decide) (by decide)
      (show 8 * 31 + 64 ≤ 8 * d.size by omega)
    have heq := (agree_iff hr (by decide) (by decide) (by decide)).mp hagree
    rwa [getLocalPhys, diskPhys, physWith_aligned rfl, physWith_aligned rfl] at heq
  rcases aligned_of_agree (by decide) (by norm_num) (by decide) hall with hn | ⟨hline, -⟩
  · exact absurd hn (by decide)
  · exact absurd hline (by decide)

end Fsl.Mmap
