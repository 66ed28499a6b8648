import Fsl.Lib.DirectMapped
import Fsl.Runtime.Disk

/-!
# The line cache of the pread runtime

`rt-pread/cache.c`: a direct-mapped cache of `FSL_IO_CACHE_ENTS = 512` lines of
`FSL_IO_CACHE_BYTES = 32` bytes (256 bits). The hit and miss counters and the callbacks only
observe a read and are left out. Offsets and widths are naturals: no disk reaches the last line of
the 64-bit address space, so that a range that would wrap stops here as it does there.
-/

namespace Fsl.Pread

open DirectMapped BitNum

/-- `ce_data`: the bytes of one line. -/
abbrev Line := Fin 32 → UInt8

/-- `~0`, the `ce_addr` of an entry that holds no line. -/
def invalidAddr : ℕ := 2 ^ 64 - 1

/-- `struct fsl_io_cache`. `after i` is the memory right after the data of entry `i`: the wide
loads of `fsl_io_cache_get` reach a few bytes of it and mask them off. -/
structure IoCache where
  ents : Fin 512 → Slot Line
  after : Fin 512 → ℕ → UInt8

/-- The state behind `struct fsl_rt_io_priv`: the open file and the cache. -/
structure Io where
  disk : Disk
  cache : IoCache

abbrev IoM := StateT Io (Except Stop)

/-- `fsl_io_cache_init`. -/
def ioCacheInit (after : Fin 512 → ℕ → UInt8) : IoCache :=
  ⟨fun _ => ⟨invalidAddr, fun _ => 0⟩, after⟩

/-- The bytes of line `a` of the file. -/
def fileLine (d : Disk) (a : ℕ) : Line := fun k => d.byte (32 * a + k)

/-- Line `a` of the file, where the file holds all of it. -/
def backing (d : Disk) (a : ℕ) : Option Line :=
  if 32 * (a + 1) ≤ d.size then some (fileLine d a) else none

/-- Every valid entry sits in the slot of its line and holds what the file has there. -/
def Io.Coherent (io : Io) : Prop :=
  DirectMapped.Coherent invalidAddr (backing io.disk) io.cache.ents

/-- `fsl_io_cache_put`: read a line into its slot; a short read stops the process. -/
def ioCachePut (cacheLine : ℕ) : IoM Line := do
  let io ← get
  fslAssert (io.disk.preadCount 32 (cacheLine * 32) = 32)
  let data := fileLine io.disk cacheLine
  set { io with cache := { io.cache with ents := put io.cache.ents cacheLine data } }
  return data

/-- The memory seen through a pointer to a line's data. -/
def linePtr (line : Line) (after : ℕ → UInt8) (k : ℕ) : UInt8 :=
  if h : k < 32 then line ⟨k, h⟩ else after (k - 32)

/-- `fsl_io_cache_hitmiss`: a pointer to the line of `bitOff`, found or read. -/
def ioCacheHitmiss (bitOff : ℕ) : IoM (ℕ → UInt8) := do
  let lineBegin := bitOff / 256
  let io ← get
  let line ← match find io.cache.ents lineBegin with
    | some line => pure line
    | none => ioCachePut lineBegin
  return linePtr line (io.cache.after (slotOf 512 lineBegin))

/-- `fsl_io_cache_get_unaligned`: join two neighbouring lines. -/
def ioCacheGetUnaligned (bitOff numBits : ℕ) : IoM ℕ := do
  let lineBegin := bitOff / 256
  let lineEnd := (bitOff + numBits - 1) / 256
  fslAssert (lineBegin + 1 = lineEnd)
  let line0 ← ioCacheHitmiss bitOff
  let line1 ← ioCacheHitmiss (bitOff + 256)
  fslAssert (bitOff % 8 = 0)
  let cache0Off := bitOff / 8 - lineBegin * 32
  let cache0Len := 32 - cache0Off
  let cache1Len := (numBits + 7) / 8 - cache0Len
  let joinBuf := fun i => if i < cache0Len then line0 (cache0Off + i) else line1 (i - cache0Len)
  fslAssert (cache0Len + cache1Len ≤ 8)
  -- the loop copies whole bytes only: `num_bits / 8` of them
  return ofBytes joinBuf 0 (numBits / 8)

/-- The `switch` of `fsl_io_cache_get` on the number of bytes asked for. -/
def ioCacheLoad (line : ℕ → UInt8) (p : ℕ) : ℕ → Except Stop ℕ
  | 0 | 1 => .ok (ofBytes line p 1)
  | 2 => .ok (ofBytes line p 2)
  | 3 => .ok (ofBytes line p 4 &&& 0xffffff)
  | 4 => .ok (ofBytes line p 4)
  | 5 => .ok (ofBytes line p 8 &&& 0xffffffffff)
  | 6 => .ok (ofBytes line p 8 &&& 0xfffffffffffff)
  | 7 => .ok (ofBytes line p 8 &&& 0xfffffffffffffff)
  | 8 => .ok (ofBytes line p 8)
  | _ => .error .assertion

/-- `fsl_io_cache_get`. -/
def ioCacheGet (bitOff numBits : ℕ) : IoM ℕ := do
  let lineBegin := bitOff / 256
  let lineEnd := (bitOff + numBits - 1) / 256
  if lineBegin ≠ lineEnd then ioCacheGetUnaligned bitOff numBits
  else do
    let line ← ioCacheHitmiss bitOff
    fslAssert (bitOff % 8 = 0)
    let ret ← ioCacheLoad line (bitOff / 8 % 32) ((numBits + 7) / 8)
    let ret := ret >>> (bitOff % 8)
    return if numBits < 64 then ret &&& (2 ^ numBits - 1) else ret

/-- `fsl_io_cache_drop_bytes`: invalidate the cached lines from the one of `byteOff` to the one
a whole line past the end of the range. -/
def ioCacheDropBytes (byteOff numBytes : ℕ) : IoM Unit := do
  let io ← get
  let firstLine := byteOff / 32
  let lastLine := (byteOff + numBytes + 32 - 1) / 32
  set { io with cache := { io.cache with
    ents := dropRange invalidAddr io.cache.ents firstLine (lastLine + 1 - firstLine) } }

/-! ## Reads on a coherent cache -/

/-- The states a read may start from and ends in: a coherent cache over the file `d`. -/
def Over (d : Disk) (io : Io) : Prop := io.disk = d ∧ io.Coherent

/-- A line pointer shows line `a` of the file. -/
def Shows (d : Disk) (a : ℕ) (p : ℕ → UInt8) (_ : Unit) : Prop :=
  ∀ k, k < 32 → p k = d.byte (32 * a + k)

variable {d : Disk}

theorem shows_fileLine (a : ℕ) (after : ℕ → UInt8) :
    Shows d a (linePtr (fileLine d a) after) () := by
  intro k hk
  simp [linePtr, hk, fileLine]

/-- A line that the file holds completely is found or read; any other one stops the process,
since such a line is never cached. -/
theorem ioCacheHitmiss_refines {bitOff : ℕ} (hoff : bitOff < 2 ^ 70) :
    Refines (Over d) (Shows d (bitOff / 256)) (ioCacheHitmiss bitOff)
      (fslAssert (32 * (bitOff / 256 + 1) ≤ d.size)) := by
  rintro io ⟨rfl, hc⟩
  have hne : bitOff / 256 ≠ invalidAddr := by
    unfold invalidAddr
    omega
  have hlen : io.disk.preadCount 32 (bitOff / 256 * 32) = 32 ↔
      32 * (bitOff / 256 + 1) ≤ io.disk.size := by
    unfold Disk.preadCount
    omega
  by_cases hfull : 32 * (bitOff / 256 + 1) ≤ io.disk.size
  · have hback : backing io.disk (bitOff / 256) = some (fileLine io.disk (bitOff / 256)) :=
      if_pos hfull
    rw [fslAssert, if_pos hfull]
    cases hf : find io.cache.ents (bitOff / 256) with
    | some line =>
      have hline : fileLine io.disk (bitOff / 256) = line :=
        Option.some.inj (hback.symm.trans (hc.backing_of_find hne hf))
      subst hline
      refine ⟨linePtr (fileLine io.disk (bitOff / 256))
        (io.cache.after (slotOf 512 (bitOff / 256))), io, ?_, shows_fileLine _ _, rfl, hc⟩
      simp only [ioCacheHitmiss, bind, StateT.bind, get, getThe, MonadStateOf.get, StateT.get,
        Except.bind, hf, pure, StateT.pure, Except.pure]
    | none =>
      refine ⟨linePtr (fileLine io.disk (bitOff / 256))
        (io.cache.after (slotOf 512 (bitOff / 256))),
        { io with cache := { io.cache with
          ents := put io.cache.ents (bitOff / 256) (fileLine io.disk (bitOff / 256)) } },
        ?_, shows_fileLine _ _, rfl, hc.put hback⟩
      simp only [ioCacheHitmiss, ioCachePut, bind, StateT.bind, get, getThe, MonadStateOf.get,
        StateT.get, Except.bind, hf, pure, StateT.pure, Except.pure, fslAssert, hlen, hfull,
        if_true, set, StateT.set]
  · rw [fslAssert, if_neg hfull]
    have hf : find io.cache.ents (bitOff / 256) = none := by
      cases hf : find io.cache.ents (bitOff / 256) with
      | none => rfl
      | some line =>
        have hb := hc.backing_of_find hne hf
        simp [backing, hfull] at hb
    show ioCacheHitmiss bitOff io = .error .assertion
    simp only [ioCacheHitmiss, ioCachePut, bind, StateT.bind, get, getThe, MonadStateOf.get,
      StateT.get, Except.bind, hf, pure, StateT.pure, Except.pure, fslAssert, hlen, hfull,
      if_false]
    rfl

/-- What `fsl_io_cache_get` returns over the file `d`, whatever the cache holds. A read that
crosses into the next line returns the whole bytes of the range only. -/
def cacheGet (d : Disk) (bitOff numBits : ℕ) : Except Stop ℕ := do
  fslAssert (32 * ((bitOff + numBits - 1) / 256 + 1) ≤ d.size ∧ bitOff % 8 = 0)
  return ofBits (fun i => d.bit (bitOff + i))
    (if bitOff / 256 = (bitOff + numBits - 1) / 256 then numBits else 8 * (numBits / 8))

/-- Each arm of the `switch` loads the bytes asked for; what it loads beyond them is masked off
or left for the final mask. -/
theorem ioCacheLoad_testBit (line : ℕ → UInt8) (p : ℕ) {k : ℕ} (hk : 1 ≤ k) (hk8 : k ≤ 8) :
    ∃ ret, ioCacheLoad line p k = .ok ret ∧ ret < 2 ^ 64 ∧
      ∀ i, i < 8 * k → ret.testBit i = bitOf line (8 * p + i) := by
  have hwide : ∀ j, j ≤ 8 → ofBytes line p j < 2 ^ 64 := fun j hj =>
    lt_of_lt_of_le (ofBytes_lt line p j) (Nat.pow_le_pow_right (by omega) (by omega))
  have hmask : ∀ j w, j ≤ 8 → 8 * k ≤ 8 * j → 8 * k ≤ w →
      ofBytes line p j &&& (2 ^ w - 1) < 2 ^ 64 ∧
        ∀ i, i < 8 * k → (ofBytes line p j &&& (2 ^ w - 1)).testBit i = bitOf line (8 * p + i) := by
    intro j w hj hkj hkw
    refine ⟨lt_of_le_of_lt Nat.and_le_left (hwide j hj), fun i hi => ?_⟩
    have h1 : i < w := by omega
    have h2 : i < 8 * j := by omega
    rw [testBit_and_mask, testBit_ofBytes]
    simp [h1, h2]
  have hplain : k ≤ 8 → ∀ i, i < 8 * k → (ofBytes line p k).testBit i = bitOf line (8 * p + i) := by
    intro _ i hi
    rw [testBit_ofBytes]
    simp [hi]
  interval_cases k
  · exact ⟨_, rfl, hwide 1 (by omega), hplain hk8⟩
  · exact ⟨_, rfl, hwide 2 (by omega), hplain hk8⟩
  · exact ⟨_, rfl, hmask 4 24 (by omega) (by omega) (by omega)⟩
  · exact ⟨_, rfl, hwide 4 (by omega), hplain hk8⟩
  · exact ⟨_, rfl, hmask 8 40 (by omega) (by omega) (by omega)⟩
  · exact ⟨_, rfl, hmask 8 52 (by omega) (by omega) (by omega)⟩
  · exact ⟨_, rfl, hmask 8 60 (by omega) (by omega) (by omega)⟩
  · exact ⟨_, rfl, hwide 8 (by omega), hplain hk8⟩

/-- The bits of a byte-aligned range inside one line, read through a pointer to that line. -/
theorem bitOf_of_shows {line : ℕ → UInt8} {bitOff numBits i : ℕ}
    (hline : Shows d (bitOff / 256) line ()) (hal : bitOff % 8 = 0)
    (hsame : bitOff / 256 = (bitOff + numBits - 1) / 256) (hi : i < numBits) :
    bitOf line (8 * (bitOff / 8 % 32) + i) = d.bit (bitOff + i) := by
  have hk : (8 * (bitOff / 8 % 32) + i) / 8 < 32 := by omega
  have hb : 32 * (bitOff / 256) + (8 * (bitOff / 8 % 32) + i) / 8 = (bitOff + i) / 8 := by omega
  have hm : (8 * (bitOff / 8 % 32) + i) % 8 = (bitOff + i) % 8 := by omega
  rw [Disk.bit, bitOf, bitOf, hline _ hk, hb, hm]

/-- The value `fsl_io_cache_get` computes from a line that holds the whole range. -/
theorem ioCacheLoad_value {line : ℕ → UInt8} {bitOff numBits : ℕ} (h1 : 1 ≤ numBits)
    (h64 : numBits ≤ 64) (hline : Shows d (bitOff / 256) line ()) (hal : bitOff % 8 = 0)
    (hsame : bitOff / 256 = (bitOff + numBits - 1) / 256) :
    ∃ ret, ioCacheLoad line (bitOff / 8 % 32) ((numBits + 7) / 8) = .ok ret ∧
      (if numBits < 64 then ret >>> (bitOff % 8) &&& (2 ^ numBits - 1) else ret >>> (bitOff % 8)) =
        ofBits (fun i => d.bit (bitOff + i)) numBits := by
  obtain ⟨ret, hret, hlt, hbits⟩ := ioCacheLoad_testBit line (bitOff / 8 % 32)
    (k := (numBits + 7) / 8) (by omega) (by omega)
  have hin : ∀ i, i < numBits → ret.testBit i = d.bit (bitOff + i) := fun i hi => by
    rw [hbits i (by omega), bitOf_of_shows hline hal hsame hi]
  refine ⟨ret, hret, ?_⟩
  rw [hal, Nat.shiftRight_zero]
  split
  · refine eq_ofBits fun i => ?_
    rw [testBit_and_mask]
    by_cases hi : i < numBits
    · rw [hin i hi]
    · simp [hi]
  · next hn =>
    have he : numBits = 64 := by omega
    subst he
    refine eq_ofBits fun i => ?_
    by_cases hi : i < 64
    · simp [hi, hin i hi]
    · have hlti : ret < 2 ^ i := lt_of_lt_of_le hlt (Nat.pow_le_pow_right (by omega) (by omega))
      simp [hi, Nat.testBit_lt_two_pow hlti]

/-- The value the join of two lines returns: the whole bytes of the range. -/
theorem joinBuf_value {line0 line1 : ℕ → UInt8} {bitOff numBits : ℕ} (h64 : numBits ≤ 64)
    (h0 : Shows d (bitOff / 256) line0 ()) (h1 : Shows d ((bitOff + 256) / 256) line1 ())
    (hal : bitOff % 8 = 0) :
    ofBytes (fun i => if i < 32 - (bitOff / 8 - bitOff / 256 * 32)
        then line0 (bitOff / 8 - bitOff / 256 * 32 + i)
        else line1 (i - (32 - (bitOff / 8 - bitOff / 256 * 32)))) 0 (numBits / 8) =
      ofBits (fun i => d.bit (bitOff + i)) (8 * (numBits / 8)) := by
  have hbytes : ofBytes (fun i => if i < 32 - (bitOff / 8 - bitOff / 256 * 32)
        then line0 (bitOff / 8 - bitOff / 256 * 32 + i)
        else line1 (i - (32 - (bitOff / 8 - bitOff / 256 * 32)))) 0 (numBits / 8) =
      ofBytes d.byte (bitOff / 8) (numBits / 8) := by
    refine ofBytes_congr fun j hj => ?_
    rw [Nat.zero_add]
    by_cases hlt : j < 32 - (bitOff / 8 - bitOff / 256 * 32)
    · rw [if_pos hlt, h0 _ (by omega)]
      congr 1
      omega
    · rw [if_neg hlt, h1 _ (by omega)]
      congr 1
      omega
  have hoff : 8 * (bitOff / 8) = bitOff := by omega
  rw [hbytes, ofBytes_eq_ofBits, hoff]
  rfl

theorem ioCacheGetUnaligned_refines {bitOff numBits : ℕ} (h1 : 1 ≤ numBits) (h64 : numBits ≤ 64)
    (hoff : bitOff < 2 ^ 66) (hcross : bitOff / 256 ≠ (bitOff + numBits - 1) / 256) :
    Refines (Over d) Eq (ioCacheGetUnaligned bitOff numBits) (cacheGet d bitOff numBits) := by
  have hnext : (bitOff + 256) / 256 = (bitOff + numBits - 1) / 256 := by omega
  have hpure : cacheGet d bitOff numBits = (do
      fslAssert (bitOff / 256 + 1 = (bitOff + numBits - 1) / 256)
      fslAssert (32 * (bitOff / 256 + 1) ≤ d.size)
      fslAssert (32 * ((bitOff + 256) / 256 + 1) ≤ d.size)
      fslAssert (bitOff % 8 = 0)
      fslAssert (32 - (bitOff / 8 - bitOff / 256 * 32) +
        ((numBits + 7) / 8 - (32 - (bitOff / 8 - bitOff / 256 * 32))) ≤ 8)
      return ofBits (fun i => d.bit (bitOff + i)) (8 * (numBits / 8))) := by
    rw [cacheGet, if_neg hcross, fslAssert_of (show bitOff / 256 + 1 = _ by omega)]
    by_cases hfull : 32 * ((bitOff + numBits - 1) / 256 + 1) ≤ d.size
    · rw [fslAssert_of (show 32 * (bitOff / 256 + 1) ≤ d.size by omega),
        fslAssert_of (show 32 * ((bitOff + 256) / 256 + 1) ≤ d.size by omega)]
      by_cases hal : bitOff % 8 = 0
      · rw [fslAssert_of ⟨hfull, hal⟩, fslAssert_of hal, fslAssert_of (by omega)]
        rfl
      · rw [fslAssert_of_not (fun h => hal h.2), fslAssert_of_not hal]
        rfl
    · rw [fslAssert_of_not (fun h => hfull h.1),
        fslAssert_of_not (show ¬ 32 * ((bitOff + 256) / 256 + 1) ≤ d.size by omega)]
      by_cases hfirst : 32 * (bitOff / 256 + 1) ≤ d.size
      · rw [fslAssert_of hfirst]
        rfl
      · rw [fslAssert_of_not hfirst]
        rfl
  rw [hpure]
  refine fslAssert_bind_refines fun _ => ?_
  refine Refines.bind (ioCacheHitmiss_refines (by omega)) fun line0 _ hl0 => ?_
  refine Refines.bind (ioCacheHitmiss_refines (by omega)) fun line1 _ hl1 => ?_
  refine fslAssert_bind_refines fun hal => ?_
  refine fslAssert_bind_refines fun _ => ?_
  exact Refines.pure (joinBuf_value h64 hl0 hl1 hal)

/-- On every coherent cache, a hit, a miss and a join of two lines return what the file says. -/
theorem ioCacheGet_refines {bitOff numBits : ℕ} (h1 : 1 ≤ numBits) (h64 : numBits ≤ 64)
    (hoff : bitOff < 2 ^ 66) :
    Refines (Over d) Eq (ioCacheGet bitOff numBits) (cacheGet d bitOff numBits) := by
  by_cases hsame : bitOff / 256 = (bitOff + numBits - 1) / 256
  · have hpure : cacheGet d bitOff numBits = (do
        fslAssert (32 * (bitOff / 256 + 1) ≤ d.size)
        fslAssert (bitOff % 8 = 0)
        return ofBits (fun i => d.bit (bitOff + i)) numBits) := by
      rw [cacheGet, if_pos hsame, ← hsame]
      by_cases hfull : 32 * (bitOff / 256 + 1) ≤ d.size
      · rw [fslAssert_of hfull]
        by_cases hal : bitOff % 8 = 0
        · rw [fslAssert_of ⟨hfull, hal⟩, fslAssert_of hal]
          rfl
        · rw [fslAssert_of_not (fun h => hal h.2), fslAssert_of_not hal]
          rfl
      · rw [fslAssert_of_not (fun h => hfull h.1), fslAssert_of_not hfull]
        rfl
    rw [hpure]
    unfold ioCacheGet
    rw [if_neg (not_not.mpr hsame)]
    refine Refines.bind (ioCacheHitmiss_refines (by omega)) fun line _ hl => ?_
    refine fslAssert_bind_refines fun hal => ?_
    obtain ⟨ret, hret, hval⟩ := ioCacheLoad_value h1 h64 hl hal hsame
    rw [hret]
    exact Refines.pure hval
  · unfold ioCacheGet
    rw [if_pos hsame]
    exact ioCacheGetUnaligned_refines h1 h64 hoff hsame

end Fsl.Pread
