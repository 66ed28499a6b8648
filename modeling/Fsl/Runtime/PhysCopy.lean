import Fsl.Runtime.Coherence
import Fsl.Runtime.Prog

/-!
# Copying an instance

`typeinfo_phys_copy` with its count of 32 bits. An instance is copied completely, and whatever is read
through the cache afterwards is what the file holds then.
-/

namespace Fsl

open BitNum Pread

/-- `fsl_io_read_bytes`, which goes to the file and not to the cache. -/
def ioReadBytes (byteC off : ℕ) : IoM (List UInt8) := do
  let io ← get
  fslAssert (io.disk.preadCount byteC off = byteC)
  return (List.range byteC).map fun i => io.disk.byte (off + i)

/-- A `struct type_info` as relocation uses it: its offset, its size in bits, which may depend on
the disk, and whether it is seen through a virtual mapping. -/
structure TypeInfo where
  offset : UInt64
  size : Prog UInt64
  xlate : Bool

namespace PhysCopy

/-- `to_xfer`, at most `COPY_BUF_SZ` -/
def toXfer (srcSz : UInt64) (xferTotal : UInt32) : UInt32 :=
  let left := (srcSz - xferTotal.toUInt64).toUInt32
  if 4096 < left then 4096 else left

/-- The loop of `typeinfo_phys_copy`, whose count is an `unsigned int`; there is no value before it has
ended. -/
def copyLoop (srcBase dstBase srcSz : UInt64) : ℕ → UInt32 → IoM (Option Unit)
  | 0, _ => return none
  | turns + 1, xferTotal =>
    if xferTotal.toUInt64 < srcSz then do
      let buf ← ioReadBytes (toXfer srcSz xferTotal).toNat (xferTotal.toUInt64 + srcBase).toNat
      ioWriteBytes buf (xferTotal.toUInt64 + dstBase).toNat
      copyLoop srcBase dstBase srcSz turns (xferTotal + toXfer srcSz xferTotal)
    else return some ()

/-- `typeinfo_phys_copy` -/
def physCopy (mode : Mode) (turns : ℕ) (dst src : TypeInfo) : IoM (Option Unit) := do
  let srcSz ← src.size.exec mode
  let dstSz ← dst.size.exec mode
  fslAssert (srcSz = dstSz)
  fslAssert (srcSz.toNat % 8 = 0)
  fslAssert (dst.xlate = false)
  fslAssert (src.xlate = false)
  fslAssert (src.offset.toNat % 8 = 0)
  fslAssert (dst.offset.toNat % 8 = 0)
  copyLoop (src.offset / 8) (dst.offset / 8) (srcSz / 8) turns 0

/-- After this many rounds of 4096 bytes the count is 0 again: a copy that has not ended by then does
not end. -/
def copyTurns : ℕ := 2 ^ 20 + 1

end PhysCopy

/-! ## The copied block -/

/-- The disk with the bytes `[dst, dst + n)` taken from `[src, src + n)`. -/
def Disk.copyChunk (d : Disk) (src dst n : ℕ) : Disk :=
  Disk.ofFn d.size (fun i => if dst ≤ i ∧ i < dst + n then d.byte (src + (i - dst)) else d.byte i)
    d.size_lt

/-- The disk after the copy loop. -/
def Disk.copyRounds (src dst sz : ℕ) : ℕ → ℕ → Disk → Disk
  | 0, _, d => d
  | rounds + 1, x, d =>
    if x < sz then
      Disk.copyRounds src dst sz rounds (x + min (sz - x) 4096)
        (d.copyChunk (x + src) (x + dst) (min (sz - x) 4096))
    else d

/-- The disk with the `sz` bytes at `src` copied to `dst`, 4096 at a time. -/
def Disk.copyBlock (d : Disk) (src dst sz : ℕ) : Disk :=
  Disk.copyRounds src dst sz (sz / 4096 + 1) 0 d

@[simp] theorem Disk.size_copyChunk (d : Disk) (src dst n : ℕ) :
    (d.copyChunk src dst n).size = d.size := rfl

theorem Disk.byte_copyChunk {d : Disk} {src dst n : ℕ} (hin : dst + n ≤ d.size) (i : ℕ) :
    (d.copyChunk src dst n).byte i =
      if dst ≤ i ∧ i < dst + n then d.byte (src + (i - dst)) else d.byte i := by
  by_cases hi : i < d.size
  · exact Disk.ofFn_byte _ _ _ hi
  · have hout : ¬ (dst ≤ i ∧ i < dst + n) := by omega
    rw [if_neg hout, d.byte_eq_zero i (by omega)]
    exact Disk.byte_eq_zero _ i (by rw [Disk.size_copyChunk]; omega)

theorem Disk.size_copyRounds (src dst sz rounds x : ℕ) (d : Disk) :
    (Disk.copyRounds src dst sz rounds x d).size = d.size := by
  induction rounds generalizing x d with
  | zero => rfl
  | succ rounds ih =>
    rw [Disk.copyRounds]
    split
    · rw [ih, Disk.size_copyChunk]
    · rfl

/-- On blocks that do not overlap the loop copies the whole block at once. -/
theorem Disk.byte_copyRounds {src dst sz : ℕ} (hdisj : src + sz ≤ dst ∨ dst + sz ≤ src)
    {rounds x : ℕ} (hx : x ≤ sz) (hr : sz ≤ x + 4096 * rounds) {d : Disk} (hin : dst + sz ≤ d.size)
    (i : ℕ) :
    (Disk.copyRounds src dst sz rounds x d).byte i =
      if dst + x ≤ i ∧ i < dst + sz then d.byte (src + (i - dst)) else d.byte i := by
  induction rounds generalizing x d with
  | zero =>
    have hout : ¬ (dst + x ≤ i ∧ i < dst + sz) := by omega
    rw [if_neg hout]
    rfl
  | succ rounds ih =>
    rw [Disk.copyRounds]
    by_cases hlt : x < sz
    · rw [if_pos hlt, ih (by omega) (by omega) (by rw [Disk.size_copyChunk]; exact hin),
        Disk.byte_copyChunk (by omega), Disk.byte_copyChunk (by omega)]
      have hsrc : ¬ (x + dst ≤ src + (i - dst) ∧
          src + (i - dst) < x + dst + min (sz - x) 4096) ∨ ¬ (dst + x ≤ i ∧ i < dst + sz) := by
        omega
      by_cases hi : dst + x ≤ i ∧ i < dst + sz
      · rw [if_pos hi]
        by_cases hchunk : dst + (x + min (sz - x) 4096) ≤ i ∧ i < dst + sz
        · rw [if_pos hchunk, if_neg (hsrc.resolve_right (not_not.mpr hi))]
        · have hin' : x + dst ≤ i ∧ i < x + dst + min (sz - x) 4096 := by omega
          rw [if_neg hchunk, if_pos hin']
          congr 1
          omega
      · have h1 : ¬ (dst + (x + min (sz - x) 4096) ≤ i ∧ i < dst + sz) := by omega
        have h2 : ¬ (x + dst ≤ i ∧ i < x + dst + min (sz - x) 4096) := by omega
        rw [if_neg hi, if_neg h1, if_neg h2]
    · have hout : ¬ (dst + x ≤ i ∧ i < dst + sz) := by omega
      rw [if_neg hlt, if_neg hout]

theorem Disk.size_copyBlock (d : Disk) (src dst sz : ℕ) :
    (d.copyBlock src dst sz).size = d.size := Disk.size_copyRounds _ _ _ _ _ _

theorem Disk.byte_copyBlock {d : Disk} {src dst sz : ℕ} (hdisj : src + sz ≤ dst ∨ dst + sz ≤ src)
    (hin : dst + sz ≤ d.size) (i : ℕ) :
    (d.copyBlock src dst sz).byte i =
      if dst ≤ i ∧ i < dst + sz then d.byte (src + (i - dst)) else d.byte i := by
  rw [Disk.copyBlock, Disk.byte_copyRounds hdisj (Nat.zero_le _) (by omega) hin, Nat.add_zero]

theorem pwrite_chunk {d : Disk} {src dst n : ℕ} (hin : dst + n ≤ d.size) :
    d.pwrite ((List.range n).map fun i => d.byte (src + i)) dst = .ok (d.copyChunk src dst n) := by
  obtain ⟨d', hd, hsize⟩ := d.pwrite_of_le ((List.range n).map fun i => d.byte (src + i)) dst
    (by simpa using hin)
  rw [hd]
  refine congrArg Except.ok (Disk.ext hsize fun i => ?_)
  rw [Disk.byte_pwrite hd, Disk.byte_copyChunk hin, List.length_map, List.length_range]
  by_cases hi : dst ≤ i ∧ i < dst + n
  · have hlt : i - dst < ((List.range n).map fun i => d.byte (src + i)).length := by
      rw [List.length_map, List.length_range]
      omega
    rw [if_pos hi, if_pos hi, List.getD_eq_getElem _ _ hlt]
    simp
  · rw [if_neg hi, if_neg hi]

/-- Two blocks that `typeinfo_phys_copy` copies between: of the same size, a whole number of bytes,
at byte boundaries and inside the disk, and not virtual. -/
structure Copyable (mode : Mode) (d : Disk) (dst src : TypeInfo) (sz : UInt64) : Prop where
  src_size : src.size.run mode d = .ok sz
  dst_size : dst.size.run mode d = .ok sz
  size_bytes : sz.toNat % 8 = 0
  dst_xlate : dst.xlate = false
  src_xlate : src.xlate = false
  src_bytes : src.offset.toNat % 8 = 0
  dst_bytes : dst.offset.toNat % 8 = 0
  src_inside : src.offset.toNat / 8 + sz.toNat / 8 ≤ d.size
  dst_inside : dst.offset.toNat / 8 + sz.toNat / 8 ≤ d.size

namespace PhysCopy

/-! ## The count -/

section Count

variable {srcBase dstBase srcSz : UInt64} {x : UInt32}

theorem toNat_toXfer (hsz : srcSz.toNat < 2 ^ 32) (hx : x.toNat ≤ srcSz.toNat) :
    (toXfer srcSz x).toNat = min (srcSz.toNat - x.toNat) 4096 := by
  have hle : x.toUInt64 ≤ srcSz := UInt64.le_iff_toNat_le.mpr hx
  have hleft : (srcSz - x.toUInt64).toUInt32.toNat = srcSz.toNat - x.toNat := by
    rw [UInt64.toNat_toUInt32, UInt64.toNat_sub_of_le _ _ hle, UInt32.toNat_toUInt64]
    omega
  have hmax : (4096 : UInt32).toNat = 4096 := rfl
  unfold toXfer
  dsimp only
  split_ifs with hlt
  · rw [UInt32.lt_iff_toNat_lt, hleft, hmax] at hlt
    omega
  · rw [UInt32.lt_iff_toNat_lt, hleft, hmax] at hlt
    omega

/-- One round reads the source and writes the destination. -/
theorem copyLoop_succ {t n : ℕ} {io : Io} (hc : io.Coherent) (hlt : x.toUInt64 < srcSz)
    (hn : (toXfer srcSz x).toNat = n) {src dst : ℕ} (hs : (x.toUInt64 + srcBase).toNat = src)
    (hd : (x.toUInt64 + dstBase).toNat = dst) (hsrc : src + n ≤ io.disk.size)
    (hdst : dst + n ≤ io.disk.size) :
    ∃ io₁, copyLoop srcBase dstBase srcSz (t + 1) x io =
        copyLoop srcBase dstBase srcSz t (x + toXfer srcSz x) io₁ ∧
      io₁.disk = io.disk.copyChunk src dst n ∧ io₁.Coherent := by
  have hread : ioReadBytes n src io = .ok ((List.range n).map fun i => io.disk.byte (src + i), io) := by
    have hcount : io.disk.preadCount n src = n := by
      unfold Disk.preadCount
      omega
    simp only [ioReadBytes, bind, StateT.bind, get, getThe, MonadStateOf.get, StateT.get, pure,
      Except.pure, Except.bind, fslAssert, hcount, if_true, StateT.pure]
  have hu : update (fun d => d.pwrite ((List.range n).map fun i => io.disk.byte (src + i)) dst)
      io.disk = .ok ((), io.disk.copyChunk src dst n) := by
    rw [update, pwrite_chunk hdst]
    rfl
  obtain ⟨_, io₁, hw, -, hdisk, hc₁⟩ := (ioWriteBytes_simulates _ _).ok_run ⟨rfl, hc⟩ hu
  refine ⟨io₁, ?_, hdisk, hc₁⟩
  rw [copyLoop, if_pos hlt, hn, hs, hd]
  show (ioReadBytes n src io >>= fun p => ioWriteBytes p.1 dst p.2 >>= fun q =>
    copyLoop srcBase dstBase srcSz t (x + toXfer srcSz x) q.2) = _
  rw [hread]
  show (ioWriteBytes _ dst io >>= _) = _
  rw [hw]
  rfl

/-- Below `2 ^ 32` bytes the count does not wrap: the loop copies the block in rounds of 4096 bytes. -/
theorem copyLoop_ok (hsz : srcSz.toNat < 2 ^ 32) {rounds turns : ℕ} {io : Io} (hc : io.Coherent)
    (hsrc : srcBase.toNat + srcSz.toNat ≤ io.disk.size)
    (hdst : dstBase.toNat + srcSz.toNat ≤ io.disk.size) (hx : x.toNat ≤ srcSz.toNat)
    (hr : srcSz.toNat ≤ x.toNat + 4096 * rounds) (ht : rounds < turns) :
    ∃ io', copyLoop srcBase dstBase srcSz turns x io = .ok (some (), io') ∧
      io'.disk = Disk.copyRounds srcBase.toNat dstBase.toNat srcSz.toNat rounds x.toNat io.disk ∧
      io'.Coherent := by
  have hsize := io.disk.size_lt
  induction rounds generalizing turns x io with
  | zero =>
    obtain ⟨t, rfl⟩ := Nat.exists_eq_add_of_lt ht
    have hout : ¬ x.toUInt64 < srcSz := by
      rw [UInt64.lt_iff_toNat_lt, UInt32.toNat_toUInt64]
      omega
    refine ⟨io, ?_, rfl, hc⟩
    rw [copyLoop, if_neg hout]
    rfl
  | succ rounds ih =>
    obtain ⟨t, rfl⟩ : ∃ t, turns = t + 1 := ⟨turns - 1, by omega⟩
    by_cases hlt : x.toNat < srcSz.toNat
    · have hxfer := toNat_toXfer hsz hx
      have hsum : (x + toXfer srcSz x).toNat = x.toNat + min (srcSz.toNat - x.toNat) 4096 := by
        rw [UInt32.toNat_add, hxfer]
        omega
      have hfrom : (x.toUInt64 + srcBase).toNat = x.toNat + srcBase.toNat := by
        rw [UInt64.toNat_add, UInt32.toNat_toUInt64]
        omega
      have hto : (x.toUInt64 + dstBase).toNat = x.toNat + dstBase.toNat := by
        rw [UInt64.toNat_add, UInt32.toNat_toUInt64]
        omega
      obtain ⟨io₁, hround, hdisk, hc₁⟩ := copyLoop_succ (t := t) hc
        (UInt64.lt_iff_toNat_lt.mpr hlt) hxfer hfrom hto (by omega) (by omega)
      have hsize₁ : io₁.disk.size = io.disk.size := by rw [hdisk, Disk.size_copyChunk]
      obtain ⟨io', hrun, hd', hc'⟩ := ih (x := x + toXfer srcSz x) hc₁
        (by rw [hsize₁]; exact hsrc) (by rw [hsize₁]; exact hdst) (by omega) (by omega)
        (show rounds < t by omega)
        io₁.disk.size_lt
      refine ⟨io', by rw [hround, hrun], ?_, hc'⟩
      rw [hd', hdisk, hsum, Disk.copyRounds, if_pos hlt]
    · refine ⟨io, ?_, ?_, hc⟩
      · have hout : ¬ x.toUInt64 < srcSz := mt UInt64.lt_iff_toNat_lt.mp hlt
        rw [copyLoop, if_neg hout]
        rfl
      · rw [Disk.copyRounds, if_neg hlt]

/-- A round of a loop that ends. -/
theorem copyLoop_some {turns : ℕ} {io io' : Io} (hlt : x.toUInt64 < srcSz)
    (h : copyLoop srcBase dstBase srcSz (turns + 1) x io = .ok (some (), io')) :
    ∃ io₁, copyLoop srcBase dstBase srcSz turns (x + toXfer srcSz x) io₁ = .ok (some (), io') ∧
      ∀ t, copyLoop srcBase dstBase srcSz (t + 1) x io =
        copyLoop srcBase dstBase srcSz t (x + toXfer srcSz x) io₁ := by
  have hround : ∀ t, copyLoop srcBase dstBase srcSz (t + 1) x io =
      (ioReadBytes (toXfer srcSz x).toNat (x.toUInt64 + srcBase).toNat io >>= fun p =>
        ioWriteBytes p.1 (x.toUInt64 + dstBase).toNat p.2 >>= fun q =>
          copyLoop srcBase dstBase srcSz t (x + toXfer srcSz x) q.2) := by
    intro t
    rw [copyLoop, if_pos hlt]
    rfl
  rw [hround] at h
  obtain ⟨p, hread, h⟩ := bind_eq_ok h
  obtain ⟨q, hwrite, h⟩ := bind_eq_ok h
  refine ⟨q.2, h, fun t => ?_⟩
  rw [hround, hread]
  show (ioWriteBytes p.1 _ p.2 >>= _) = _
  rw [hwrite]
  rfl

/-- From `2 ^ 32` bytes on the count stays below the size and the loop does not end. -/
theorem copyLoop_endless (hsz : 2 ^ 32 ≤ srcSz.toNat) (turns : ℕ) {io io' : Io} :
    copyLoop srcBase dstBase srcSz turns x io ≠ .ok (some (), io') := by
  induction turns generalizing x io with
  | zero =>
    intro h
    cases h
  | succ turns ih =>
    have hlt : x.toUInt64 < srcSz := by
      rw [UInt64.lt_iff_toNat_lt, UInt32.toNat_toUInt64]
      have := x.toNat_lt
      omega
    intro h
    obtain ⟨io₁, h₁, -⟩ := copyLoop_some hlt h
    exact ih h₁

/-- A loop that ends does so within one turn for each 4096 bytes and one more. -/
theorem copyLoop_turns (hsz : srcSz.toNat < 2 ^ 32) {rounds turns : ℕ} {io io' : Io}
    (hx : x.toNat ≤ srcSz.toNat) (hr : srcSz.toNat ≤ x.toNat + 4096 * rounds)
    (h : copyLoop srcBase dstBase srcSz turns x io = .ok (some (), io')) :
    copyLoop srcBase dstBase srcSz (rounds + 1) x io = .ok (some (), io') := by
  induction turns generalizing rounds x io with
  | zero => cases h
  | succ turns ih =>
    by_cases hlt : x.toUInt64 < srcSz
    · have hlt' : x.toNat < srcSz.toNat := by
        rw [UInt64.lt_iff_toNat_lt, UInt32.toNat_toUInt64] at hlt
        exact hlt
      obtain ⟨rounds, rfl⟩ : ∃ r, rounds = r + 1 := ⟨rounds - 1, by omega⟩
      have hsum : (x + toXfer srcSz x).toNat = x.toNat + min (srcSz.toNat - x.toNat) 4096 := by
        rw [UInt32.toNat_add, toNat_toXfer hsz hx]
        omega
      obtain ⟨io₁, h₁, hround⟩ := copyLoop_some hlt h
      rw [hround]
      exact ih (by omega) (by omega) h₁
    · rw [copyLoop, if_neg hlt] at h ⊢
      exact h

end Count

section Copy

variable {mode : Mode} {dst src : TypeInfo} {sz : UInt64} {io : Io}

theorem bind_ok_mono {α β : Type} {x : IoM α} {f g : α → IoM β} {s : Io} {r : β × Io}
    (hfg : ∀ a s', f a s' = .ok r → g a s' = .ok r) (h : (x >>= f) s = .ok r) :
    (x >>= g) s = .ok r := by
  obtain ⟨p, hx, h⟩ := bind_eq_ok (show (x s >>= fun p => f p.1 p.2) = _ from h)
  show (x s >>= fun p => g p.1 p.2) = _
  rw [hx]
  exact hfg p.1 p.2 h

/-- A copy that ends in any number of turns ends in `copyTurns`. -/
theorem physCopy_copyTurns {turns : ℕ} {io' : Io}
    (h : physCopy mode turns dst src io = .ok (some (), io')) :
    physCopy mode copyTurns dst src io = .ok (some (), io') := by
  have hloop : ∀ (srcSz : UInt64) (io₁ : Io),
      copyLoop (src.offset / 8) (dst.offset / 8) srcSz turns 0 io₁ = .ok (some (), io') →
      copyLoop (src.offset / 8) (dst.offset / 8) srcSz copyTurns 0 io₁ = .ok (some (), io') := by
    intro srcSz io₁ h₁
    have hsz : srcSz.toNat < 2 ^ 32 := by
      by_contra hge
      exact copyLoop_endless (by omega) turns h₁
    exact copyLoop_turns hsz (Nat.zero_le _) (by show srcSz.toNat ≤ 0 + _; omega) h₁
  refine bind_ok_mono (fun srcSz _ h => ?_) h
  refine bind_ok_mono (fun dstSz _ h => ?_) h
  iterate 6 refine bind_ok_mono (fun _ _ h => ?_) h
  exact hloop _ _ h

/-- The copy of a block of less than `2 ^ 32` bytes ends, and the file is the one with the block
copied. -/
theorem physCopy_ok (hc : io.Coherent) (h : Copyable mode io.disk dst src sz)
    (hsz : sz.toNat / 8 < 2 ^ 32) :
    ∃ io', (∀ turns, sz.toNat / 8 / 4096 + 1 < turns →
        physCopy mode turns dst src io = .ok (some (), io')) ∧
      io'.disk = io.disk.copyBlock (src.offset.toNat / 8) (dst.offset.toNat / 8) (sz.toNat / 8) ∧
      io'.Coherent := by
  have hsrc : Refines (Over io.disk) Eq (src.size.exec mode) (src.size.run mode io.disk) :=
    Prog.exec_refines _
  rw [h.src_size] at hsrc
  obtain ⟨_, io₁, h₁, rfl, hd₁, hc₁⟩ := hsrc io ⟨rfl, hc⟩
  have hdst : Refines (Over io.disk) Eq (dst.size.exec mode) (dst.size.run mode io.disk) :=
    Prog.exec_refines _
  rw [h.dst_size] at hdst
  obtain ⟨sz, io₂, h₂, rfl, hd₂, hc₂⟩ := hdst io₁ ⟨hd₁, hc₁⟩
  have hcount : (sz / 8).toNat = sz.toNat / 8 := UInt64.toNat_div sz 8
  have hsrcBase : (src.offset / 8).toNat = src.offset.toNat / 8 := UInt64.toNat_div _ 8
  have hdstBase : (dst.offset / 8).toNat = dst.offset.toNat / 8 := UInt64.toNat_div _ 8
  have hin : (src.offset / 8).toNat + (sz / 8).toNat ≤ io₂.disk.size := by
    rw [hcount, hsrcBase, hd₂]
    exact h.src_inside
  have hin' : (dst.offset / 8).toNat + (sz / 8).toNat ≤ io₂.disk.size := by
    rw [hcount, hdstBase, hd₂]
    exact h.dst_inside
  have hlt : (sz / 8).toNat < 2 ^ 32 := by omega
  have hrounds : (sz / 8).toNat ≤ (0 : UInt32).toNat + 4096 * (sz.toNat / 8 / 4096 + 1) := by omega
  obtain ⟨io', hrun, hd', hc'⟩ :=
    copyLoop_ok hlt hc₂ hin hin' (Nat.zero_le _) hrounds (Nat.lt_succ_self _)
  have hturns : ∀ turns, sz.toNat / 8 / 4096 + 1 < turns →
      copyLoop (src.offset / 8) (dst.offset / 8) (sz / 8) turns 0 io₂ = .ok (some (), io') := by
    intro turns ht
    obtain ⟨t, rfl⟩ : ∃ t, turns = t + 1 := ⟨turns - 1, by omega⟩
    exact copyLoop_turns hlt (Nat.zero_le _) (by omega) hrun
  have hzero : (0 : UInt32).toNat = 0 := rfl
  rw [hd₂, hcount, hsrcBase, hdstBase, hzero] at hd'
  refine ⟨io', fun turns ht => ?_, hd', hc'⟩
  simp only [physCopy, bind, StateT.bind, h₁, Except.bind, h₂, fslAssert, if_true,
    h.size_bytes, h.dst_xlate, h.src_xlate, h.src_bytes, h.dst_bytes, pure, StateT.pure, Except.pure,
    hturns turns ht]

/-- The bytes of a file in which the `n` bytes at `src` were copied to `dst`. -/
def copied (d : Disk) (src dst n i : ℕ) : UInt8 :=
  if dst ≤ i ∧ i < dst + n then d.byte (src + (i - dst)) else d.byte i

/-- The copy returns, over the file with the copied bytes. -/
theorem exists_physCopy (hc : io.Coherent) (h : Copyable mode io.disk dst src sz)
    (hsz : sz.toNat / 8 < 2 ^ 32)
    (hdisj : src.offset.toNat / 8 + sz.toNat / 8 ≤ dst.offset.toNat / 8 ∨
      dst.offset.toNat / 8 + sz.toNat / 8 ≤ src.offset.toNat / 8) :
    ∃ io', (∀ turns, sz.toNat / 8 / 4096 + 1 < turns →
        physCopy mode turns dst src io = .ok (some (), io')) ∧
      io'.Coherent ∧ io'.disk.size = io.disk.size ∧
      ∀ i, io'.disk.byte i =
        copied io.disk (src.offset.toNat / 8) (dst.offset.toNat / 8) (sz.toNat / 8) i := by
  obtain ⟨io', hx, hd, hc'⟩ := physCopy_ok hc h hsz
  refine ⟨io', hx, hc', ?_, fun i => ?_⟩
  · rw [hd, Disk.size_copyBlock]
  · rw [hd, Disk.byte_copyBlock hdisj h.dst_inside]
    rfl

end Copy

/-! ## Reading afterwards -/

/-- The states after any number of cached reads, among which the memory behind the lines may change. -/
inductive Later (io : Io) : Io → Prop
  | refl : Later io io
  | get {io₁ io₂ : Io} {bitOff numBits v : ℕ} : Later io io₁ → 1 ≤ numBits → numBits ≤ 64 →
      bitOff < 2 ^ 64 → ioCacheGet bitOff numBits io₁ = .ok (v, io₂) → Later io io₂
  | memory {io₁ : Io} (after : Fin 512 → ℕ → UInt8) : Later io io₁ →
      Later io { io₁ with cache := { io₁.cache with after := after } }

theorem Later.over {io io' : Io} (h : Later io io') (hc : io.Coherent) : Over io.disk io' := by
  induction h with
  | refl => exact ⟨rfl, hc⟩
  | get _ h1 h64 hoff hx ih =>
    exact (ioCacheGet_refines h1 h64 (lt_trans hoff (by norm_num))).run_inv ih hx
  | memory after _ ih => exact ih

/-- Whole bytes as a cached read returns them, where the last line of the read is complete. -/
theorem cacheGet_bytes {d : Disk} {off bytes : ℕ} (h1 : 1 ≤ bytes) (v : ℕ) :
    cacheGet d (8 * off) (8 * bytes) = .ok v ↔
      32 * ((off + bytes - 1) / 32 + 1) ≤ d.size ∧ v = ofBytes d.byte off bytes := by
  have hline : (8 * off + 8 * bytes - 1) / 256 = (off + bytes - 1) / 32 := by omega
  have hwidth : (if 8 * off / 256 = (off + bytes - 1) / 32 then 8 * bytes
      else 8 * (8 * bytes / 8)) = 8 * bytes := by
    split_ifs
    · rfl
    · omega
  have hval : ofBits (fun i => d.bit (8 * off + i)) (8 * bytes) = ofBytes d.byte off bytes :=
    (ofBytes_eq_ofBits d.byte off bytes).symm
  rw [cacheGet, hline, hwidth, hval]
  by_cases hfull : 32 * ((off + bytes - 1) / 32 + 1) ≤ d.size
  · rw [fslAssert_of ⟨hfull, Nat.mul_mod_right 8 off⟩]
    constructor
    · rintro ⟨⟩
      exact ⟨hfull, rfl⟩
    · rintro ⟨-, rfl⟩
      rfl
  · rw [fslAssert_of_not fun h => hfull h.1]
    constructor
    · rintro ⟨⟩
    · exact fun h => absurd h.1 hfull

/-- Between blocks that do not overlap, `typeinfo_phys_copy` returns with the old bytes of the source in
the destination and no other byte changed. A cached read after it depends on the new file alone: a read
of whole bytes returns if its last line is complete, and then it returns the new bytes. -/
theorem physCopy_exact {mode : Mode} {dst src : TypeInfo} {sz : UInt64} {io : Io} (hc : io.Coherent)
    (h : Copyable mode io.disk dst src sz) (hsz : sz.toNat / 8 < 2 ^ 32)
    (hdisj : src.offset.toNat / 8 + sz.toNat / 8 ≤ dst.offset.toNat / 8 ∨
      dst.offset.toNat / 8 + sz.toNat / 8 ≤ src.offset.toNat / 8) :
    ∃ io', (∃ enough, ∀ turns, enough ≤ turns →
        physCopy mode turns dst src io = .ok (some (), io')) ∧
      io'.disk.size = io.disk.size ∧
      (∀ i, i < sz.toNat / 8 → io'.disk.byte (dst.offset.toNat / 8 + i) =
        io.disk.byte (src.offset.toNat / 8 + i)) ∧
      (∀ i, i < dst.offset.toNat / 8 ∨ dst.offset.toNat / 8 + sz.toNat / 8 ≤ i →
        io'.disk.byte i = io.disk.byte i) ∧
      ∀ later, Later io' later →
        (∀ bitOff numBits v, 1 ≤ numBits → numBits ≤ 64 → bitOff < 2 ^ 64 →
          ((∃ s, ioCacheGet bitOff numBits later = .ok (v, s)) ↔
            cacheGet io'.disk bitOff numBits = .ok v)) ∧
        ∀ off bytes v, 1 ≤ bytes → bytes ≤ 8 → 8 * off < 2 ^ 64 →
          ((∃ s, ioCacheGet (8 * off) (8 * bytes) later = .ok (v, s)) ↔
            32 * ((off + bytes - 1) / 32 + 1) ≤ io.disk.size ∧
              v = ofBytes (copied io.disk (src.offset.toNat / 8) (dst.offset.toNat / 8)
                (sz.toNat / 8)) off bytes) := by
  obtain ⟨io', hx, hc', hsize, hbyte⟩ := exists_physCopy hc h hsz hdisj
  refine ⟨io', ⟨sz.toNat / 8 / 4096 + 2, fun turns ht => hx turns (by omega)⟩, hsize, ?_, ?_, ?_⟩
  · intro i hi
    have hin : dst.offset.toNat / 8 ≤ dst.offset.toNat / 8 + i ∧
        dst.offset.toNat / 8 + i < dst.offset.toNat / 8 + sz.toNat / 8 := by omega
    rw [hbyte, copied, if_pos hin, Nat.add_sub_cancel_left]
  · intro i hi
    have hout : ¬ (dst.offset.toNat / 8 ≤ i ∧ i < dst.offset.toNat / 8 + sz.toNat / 8) := by omega
    rw [hbyte, copied, if_neg hout]
  · intro later hlater
    have hget : ∀ bitOff numBits v, 1 ≤ numBits → numBits ≤ 64 → bitOff < 2 ^ 64 →
        ((∃ s, ioCacheGet bitOff numBits later = .ok (v, s)) ↔
          cacheGet io'.disk bitOff numBits = .ok v) :=
      fun bitOff numBits v h1 h64 hoff =>
        (ioCacheGet_refines h1 h64 (lt_trans hoff (by norm_num))).exists_run_iff
          (hlater.over hc') v
    refine ⟨hget, fun off bytes v h1 h8 hoff => ?_⟩
    rw [hget _ _ v (by omega) (by omega) hoff, cacheGet_bytes h1, hsize, funext hbyte]

theorem numbered_size : 64 < 2 ^ 61 := by norm_num

/-- Two lines whose bytes hold their own addresses. -/
def numbered : Disk := Disk.ofFn 64 (fun i => UInt8.ofNat i) numbered_size

/-- The byte at 8 copied to 30, after which eight bytes across the two lines are read. -/
theorem physCopy_exact_byte :
    ∃ io', (∃ enough, ∀ turns, enough ≤ turns →
        physCopy .little turns ⟨240, pure 8, false⟩ ⟨64, pure 8, false⟩
          ⟨numbered, ioCacheInit fun _ _ => 0⟩ = .ok (some (), io')) ∧
      ∃ s, ioCacheGet (8 * 28) (8 * 8) io' = .ok (0x232221201f081d1c, s) := by
  have hcopy : Copyable .little (Io.mk numbered (ioCacheInit fun _ _ => 0)).disk
      ⟨240, pure 8, false⟩ ⟨64, pure 8, false⟩ 8 :=
    ⟨rfl, rfl, rfl, rfl, rfl, rfl, rfl, by decide, by decide⟩
  obtain ⟨io', hx, -, -, -, hlater⟩ :=
    physCopy_exact (reachable_init numbered _).coherent hcopy (by decide) (Or.inl (by decide))
  refine ⟨io', hx, ?_⟩
  rw [(hlater io' Later.refl).2 28 8 0x232221201f081d1c (by decide) (by decide) (by decide)]
  exact ⟨by decide, by decide⟩

end Fsl.PhysCopy
