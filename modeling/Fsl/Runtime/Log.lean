import Fsl.Runtime.Prog

/-!
# The write log

`runtime/log.c`: field writes are collected in a log of `IO_MAX_ACCESS = 64` entries and reach the
file when the log is committed. This file also gives a write its meaning on the bits of the file.
-/

namespace Fsl

open BitNum Pread

/-- `struct fsl_rt_wlog_ent`. -/
structure WlogEnt where
  bitAddr : UInt64
  val : UInt64
  bits : ℕ
  deriving DecidableEq, Repr

/-- `struct fsl_rt_wlog`: `none` is a stopped log (`wl_idx = -1`), `some l` a started one with
`wl_idx = l.length`. The entries past the index are never read. -/
abbrev Wlog := Option (List WlogEnt)

/-- The state of the runtime that relocation uses: the file with its cache, and `io_wlog`. -/
structure Rt where
  io : Io
  wlog : Wlog

abbrev RtM := StateT Rt (Except Stop)

/-- An operation on the file. -/
def onIo {α : Type} (x : IoM α) : RtM α := fun rt =>
  (x rt.io).map fun r => (r.1, { rt with io := r.2 })

/-- `fsl_wlog_init` on `io_wlog`; also `FSL_WRITE_DROP` and `fsl_io_abort_wlog`. -/
def wlogInit : RtM Unit := modify fun rt => { rt with wlog := none }

/-- `fsl_wlog_start`. -/
def wlogStart : RtM Unit := do
  fslAssert ((← get).wlog.isNone)
  modify fun rt => { rt with wlog := some [] }

/-- The entry that `__writeVal` adds. The width is kept in a byte. -/
def writeVal (loc sz val : UInt64) : WlogEnt := ⟨loc, val, sz.toNat % 256⟩

/-- `fsl_wlog_add`. -/
def wlogAdd (we : WlogEnt) : RtM Unit := do
  match (← get).wlog with
  | none => throw Stop.assertion
  | some l => do
    fslAssert (l.length ≠ 64)
    modify fun rt => { rt with wlog := some (l ++ [we]) }

/-- The loop of `fsl_wlog_commit`. -/
def commitEnts : List WlogEnt → IoM Unit
  | [] => pure ()
  | we :: l => do
    ioWrite we.bitAddr.toNat we.val.toNat we.bits
    commitEnts l

/-- `fsl_wlog_commit` on `io_wlog`. -/
def wlogCommit : RtM Unit := do
  match (← get).wlog with
  | none => throw Stop.assertion
  | some l => do
    onIo (commitEnts l)
    modify fun rt => { rt with wlog := some [] }

/-- `fsl_wlog_stop`. -/
def wlogStop : RtM Unit := do
  fslAssert ((← get).wlog = some [])
  modify fun rt => { rt with wlog := none }

/-- `FSL_WRITE_COMPLETE`. -/
def writeComplete : RtM Unit := do
  wlogCommit
  wlogStop

/-- `fsl_io_steal_wlog`: the log is copied out and `io_wlog` is stopped. -/
def ioStealWlog : RtM Wlog := do
  let dst := (← get).wlog
  wlogInit
  return dst

/-- `fsl_wlog_commit` on a log that was stolen. -/
def commitStolen (wl : Wlog) : RtM Unit :=
  match wl with
  | none => throw Stop.assertion
  | some l => onIo (commitEnts l)

/-! ## Writes on the bits of the file -/

/-- The disk of `size` bytes with the given bits. -/
def Disk.ofBitFn (size : ℕ) (f : ℕ → Bool) (h : size < 2 ^ 61) : Disk :=
  Disk.ofFn size (fun i => UInt8.ofNat (ofBits (fun j => f (8 * i + j)) 8)) h

theorem Disk.bit_ofBitFn {size : ℕ} (f : ℕ → Bool) (h : size < 2 ^ 61) {k : ℕ}
    (hk : k < 8 * size) : (Disk.ofBitFn size f h).bit k = f k := by
  have hi : k / 8 < size := by omega
  have hj : k % 8 < 8 := by omega
  have hlt : ofBits (fun j => f (8 * (k / 8) + j)) 8 < 2 ^ 8 := ofBits_lt _ _
  rw [Disk.bit, bitOf, Disk.ofBitFn, Disk.ofFn_byte _ _ _ hi, UInt8.toNat_ofNat',
    Nat.mod_eq_of_lt hlt, testBit_ofBits, decide_eq_true hj, Bool.true_and, Nat.div_add_mod]

theorem Disk.ext_bit {d e : Disk} (hs : d.size = e.size)
    (hb : ∀ k, k < 8 * d.size → d.bit k = e.bit k) : d = e := by
  refine Disk.ext hs fun i => ?_
  by_cases hi : i < d.size
  · refine UInt8.toNat_inj.mp (Nat.eq_of_testBit_eq fun j => ?_)
    by_cases hj : j < 8
    · have hbit := hb (8 * i + j) (by omega)
      have hdiv : (8 * i + j) / 8 = i := by omega
      have hmod : (8 * i + j) % 8 = j := by omega
      rwa [Disk.bit, Disk.bit, bitOf, bitOf, hdiv, hmod] at hbit
    · have hpow : 2 ^ 8 ≤ 2 ^ j := Nat.pow_le_pow_right (by omega) (by omega)
      rw [Nat.testBit_lt_two_pow (lt_of_lt_of_le (UInt8.toNat_lt _) hpow),
        Nat.testBit_lt_two_pow (lt_of_lt_of_le (UInt8.toNat_lt _) hpow)]
  · rw [d.byte_eq_zero i (by omega), e.byte_eq_zero i (by omega)]

/-- The disk with the bits of the field `[off, off + n)` replaced by those of `val`. -/
def Disk.setField (d : Disk) (off val n : ℕ) : Disk :=
  Disk.ofBitFn d.size
    (fun k => if off ≤ k ∧ k < off + n then val.testBit (k - off) else d.bit k) d.size_lt

@[simp] theorem Disk.size_setField (d : Disk) (off val n : ℕ) :
    (d.setField off val n).size = d.size := rfl

theorem Disk.bit_setField (d : Disk) (off val n : ℕ) {k : ℕ} (hk : k < 8 * d.size) :
    (d.setField off val n).bit k =
      if off ≤ k ∧ k < off + n then val.testBit (k - off) else d.bit k :=
  Disk.bit_ofBitFn _ _ hk

namespace WlogEnt

/-- The write has a width that `fsl_io_write` takes and lies on a disk of `size` bytes; the line of
a single bit, which is read first, is complete. -/
def Fits (size : ℕ) (we : WlogEnt) : Prop :=
  WriteWidth we.bitAddr.toNat we.bits ∧ we.bitAddr.toNat + we.bits ≤ 8 * size ∧
    (we.bits = 1 → 32 * (we.bitAddr.toNat / 256 + 1) ≤ size)

/-- The disk after the write. -/
def apply (we : WlogEnt) (d : Disk) : Disk := d.setField we.bitAddr.toNat we.val.toNat we.bits

@[simp] theorem size_apply (we : WlogEnt) (d : Disk) : (we.apply d).size = d.size := rfl

end WlogEnt

/-- The disk after the writes of a log, in the order they were added. -/
def Disk.applyAll (d : Disk) (l : List WlogEnt) : Disk := l.foldl (fun d we => we.apply d) d

@[simp] theorem Disk.applyAll_nil (d : Disk) : d.applyAll [] = d := rfl

@[simp] theorem Disk.applyAll_cons (d : Disk) (we : WlogEnt) (l : List WlogEnt) :
    d.applyAll (we :: l) = (we.apply d).applyAll l := rfl

theorem Disk.size_applyAll (d : Disk) (l : List WlogEnt) : (d.applyAll l).size = d.size := by
  induction l generalizing d with
  | nil => rfl
  | cons we l ih => rw [Disk.applyAll_cons, ih, WlogEnt.size_apply]

/-- A bit that no write of the log covers keeps its value. -/
theorem Disk.bit_applyAll_of_not_mem {d : Disk} {l : List WlogEnt} {k : ℕ} (hk : k < 8 * d.size)
    (h : ∀ we ∈ l, ¬ (we.bitAddr.toNat ≤ k ∧ k < we.bitAddr.toNat + we.bits)) :
    (d.applyAll l).bit k = d.bit k := by
  induction l generalizing d with
  | nil => rfl
  | cons we l ih =>
    obtain ⟨hwe, hl⟩ := List.forall_mem_cons.mp h
    rw [Disk.applyAll_cons, ih (by simpa using hk) hl, WlogEnt.apply, Disk.bit_setField _ _ _ _ hk,
      if_neg hwe]

/-- No bit is written by both. -/
def WlogEnt.Apart (we we' : WlogEnt) : Prop :=
  ∀ k, ¬ (we.bitAddr.toNat ≤ k ∧ k < we.bitAddr.toNat + we.bits ∧
    we'.bitAddr.toNat ≤ k ∧ k < we'.bitAddr.toNat + we'.bits)

/-- Where the writes of a log are apart from each other, each of them is there to be read. -/
theorem Disk.bit_applyAll_of_mem {d : Disk} {l : List WlogEnt} (hl : l.Pairwise WlogEnt.Apart)
    {we : WlogEnt} (hwe : we ∈ l) {k : ℕ} (hk : k < 8 * d.size) (hle : we.bitAddr.toNat ≤ k)
    (hlt : k < we.bitAddr.toNat + we.bits) :
    (d.applyAll l).bit k = we.val.toNat.testBit (k - we.bitAddr.toNat) := by
  induction l generalizing d with
  | nil => cases hwe
  | cons e l ih =>
    obtain ⟨hhead, htail⟩ := List.pairwise_cons.mp hl
    rw [Disk.applyAll_cons]
    rcases List.mem_cons.mp hwe with rfl | hmem
    · have hlater : ∀ e ∈ l, ¬ (e.bitAddr.toNat ≤ k ∧ k < e.bitAddr.toNat + e.bits) :=
        fun e he hcov => hhead e he k ⟨hle, hlt, hcov⟩
      rw [Disk.bit_applyAll_of_not_mem (by simpa using hk) hlater, WlogEnt.apply,
        Disk.bit_setField _ _ _ _ hk, if_pos ⟨hle, hlt⟩]
    · exact ih htail hmem (by simpa using hk)

theorem diskWrite_eq {d : Disk} {we : WlogEnt} (h : we.Fits d.size) :
    diskWrite we.bitAddr.toNat we.val.toNat we.bits d = .ok (we.apply d) := by
  obtain ⟨hw, hin, hline⟩ := h
  obtain ⟨d', hd, hsize⟩ : ∃ d', diskWrite we.bitAddr.toNat we.val.toNat we.bits d = .ok d' ∧
      d'.size = d.size := diskWrite_of_le d _ hw hin hline
  rw [hd]
  refine congrArg Except.ok (Disk.ext_bit hsize fun k hk => ?_)
  rw [hsize] at hk
  rw [bit_diskWrite hw hd, WlogEnt.apply, Disk.bit_setField _ _ _ _ hk]

/-- Committing a log whose entries fit the disk writes them in order, from every coherent cache. -/
theorem commitEnts_ok {io : Io} (hc : io.Coherent) {l : List WlogEnt}
    (hl : ∀ we ∈ l, we.Fits io.disk.size) :
    ∃ io', commitEnts l io = .ok ((), io') ∧ io'.disk = io.disk.applyAll l ∧ io'.Coherent := by
  induction l generalizing io with
  | nil => exact ⟨io, rfl, rfl, hc⟩
  | cons we l ih =>
    obtain ⟨hwe, hrest⟩ := List.forall_mem_cons.mp hl
    have hu : update (diskWrite we.bitAddr.toNat we.val.toNat we.bits) io.disk =
        .ok ((), we.apply io.disk) := by
      rw [update, diskWrite_eq hwe]
      rfl
    obtain ⟨_, io1, hx, -, hdisk, hc1⟩ :=
      (ioWrite_simulates we.val.toNat we.bitAddr.toNat_lt).ok_run ⟨rfl, hc⟩ hu
    obtain ⟨io', hx', hd', hc'⟩ := ih hc1 (by rw [hdisk]; exact hrest)
    refine ⟨io', ?_, ?_, hc'⟩
    · rw [← hx']
      show (ioWrite we.bitAddr.toNat we.val.toNat we.bits io >>= fun p => commitEnts l p.2) = _
      rw [hx]
      rfl
    · rw [hd', hdisk, Disk.applyAll_cons]

end Fsl
