import Fsl.Runtime.Write

/-!
# Runs of the pread runtime

Any sequence of cached reads, field writes and byte writes. Every state of a run has a coherent
cache, and its file holds at each bit what was last written there.
-/

namespace Fsl.Pread

open BitNum

/-- The operations of the runtime on its file. -/
inductive IoOp
  | get (bitOff numBits : ℕ)
  | write (bitOff val numBits : ℕ)
  | writeBytes (buf : List UInt8) (off : ℕ)

namespace IoOp

/-- The arguments the callers pass: 64-bit addresses and fields of 1 to 64 bits, written one bit at
a time or as whole bytes. -/
def Valid : IoOp → Prop
  | get bitOff numBits => 1 ≤ numBits ∧ numBits ≤ 64 ∧ bitOff < 2 ^ 64
  | write bitOff _ numBits => WriteWidth bitOff numBits ∧ bitOff < 2 ^ 64
  | writeBytes _ _ => True

/-- Run one operation; the value of a read is dropped. -/
def exec : IoOp → IoM Unit
  | get bitOff numBits => do let _ ← ioCacheGet bitOff numBits
  | write bitOff val numBits => ioWrite bitOff val numBits
  | writeBytes buf off => ioWriteBytes buf off

/-- The operation touches only the first `size` bytes; a read starts at a byte boundary. -/
def Inside (size : ℕ) : IoOp → Prop
  | get bitOff numBits => bitOff % 8 = 0 ∧ bitOff + numBits ≤ 8 * size
  | write bitOff _ numBits => bitOff + numBits ≤ 8 * size
  | writeBytes buf off => off + buf.length ≤ size

/-- What the operation writes at bit `k` of the disk. -/
def writesBit (k : ℕ) : IoOp → Option Bool
  | get _ _ => none
  | write bitOff val numBits =>
    if bitOff ≤ k ∧ k < bitOff + numBits then some (val.testBit (k - bitOff)) else none
  | writeBytes buf off =>
    if 8 * off ≤ k ∧ k < 8 * (off + buf.length)
    then some ((buf.getD (k / 8 - off) 0).toNat.testBit (k % 8)) else none

end IoOp

/-- The bit last written at `k`, or the original one. -/
def lastBit (ops : List IoOp) (orig : ℕ → Bool) (k : ℕ) : Bool :=
  ops.foldl (fun b op => (op.writesBit k).getD b) (orig k)

/-- `Run d ops io`: the runtime opened the file `d`, ran `ops` and is now in `io`. The memory
behind the cache lines belongs to the counters of the cache and may change at any time. -/
inductive Run (d : Disk) : List IoOp → Io → Prop
  | init (after : Fin 512 → ℕ → UInt8) : Run d [] ⟨d, ioCacheInit after⟩
  | step {ops : List IoOp} {io io' : Io} {op : IoOp} :
      Run d ops io → op.Valid → op.exec io = .ok ((), io') → Run d (ops ++ [op]) io'
  | memory {ops : List IoOp} {io : Io} (after : Fin 512 → ℕ → UInt8) :
      Run d ops io → Run d ops { io with cache := { io.cache with after := after } }

/-- The states that previous reads and writes can lead to. -/
def Io.Reachable (io : Io) : Prop := ∃ d ops, Run d ops io

/-- What one operation leaves behind. -/
theorem exec_spec {op : IoOp} (hv : op.Valid) {io io' : Io} (hc : io.Coherent)
    (h : op.exec io = .ok ((), io')) :
    io'.Coherent ∧ io.disk.size ≤ io'.disk.size ∧
      ∀ k, io'.disk.bit k = (op.writesBit k).getD (io.disk.bit k) := by
  have hover : OverDisk io io.disk := ⟨rfl, hc⟩
  -- a write simulates its effect on the file, from which the three facts are read off
  have hwrite : ∀ {x : IoM Unit} {f : Disk → Except Stop Disk},
      Simulates OverDisk Eq x (update f) → x io = .ok ((), io') →
        io'.Coherent ∧ f io.disk = .ok io'.disk := by
    intro x f hsim hx
    obtain ⟨u, d', hd, -, rfl, hco⟩ := hsim.run_ok hover hx
    refine ⟨hco, ?_⟩
    cases hf : f io.disk with
    | error e => simp [update, hf, Except.map] at hd
    | ok d'' =>
      simp only [update, hf, Except.map, Except.ok.injEq, Prod.mk.injEq, true_and] at hd
      rw [hd]
  cases op with
  | get bitOff numBits =>
    obtain ⟨h1, h64, hoff⟩ := hv
    have hget := ioCacheGet_refines (d := io.disk) h1 h64 (lt_trans hoff (by norm_num))
    have hr : Refines (Over io.disk) (fun _ _ => True) (IoOp.exec (.get bitOff numBits))
        (cacheGet io.disk bitOff numBits >>= fun _ => .ok ()) :=
      Refines.bind hget fun _ _ _ => Refines.pure trivial
    obtain ⟨hd, hco⟩ := hr.run_inv hover h
    refine ⟨hco, by rw [hd], fun k => ?_⟩
    rw [hd]
    rfl
  | write bitOff val numBits =>
    obtain ⟨hw, hlt⟩ := hv
    have hpos := hw.pos
    obtain ⟨hco, hd⟩ := hwrite (ioWrite_simulates val hlt) h
    refine ⟨hco, size_le_diskWrite hd, fun k => ?_⟩
    rw [bit_diskWrite hw hd, IoOp.writesBit]
    split <;> rfl
  | writeBytes buf off =>
    obtain ⟨hco, hd⟩ := hwrite (ioWriteBytes_simulates buf off) h
    refine ⟨hco, Disk.size_le_pwrite hd, fun k => ?_⟩
    rw [bit_pwrite hd, IoOp.writesBit]
    split <;> rfl

theorem Run.spec {d : Disk} {ops : List IoOp} {io : Io} (h : Run d ops io) :
    io.Coherent ∧ d.size ≤ io.disk.size ∧ ∀ k, io.disk.bit k = lastBit ops d.bit k := by
  induction h with
  | init after =>
    exact ⟨DirectMapped.coherent_of_invalid fun _ => rfl, le_rfl, fun _ => rfl⟩
  | step _ hv hx ih =>
    obtain ⟨hc, hs, hb⟩ := ih
    obtain ⟨hc', hs', hb'⟩ := exec_spec hv hc hx
    refine ⟨hc', le_trans hs hs', fun k => ?_⟩
    rw [hb', hb, lastBit, lastBit, List.foldl_append]
    rfl
  | memory after _ ih => exact ih

theorem Io.Reachable.coherent {io : Io} (h : io.Reachable) : io.Coherent := by
  obtain ⟨d, ops, hr⟩ := h
  exact hr.spec.1

theorem reachable_init (d : Disk) (after : Fin 512 → ℕ → UInt8) :
    Io.Reachable ⟨d, ioCacheInit after⟩ := ⟨d, [], Run.init after⟩

/-- An operation inside the part of the file that consists of whole lines does not stop. -/
theorem exec_ok {op : IoOp} (hv : op.Valid) {io : Io} (hc : io.Coherent) {size : ℕ}
    (h32 : 32 ∣ size) (hle : size ≤ io.disk.size) (hin : op.Inside size) :
    ∃ io', op.exec io = .ok ((), io') := by
  have hover : OverDisk io io.disk := ⟨rfl, hc⟩
  obtain ⟨q, hq⟩ := h32
  have hwrite : ∀ {x : IoM Unit} {f : Disk → Except Stop Disk} {d' : Disk},
      Simulates OverDisk Eq x (update f) → f io.disk = .ok d' → ∃ io', x io = .ok ((), io') := by
    intro x f d' hsim hf
    have hu : update f io.disk = .ok ((), d') := by simp [update, hf, Except.map]
    obtain ⟨_, io', hx, -⟩ := hsim.ok_run hover hu
    exact ⟨io', hx⟩
  cases op with
  | get bitOff numBits =>
    obtain ⟨h1, h64, hoff⟩ := hv
    obtain ⟨hal, hend⟩ := hin
    have hget := ioCacheGet_refines (d := io.disk) h1 h64 (lt_trans hoff (by norm_num)) io hover
    have hfull : 32 * ((bitOff + numBits - 1) / 256 + 1) ≤ io.disk.size ∧ bitOff % 8 = 0 := by
      omega
    rw [cacheGet, fslAssert_of hfull] at hget
    obtain ⟨a, io', hx, -, -⟩ := hget
    refine ⟨io', ?_⟩
    simp only [IoOp.exec, bind, StateT.bind, hx, Except.bind, pure, StateT.pure, Except.pure]
  | write bitOff val numBits =>
    obtain ⟨hw, hlt⟩ := hv
    have hpos := hw.pos
    have hend : bitOff + numBits ≤ 8 * size := hin
    obtain ⟨d', hd, -⟩ := diskWrite_of_le io.disk val hw (by omega) (by omega)
    exact hwrite (ioWrite_simulates val hlt) hd
  | writeBytes buf off =>
    have hend : off + buf.length ≤ size := hin
    obtain ⟨d', hd, -⟩ := io.disk.pwrite_of_le buf off (by omega)
    exact hwrite (ioWriteBytes_simulates buf off) hd

/-- A whole-byte read of bytes that the original disk has returns what was last written there. -/
theorem Run.read_eq {d : Disk} {ops : List IoOp} {io : Io} (h : Run d ops io) (h32 : 32 ∣ d.size)
    {off bytes : ℕ} (h1 : 1 ≤ bytes) (h8 : bytes ≤ 8) (hin : off + bytes ≤ d.size) :
    ∃ io', ioCacheGet (8 * off) (8 * bytes) io =
      .ok (ofBits (fun i => lastBit ops d.bit (8 * off + i)) (8 * bytes), io') := by
  obtain ⟨hc, hs, hb⟩ := h.spec
  have hmax := d.size_lt
  have href : Refines (Over io.disk) Eq (ioCacheGet (8 * off) (8 * bytes))
      (cacheGet io.disk (8 * off) (8 * bytes)) :=
    ioCacheGet_refines (by omega) (by omega) (by omega)
  have hfull : 32 * ((8 * off + 8 * bytes - 1) / 256 + 1) ≤ io.disk.size ∧ 8 * off % 8 = 0 := by
    omega
  have hget := href io ⟨rfl, hc⟩
  rw [cacheGet, fslAssert_of hfull] at hget
  obtain ⟨a, io', hx, rfl, -⟩ := hget
  -- a crossing read returns its whole bytes, which are all of them here
  have hwidth : (if 8 * off / 256 = (8 * off + 8 * bytes - 1) / 256 then 8 * bytes
      else 8 * (8 * bytes / 8)) = 8 * bytes := by
    split <;> omega
  rw [hwidth, ofBits_congr fun i _ => hb (8 * off + i)] at hx
  exact ⟨io', hx⟩

/-- In every state of every run each valid entry of the cache sits in the slot of its line and
holds that line of the file, whole-byte reads return what was last written, and no operation
inside the disk stops the process. -/
theorem cache_coherent {d : Disk} (h32 : 32 ∣ d.size) {ops : List IoOp} {io : Io}
    (h : Run d ops io) :
    (∀ i, (io.cache.ents i).addr ≠ invalidAddr →
      (io.cache.ents i).addr % 512 = i ∧
        32 * ((io.cache.ents i).addr + 1) ≤ io.disk.size ∧
        ∀ k : Fin 32, (io.cache.ents i).data k = io.disk.byte (32 * (io.cache.ents i).addr + k)) ∧
    (∀ k, io.disk.bit k = lastBit ops d.bit k) ∧
    (∀ off bytes, 1 ≤ bytes → bytes ≤ 8 → off + bytes ≤ d.size →
      ∃ io', ioCacheGet (8 * off) (8 * bytes) io =
        .ok (ofBits (fun i => lastBit ops d.bit (8 * off + i)) (8 * bytes), io')) ∧
    ∀ op : IoOp, op.Valid → op.Inside d.size → ∃ io', op.exec io = .ok ((), io') := by
  obtain ⟨hc, hs, hb⟩ := h.spec
  refine ⟨fun i hi => ?_, hb, fun off bytes h1 h8 hin => h.read_eq h32 h1 h8 hin,
    fun op hv hin => exec_ok hv hc h32 hs hin⟩
  obtain ⟨hslot, hback⟩ := hc i hi
  refine ⟨?_, ?_⟩
  · exact congrArg Fin.val hslot
  · unfold backing at hback
    split at hback
    · next hfull =>
      refine ⟨hfull, fun k => ?_⟩
      rw [← Option.some.inj hback]
      rfl
    · cases hback

/-- Two cache lines of zeros. -/
def twoLines : Disk := Disk.ofFn 64 (fun _ => 0) (by norm_num)

/-- A run that writes the second byte of the disk, and the first two bytes read after it. -/
theorem cache_coherent_after_write :
    ∃ io io', Run twoLines [.writeBytes [5] 1] io ∧ ioCacheGet 0 16 io = .ok (0x500, io') := by
  have h32 : 32 ∣ twoLines.size := by decide
  have hinit : Run twoLines [] ⟨twoLines, ioCacheInit fun _ _ => 0⟩ := Run.init _
  have hvalid : IoOp.Valid (.writeBytes [5] 1) := trivial
  have hin : IoOp.Inside twoLines.size (.writeBytes [5] 1) := show 1 + 1 ≤ 64 by decide
  obtain ⟨io, hx⟩ := (cache_coherent h32 hinit).2.2.2 _ hvalid hin
  have hrun : Run twoLines [.writeBytes [5] 1] io := Run.step hinit hvalid hx
  obtain ⟨io', hr⟩ := (cache_coherent h32 hrun).2.2.1 0 2 (by decide) (by decide) (by decide)
  have hval : ofBits (fun i => lastBit [.writeBytes [5] 1] twoLines.bit (8 * 0 + i)) (8 * 2) =
      0x500 := by decide
  rw [hval] at hr
  exact ⟨io, io', hrun, hr⟩

end Fsl.Pread
