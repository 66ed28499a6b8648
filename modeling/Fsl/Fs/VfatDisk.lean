import Mathlib
import Fsl.Fs.Vfat
import Fsl.Runtime.Fields
import Fsl.Lib.WrapPad

/-!
# A VFAT volume

Where the parts of `disk` in `fs/vfat_type.fsl` lie, what the lookups of `fs/vfat_func.fsl` read there,
and the packets of `fs/vfat.fsl`. The fields of the BPB are given; nothing here writes to the reserved
sectors.
-/

namespace Fsl.Vfat

open Pread

namespace FatType

/-- The width of an entry. -/
def width : FatType → Width
  | fat12 => ⟨12, Width.of12⟩
  | fat16 => ⟨16, Width.of16⟩
  | fat32 => ⟨32, Width.of32⟩

/-- `get_cn_badfat` -/
def badfat : FatType → UInt64
  | fat12 => 0xff7
  | fat16 => 0xfff7
  | fat32 => 0xfffffff7

end FatType

namespace Bpb

variable (b : Bpb) (fatSectors cc : UInt64)

/-! ## The parts of the disk -/

/-- `align_bytes(d_bpb.bytes_per_sector)` -/
def alignSector (cur : UInt64) : UInt64 :=
  cur + (b.bytesPerSector.toUInt64 * 8 - cur) % (b.bytesPerSector.toUInt64 * 8)

/-- `disk.fats[n]` -/
def fats (n : UInt64) : UInt64 :=
  b.bytesPerSector.toUInt64 * b.reservedSectorC.toUInt64 * 8 +
    n * (fatSectors * b.bytesPerSector.toUInt64 * 8)

/-- `disk.root_dir` -/
def rootDir : UInt64 := b.alignSector (b.fats fatSectors b.fatCount.toUInt64)

/-- `disk.clusters` -/
def clusters : UInt64 := b.alignSector (b.rootDir fatSectors + b.rootDeC.toUInt64 * 256)

/-- The bits of a cluster, by `bytes_per_cluster`. -/
def clusterBits : UInt64 := b.sectorsPerCluster.toUInt64 * b.bytesPerSector.toUInt64 * 8

/-- `get_cluster` -/
def getCluster (cn : UInt64) : UInt64 := b.clusters fatSectors + (cn - 2) * b.clusterBits

/-- `disk.fats[n].ent12[cn]`, `disk.fats[n].ent16[cn]` or `disk.fats[n].ent32[cn]` -/
def ent (t : FatType) (n cn : UInt64) : UInt64 := b.fats fatSectors n + cn * t.entBits

/-- `fat_next` -/
def fatNext (cn : UInt64) : Prog UInt64 :=
  Prog.field (b.ent fatSectors (b.fatType cc) 0 cn) (b.fatType cc).width.1 (b.fatType cc).width.2

/-- `is_cluster_avail` -/
def isClusterAvail (cn : UInt64) : Prog Bool := do return (← b.fatNext fatSectors cc cn) == 0

/-- `is_eof` -/
def isEof (cnum : UInt64) : Bool := decide (cnum = (b.fatType cc).eof)

/-- `is_valid_cnum` -/
def isValidCnum (cnum : UInt64) : Bool := decide (2 ≤ cnum) && decide (cnum ≤ (b.fatType cc).max)

/-- `fat_chain_nth_cnum`, with the number of turns that are left, `i - 1`. -/
def fatChainNthCnum : ℕ → UInt64 → Prog UInt64
  | 0, cur => pure cur
  | turns + 1, cur =>
    if b.isEof cc cur then pure cur else b.fatNext fatSectors cc cur >>= fatChainNthCnum turns

/-- The number in `first_cluster_hi` and `first_cluster_lo`. -/
def firstCluster (de : UInt64) : Prog UInt64 := do
  return ((← Prog.field (de + 160) 16) <<< 16) + (← Prog.field (de + 208) 16)

/-- `get_nth_cnum` -/
def getNthCnum (de i : UInt64) : Prog UInt64 :=
  firstCluster de >>= b.fatChainNthCnum fatSectors cc (i.toNat - 1)

/-- `DIR_MASK & de.attr` -/
def dirAttr (de : UInt64) : Prog UInt64 := do return 0x58 &&& (← Prog.field (de + 88) 8)

/-- `is_de_file` -/
def isDeFile (de : UInt64) : Prog Bool := do
  if (← Prog.field (de + 224) 32) ≠ 0xffffffff then return (← dirAttr de) == 0 else return false

/-- `is_de_dir` -/
def isDeDir (de : UInt64) : Prog Bool := do
  if (← Prog.field (de + 224) 32) = 0xffffffff then return false
  if (← dirAttr de) ≠ 0x10 then return false
  return true

/-- `is_back_ref` -/
def isBackRef (de : UInt64) : Prog Bool := do
  if (← Prog.field de 8) = 0x2e then
    if (← Prog.field (de + 8) 8) = 0x20 then return true
    if (← Prog.field (de + 8) 8) = 0x2e then return (← Prog.field (de + 16) 8) == 0x20
  return false

/-- `is_good_dir` -/
def isGoodDir (de : UInt64) : Prog Bool := do
  if (← isDeDir de) = false then return false
  return !(← isBackRef de)

/-- `bytes_per_cluster` -/
def bytesPerCluster : Prog UInt64 :=
  if b.sectorsPerCluster.toUInt64 * b.bytesPerSector.toUInt64 = 0 then throw Stop.assertion
  else pure (b.sectorsPerCluster.toUInt64 * b.bytesPerSector.toUInt64)

/-- The loop of `fat_chain_count`; there is no value before it has ended. -/
def fatChainCount : ℕ → UInt64 → UInt64 → Prog (Option UInt64)
  | 0, _, _ => return none
  | turns + 1, cur, count =>
    if b.isValidCnum cc cur then do
      fatChainCount turns (← b.fatNext fatSectors cc cur) (count + 1)
    else return some count

/-- `de_cluster_count` -/
def deClusterCount (turns : ℕ) (de : UInt64) : Prog (Option UInt64) := do
  let bpc ← b.bytesPerCluster
  if (← Prog.field (de + 224) 32) = 0xffffffff then return some 0
  if 0x10 &&& (← Prog.field (de + 88) 8) ≠ 0 then
    b.fatChainCount fatSectors cc turns (← firstCluster de) 0
  else return some (((← Prog.field (de + 224) 32) + (bpc - 1)) / bpc)

/-! ## The packets -/

/-- The packets that fix the references to a directory that has been moved. -/
inductive Fix
  | writeFixDirRefs | writeFixDotdotN
  deriving DecidableEq, Repr

/-- The packets that relocation needs. -/
inductive Pkt
  | blockAlloc | blockReplace | writeFat | writeFatN | blockRelUpdateDe | fix (w : Fix) | writeDeCn
  | blockRelink
  deriving DecidableEq, Repr

/-- A packet that calls another one. -/
def callTo (w : Pkt) (params : List UInt64 → Prog (List UInt64))
    (cond : List UInt64 → Prog Bool := fun _ => pure true) : WpktCall Pkt := ⟨cond, params, w⟩

/-- Parameters of a packet that has one, two or three of them. -/
def params₁ {α : Type} (f : UInt64 → Prog α) : List UInt64 → Prog α
  | [x] => f x
  | _ => throw Stop.fault

def params₂ {α : Type} (f : UInt64 → UInt64 → Prog α) : List UInt64 → Prog α
  | [x, y] => f x y
  | _ => throw Stop.fault

def params₃ {α : Type} (f : UInt64 → UInt64 → UInt64 → Prog α) : List UInt64 → Prog α
  | [x, y, z] => f x y z
  | _ => throw Stop.fault

/-- A write to a field of a `fat_de` for one type of FAT. -/
def writeDe (t : FatType) (off : UInt64) (f : UInt64 → UInt64) : List UInt64 → Prog (List WlogEnt) :=
  params₂ fun de newCn => writeIf (decide (b.fatType cc = t)) (pure (de + off)) 16 (f newCn)

/-- The packets of `vfat.fsl`. A `fat_de` is given by its offset. `write_fat_n` goes on with the next
FAT. `write_fix_dir_refs` is only called for directories: it is a parameter here, with the packet that it
calls. -/
def pkts (fix : Fix → Wpkt Pkt) : Pkt → Wpkt Pkt
  | .blockAlloc => ⟨[], [callTo .writeFat (params₁ fun cn => pure [cn, (b.fatType cc).badfat])]⟩
  | .blockReplace => ⟨[], [callTo .writeFat (params₁ fun cn => pure [cn, 0])]⟩
  | .writeFat => ⟨[], [callTo .writeFatN (params₂ fun cn v => pure [cn, v, 0])]⟩
  | .writeFatN => ⟨[.fat12, .fat16, .fat32].map fun t => params₃ fun cn val n =>
      writeIf (decide (b.fatType cc = t)) (pure (b.ent fatSectors t n cn)) t.entBits val,
    [callTo .writeFatN (params₃ fun cn val n => pure [cn, val, n + 1])
      (params₃ fun _ _ n => pure (decide (n + 1 < b.fatCount.toUInt64)))]⟩
  | .blockRelUpdateDe => ⟨[], [callTo .writeDeCn (params₂ fun de newCn => pure [de, newCn]),
      callTo (.fix .writeFixDirRefs) (params₂ fun de newCn => pure [de, newCn])
        (params₂ fun de _ => isGoodDir de)]⟩
  | .fix w => fix w
  | .writeDeCn => ⟨[b.writeDe cc .fat12 208 (· &&& 0x0fff), b.writeDe cc .fat16 208 (· &&& 0xffff),
      b.writeDe cc .fat32 208 (· &&& 0xffff), b.writeDe cc .fat12 160 fun _ => 0,
      b.writeDe cc .fat16 160 fun _ => 0, b.writeDe cc .fat32 160 (· >>> 16)], []⟩
  | .blockRelink => ⟨[], [
      callTo .blockRelUpdateDe (params₃ fun de _ newCn => pure [de, newCn])
        (params₃ fun _ fClusOff _ => pure (fClusOff == 1)),
      callTo .writeFat (params₃ fun de fClusOff newCn => do
          return [← b.getNthCnum fatSectors cc de (fClusOff - 1), newCn])
        (params₃ fun _ fClusOff _ => pure (decide (1 < fClusOff))),
      callTo .writeFat (params₃ fun de fClusOff newCn => do
          return [newCn, ← b.getNthCnum fatSectors cc de (fClusOff + 1)])]⟩

/-! ## Consistent counts -/

/-- The sectors of the root directory. -/
def rootDirSectors : ℕ :=
  (b.rootDeC.toNat * 32 + (b.bytesPerSector.toNat - 1)) / b.bytesPerSector.toNat

/-- The sectors before the clusters. -/
def resvSectors : ℕ :=
  b.reservedSectorC.toNat + b.fatCount.toNat * fatSectors.toNat + b.rootDirSectors

/-- The counts can be computed, there are reserved sectors and a FAT, and these and the root directory
are sectors of the volume. -/
structure Consistent (b : Bpb) (fatSectors total cc : UInt64) : Prop where
  fat_run : b.getFatSectors = .ok fatSectors
  total_run : b.getTotalSectors = .ok total
  count_run : b.getClusterCount = .ok cc
  reserved : 1 ≤ b.reservedSectorC.toNat
  fats : 1 ≤ b.fatCount.toNat
  fits : b.resvSectors fatSectors ≤ total.toNat

variable {b : Bpb} {fatSectors total cc : UInt64} {d : Disk} {i j : UInt64} {fix : Fix → Wpkt Pkt}

/-! ## What `write_fat` writes -/

/-- The writes to the entry of `cn` in all FATs. -/
def fatWrites (b : Bpb) (fatSectors cc cn val : UInt64) (ns : List ℕ) : List WlogEnt :=
  ns.map fun n => writeVal (b.ent fatSectors (b.fatType cc) (UInt64.ofNat n) cn)
    (b.fatType cc).entBits val

/-- The statements of `write_fat_n`: one of them writes. -/
theorem run_writeFatN_funcs (cn val n : UInt64) :
    (emitFuncs [cn, val, n] (b.pkts fatSectors cc fix .writeFatN).funcs).run .little d =
      .ok [writeVal (b.ent fatSectors (b.fatType cc) n cn) (b.fatType cc).entBits val] := by
  cases ht : b.fatType cc with
  | fat12 => simp [pkts, params₃, emitFuncs, writeIf, ht]
  | fat16 => simp [pkts, params₃, emitFuncs, writeIf, ht]
  | fat32 => simp [pkts, params₃, emitFuncs, writeIf, ht]

theorem emit_writeFatN {cn val n : UInt64} {k : ℕ} {ws : List WlogEnt}
    (h : (emitCalls (emit (b.pkts fatSectors cc fix) k) [cn, val, n]
      (b.pkts fatSectors cc fix .writeFatN).calls).run .little d = .ok ws) :
    (emit (b.pkts fatSectors cc fix) (k + 1) .writeFatN [cn, val, n]).run .little d =
      .ok (writeVal (b.ent fatSectors (b.fatType cc) n cn) (b.fatType cc).entBits val :: ws) := by
  rw [emit, Prog.run_bind, run_writeFatN_funcs, ok_bind, Prog.run_bind, h]
  rfl

theorem ofNat_succ (n : ℕ) : UInt64.ofNat n + 1 = UInt64.ofNat (n + 1) := by
  rw [UInt64.ofNat_add]
  rfl

theorem ofNat_lt_fatCount_iff {n : ℕ} (hn : n ≤ b.fatCount.toNat) :
    UInt64.ofNat n < b.fatCount.toUInt64 ↔ n < b.fatCount.toNat := by
  have hbound := b.fatCount.toNat_lt
  have hnat : (UInt64.ofNat n).toNat = n := UInt64.toNat_ofNat_of_lt' (show n < 2 ^ 64 by omega)
  rw [UInt64.lt_iff_toNat_lt, hnat]
  exact Iff.rfl

/-- `write_fat_n` goes on with the FATs that follow, and ends after the last one. -/
theorem run_writeFatN (cn val : UInt64) {len k n : ℕ} (hn : n + len + 1 = b.fatCount.toNat)
    (hk : len ≤ k) :
    (emit (b.pkts fatSectors cc fix) (k + 1) .writeFatN [cn, val, UInt64.ofNat n]).run .little d =
      .ok (b.fatWrites fatSectors cc cn val (List.range' n (len + 1))) := by
  have hmore := ofNat_lt_fatCount_iff (b := b) (n := n + 1) (by omega)
  induction len generalizing n k with
  | zero =>
    have hlast : ¬ UInt64.ofNat (n + 1) < b.fatCount.toUInt64 := fun hlt => by
      have := hmore.mp hlt
      omega
    refine emit_writeFatN (run_emitCalls_cons (run_emitCall_false ?_) rfl)
    show Except.ok (decide (UInt64.ofNat n + 1 < b.fatCount.toUInt64)) = _
    rw [ofNat_succ, decide_eq_false hlast]
  | succ len ih =>
    obtain ⟨k, rfl⟩ := Nat.exists_eq_succ_of_ne_zero (show k ≠ 0 by omega)
    have hrest := ih (k := k) (n := n + 1) (by omega) (by omega) (ofNat_lt_fatCount_iff (by omega))
    rw [List.range'_succ, fatWrites, List.map_cons, ← List.append_nil (List.map _ _)]
    refine emit_writeFatN (run_emitCalls_cons (run_emitCall_true ?_ rfl ?_) rfl)
    · show Except.ok (decide (UInt64.ofNat n + 1 < b.fatCount.toUInt64)) = _
      rw [ofNat_succ, decide_eq_true (hmore.mpr (by omega))]
    · rw [ofNat_succ]
      exact hrest

theorem run_writeFat (cn val : UInt64) {k : ℕ} (hcount : 1 ≤ b.fatCount.toNat)
    (hk : b.fatCount.toNat ≤ k + 1) :
    (emit (b.pkts fatSectors cc fix) (k + 2) .writeFat [cn, val]).run .little d =
      .ok (b.fatWrites fatSectors cc cn val (List.range b.fatCount.toNat)) := by
  have hrun : (emit (b.pkts fatSectors cc fix) (k + 1) .writeFatN [cn, val, UInt64.ofNat 0]).run
      .little d = .ok (b.fatWrites fatSectors cc cn val (List.range' 0 (b.fatCount.toNat - 1 + 1))) :=
    run_writeFatN cn val (by omega) (by omega)
  rw [Nat.sub_add_cancel hcount, ← List.range_eq_range'] at hrun
  rw [emit_of_call rfl rfl, ← hrun]
  rfl

/-! ## The layout -/

theorem toNat_total_lt (h : b.getTotalSectors = .ok total) : total.toNat < 2 ^ 32 := by
  obtain ⟨_, -, h⟩ := bind_eq_ok h
  rw [← Except.ok.inj h]
  split_ifs
  · exact b.totalSect16.toNat_lt.trans (by norm_num)
  · exact b.totalSect32.toNat_lt

theorem toNat_fatSectors_lt (h : b.getFatSectors = .ok fatSectors) : fatSectors.toNat < 2 ^ 32 := by
  obtain ⟨_, -, h⟩ := bind_eq_ok h
  rw [← Except.ok.inj h]
  split_ifs
  · exact b.sectorsInFat16.toNat_lt.trans (by norm_num)
  · exact b.sectorsInFat32.toNat_lt

theorem udiv_ok {x y z : UInt64} (h : udiv x y = .ok z) : y ≠ 0 ∧ z = x / y := by
  unfold udiv at h
  by_cases hy : y = 0
  · rw [if_pos hy] at h
    cases h
  · rw [if_neg hy] at h
    exact ⟨hy, (Except.ok.inj h).symm⟩

theorem toNat_rootDirSectors (hpos : 0 < b.bytesPerSector.toNat) :
    ((b.rootDeC.toUInt64 * 32 + (b.bytesPerSector.toUInt64 - 1)) / b.bytesPerSector.toUInt64).toNat =
      b.rootDirSectors := by
  have hbps := b.bytesPerSector.toNat_lt
  have hroot := b.rootDeC.toNat_lt
  have hsub : (b.bytesPerSector.toUInt64 - 1).toNat = b.bytesPerSector.toNat - 1 :=
    UInt64.toNat_sub_of_le _ _ (UInt64.le_iff_toNat_le.mpr hpos)
  rw [UInt64.toNat_div, UInt64.toNat_add, UInt64.toNat_mul, hsub]
  show (b.rootDeC.toNat * 32 % 2 ^ 64 + (b.bytesPerSector.toNat - 1)) % 2 ^ 64 /
    b.bytesPerSector.toNat = _
  rw [Nat.mod_eq_of_lt (show b.rootDeC.toNat * 32 < 2 ^ 64 by omega), Nat.mod_eq_of_lt (by omega)]
  rfl

/-- The product of two counts. -/
theorem toNat_mul_of_lt {x y : UInt64} {k l : ℕ} (hx : x.toNat < 2 ^ k) (hy : y.toNat < 2 ^ l)
    (h : k + l ≤ 64) : (x * y).toNat = x.toNat * y.toNat ∧ x.toNat * y.toNat < 2 ^ (k + l) := by
  have hlt : x.toNat * y.toNat < 2 ^ (k + l) := by
    rw [pow_add]
    exact Nat.mul_lt_mul'' hx hy
  refine ⟨?_, hlt⟩
  rw [UInt64.toNat_mul]
  exact Nat.mod_eq_of_lt (hlt.trans_le (Nat.pow_le_pow_right (by omega) h))

theorem rootDirSectors_lt (b : Bpb) : b.rootDirSectors < 2 ^ 22 := by
  have hbps := b.bytesPerSector.toNat_lt
  have hroot := b.rootDeC.toNat_lt
  have hle := Nat.div_le_self (b.rootDeC.toNat * 32 + (b.bytesPerSector.toNat - 1))
    b.bytesPerSector.toNat
  unfold rootDirSectors
  omega

theorem toNat_resvSectors (hpos : 0 < b.bytesPerSector.toNat) (hfat : fatSectors.toNat < 2 ^ 32) :
    (b.reservedSectorC.toUInt64 + b.fatCount.toUInt64 * fatSectors +
      (b.rootDeC.toUInt64 * 32 + (b.bytesPerSector.toUInt64 - 1)) /
        b.bytesPerSector.toUInt64).toNat = b.resvSectors fatSectors := by
  have hresv := b.reservedSectorC.toNat_lt
  have hroot := b.rootDirSectors_lt
  obtain ⟨hmul, hlt⟩ := toNat_mul_of_lt (x := b.fatCount.toUInt64) b.fatCount.toNat_lt hfat (by omega)
  rw [UInt64.toNat_add, UInt64.toNat_add, toNat_rootDirSectors hpos, hmul]
  show ((b.reservedSectorC.toNat + b.fatCount.toNat * fatSectors.toNat) % 2 ^ 64 +
    b.rootDirSectors) % 2 ^ 64 = _
  change b.fatCount.toNat * fatSectors.toNat < 2 ^ (8 + 32) at hlt
  rw [Nat.mod_eq_of_lt (show b.reservedSectorC.toNat + b.fatCount.toNat * fatSectors.toNat < 2 ^ 64 by
    omega), Nat.mod_eq_of_lt (by omega)]
  rfl

/-- The clusters are sectors of the volume. -/
theorem Consistent.clusters_le (h : Consistent b fatSectors total cc) :
    0 < b.bytesPerSector.toNat ∧ 0 < b.sectorsPerCluster.toNat ∧
      b.resvSectors fatSectors + cc.toNat * b.sectorsPerCluster.toNat ≤ total.toNat := by
  have hcount := h.count_run
  rw [getClusterCount, h.fat_run, ok_bind, h.total_run, ok_bind] at hcount
  obtain ⟨root, hroot, hcount⟩ := bind_eq_ok hcount
  obtain ⟨clusterC, hclusters, hcount⟩ := bind_eq_ok hcount
  obtain ⟨_, -, hcount⟩ := bind_eq_ok hcount
  obtain rfl := Except.ok.inj hcount
  obtain ⟨hbps, rfl⟩ := udiv_ok hroot
  obtain ⟨hspc, rfl⟩ := udiv_ok hclusters
  have hpos : 0 < b.bytesPerSector.toNat :=
    Nat.pos_of_ne_zero fun h0 => hbps (UInt64.toNat_inj.mp h0)
  have hpos' : 0 < b.sectorsPerCluster.toNat :=
    Nat.pos_of_ne_zero fun h0 => hspc (UInt64.toNat_inj.mp h0)
  have hresv := toNat_resvSectors hpos (toNat_fatSectors_lt h.fat_run)
  refine ⟨hpos, hpos', ?_⟩
  have hfits := h.fits
  rw [← hresv] at hfits
  rw [UInt64.toNat_div, UInt64.toNat_sub_of_le _ _ (UInt64.le_iff_toNat_le.mpr hfits), hresv]
  have hdiv := Nat.div_mul_le_self (total.toNat - b.resvSectors fatSectors)
    b.sectorsPerCluster.toNat
  have hle := h.fits
  show b.resvSectors fatSectors + (total.toNat - b.resvSectors fatSectors) /
    b.sectorsPerCluster.toNat * b.sectorsPerCluster.toNat ≤ total.toNat
  omega

/-- The bits of a sector. -/
def sectorBits (b : Bpb) : ℕ := b.bytesPerSector.toNat * 8

theorem toNat_sectorBits (b : Bpb) : (b.bytesPerSector.toUInt64 * 8).toNat = b.sectorBits := by
  have hbps := b.bytesPerSector.toNat_lt
  rw [UInt64.toNat_mul]
  exact Nat.mod_eq_of_lt (show b.bytesPerSector.toNat * 8 < 2 ^ 64 by omega)

theorem sectorBits_lt (b : Bpb) : b.sectorBits < 2 ^ 19 := by
  have hbps := b.bytesPerSector.toNat_lt
  unfold sectorBits
  omega

/-- The FATs lie one after the other behind the reserved sectors. -/
theorem toNat_fats (hfat : fatSectors.toNat < 2 ^ 32) {n : UInt64} (hn : n.toNat < 2 ^ 8) :
    (b.fats fatSectors n).toNat =
        b.sectorBits * (b.reservedSectorC.toNat + n.toNat * fatSectors.toNat) ∧
      (b.fats fatSectors n).toNat < 2 ^ 61 := by
  have height : (8 : UInt64).toNat = 8 := rfl
  have height_lt : (8 : UInt64).toNat < 2 ^ 4 := by decide
  obtain ⟨hresv, hresv_lt⟩ := toNat_mul_of_lt (x := b.bytesPerSector.toUInt64)
    (y := b.reservedSectorC.toUInt64) b.bytesPerSector.toNat_lt b.reservedSectorC.toNat_lt (by omega)
  obtain ⟨hbase, hbase_lt⟩ := toNat_mul_of_lt (hresv ▸ hresv_lt) height_lt (by omega)
  obtain ⟨hsize, hsize_lt⟩ := toNat_mul_of_lt (y := b.bytesPerSector.toUInt64) hfat
    b.bytesPerSector.toNat_lt (by omega)
  obtain ⟨hbits, hbits_lt⟩ := toNat_mul_of_lt (hsize ▸ hsize_lt) height_lt (by omega)
  obtain ⟨hskip, hskip_lt⟩ := toNat_mul_of_lt hn (hbits ▸ hbits_lt) (by omega)
  rw [hresv, height] at hbase hbase_lt
  rw [hbits, hsize, height] at hskip hskip_lt
  have hsum : (b.fats fatSectors n).toNat =
      b.bytesPerSector.toUInt64.toNat * b.reservedSectorC.toUInt64.toNat * 8 +
        n.toNat * (fatSectors.toNat * b.bytesPerSector.toUInt64.toNat * 8) := by
    rw [fats, UInt64.toNat_add, hbase, hskip]
    exact Nat.mod_eq_of_lt (by omega)
  refine ⟨?_, by omega⟩
  rw [hsum]
  show b.bytesPerSector.toNat * b.reservedSectorC.toNat * 8 +
    n.toNat * (fatSectors.toNat * b.bytesPerSector.toNat * 8) = _
  unfold sectorBits
  ring

theorem toNat_alignSector (b : Bpb) (cur : UInt64) : (b.alignSector cur).toNat =
    (cur.toNat + WrapPad.wrapPad (2 ^ 64) b.sectorBits cur.toNat) % 2 ^ 64 := by
  rw [alignSector, UInt64.toNat_add, UInt64.toNat_mod, UInt64.toNat_sub, toNat_sectorBits]
  rfl

/-- How far an aligned place that is beyond the first sector lies behind the beginning of a sector. -/
def slack (b : Bpb) : ℕ := 2 ^ 64 % b.sectorBits

/-- A run of `s` positions has one place of each remainder. -/
theorem eq_of_mul_add_mem {s r x a c : ℕ} (ha : x ≤ s * a + r) (ha' : s * a + r < x + s)
    (hc : x ≤ s * c + r) (hc' : s * c + r < x + s) : a = c := by
  rcases Nat.lt_trichotomy a c with hlt | heq | hlt
  · have hle := Nat.mul_le_mul_left s (Nat.succ_le_of_lt hlt)
    rw [Nat.mul_succ] at hle
    omega
  · exact heq
  · have hle := Nat.mul_le_mul_left s (Nat.succ_le_of_lt hlt)
    rw [Nat.mul_succ] at hle
    omega

theorem toNat_alignSector_far {cur : UInt64} {t : ℕ} (hcur : b.sectorBits < cur.toNat)
    (hend : cur.toNat + b.sectorBits ≤ 2 ^ 64) (hle : cur.toNat ≤ b.sectorBits * t + b.slack)
    (hlt : b.sectorBits * t + b.slack < cur.toNat + b.sectorBits) :
    (b.alignSector cur).toNat = b.sectorBits * t + b.slack := by
  have hpos : 0 < b.sectorBits := by omega
  obtain ⟨hle', hlt', hmod⟩ := WrapPad.add_wrapPad_far hpos hcur hend
  rw [← toNat_alignSector] at hle' hlt' hmod
  have hdiv := Nat.div_add_mod (b.alignSector cur).toNat b.sectorBits
  rw [hmod] at hdiv
  rw [← hdiv] at hle' hlt' ⊢
  rw [eq_of_mul_add_mem hle' hlt' hle hlt]
  rfl

/-- The root directory fills its sectors up to the last one. -/
theorem rootDirSectors_bounds (hpos : 0 < b.bytesPerSector.toNat) :
    b.rootDeC.toNat * 256 ≤ b.sectorBits * b.rootDirSectors ∧
      b.sectorBits * b.rootDirSectors < b.rootDeC.toNat * 256 + b.sectorBits := by
  have hdiv := Nat.div_add_mod (b.rootDeC.toNat * 32 + (b.bytesPerSector.toNat - 1))
    b.bytesPerSector.toNat
  have hmod := Nat.mod_lt (b.rootDeC.toNat * 32 + (b.bytesPerSector.toNat - 1)) hpos
  change b.bytesPerSector.toNat * b.rootDirSectors + _ = _ at hdiv
  rw [sectorBits, Nat.mul_right_comm]
  omega

theorem fatSectors_pos (h : b.getFatSectors = .ok fatSectors) : 1 ≤ fatSectors.toNat := by
  obtain ⟨_, hne, h⟩ := bind_eq_ok h
  rw [Except.ok.inj h] at hne
  by_cases hzero : fatSectors = 0
  · rw [fslAssert, if_neg (not_not.mpr hzero)] at hne
    cases hne
  · exact Nat.one_le_iff_ne_zero.mpr fun h0 => hzero (UInt64.toNat_inj.mp h0)

/-- Cluster numbers are below `2 ^ 32`, and none is the last one of these. -/
theorem Consistent.count_lt (h : Consistent b fatSectors total cc) : cc.toNat + 2 < 2 ^ 32 := by
  obtain ⟨-, hspc, hclusters⟩ := h.clusters_le
  have htotal := toNat_total_lt h.total_run
  have hcc : cc.toNat ≤ cc.toNat * b.sectorsPerCluster.toNat := Nat.le_mul_of_pos_right _ hspc
  have hfats := Nat.mul_le_mul h.fats (fatSectors_pos h.fat_run)
  have hresv := h.reserved
  unfold resvSectors at hclusters
  omega

/-- Where the FATs end. -/
def fatsEnd (b : Bpb) (fatSectors : UInt64) : ℕ :=
  b.sectorBits * (b.reservedSectorC.toNat + b.fatCount.toNat * fatSectors.toNat)

theorem Consistent.slack_lt (h : Consistent b fatSectors total cc) : b.slack < b.sectorBits :=
  Nat.mod_lt _ (Nat.mul_pos h.clusters_le.1 (by norm_num))

theorem toNat_fatsEnd (hfat : fatSectors.toNat < 2 ^ 32) :
    (b.fats fatSectors b.fatCount.toUInt64).toNat = b.fatsEnd fatSectors ∧
      b.fatsEnd fatSectors < 2 ^ 61 := by
  obtain ⟨hfats, hlt⟩ := toNat_fats (b := b) hfat (n := b.fatCount.toUInt64) b.fatCount.toNat_lt
  exact ⟨hfats, hfats.symm.trans_lt hlt⟩

/-- The FATs end behind the second sector. -/
theorem Consistent.two_sectors_le (h : Consistent b fatSectors total cc) :
    b.sectorBits * 2 ≤ b.fatsEnd fatSectors :=
  Nat.mul_le_mul_left _ (Nat.add_le_add h.reserved
    (Nat.mul_le_mul h.fats (fatSectors_pos h.fat_run)))

theorem Consistent.toNat_rootDir (h : Consistent b fatSectors total cc) :
    (b.rootDir fatSectors).toNat = b.fatsEnd fatSectors + b.slack := by
  have hslack := h.slack_lt
  have hsector := b.sectorBits_lt
  have hfar := h.two_sectors_le
  obtain ⟨hfats, hlt⟩ := toNat_fatsEnd (b := b) (toNat_fatSectors_lt h.fat_run)
  have hend : b.fatsEnd fatSectors = b.sectorBits * (b.reservedSectorC.toNat +
    b.fatCount.toNat * fatSectors.toNat) := rfl
  rw [hend] at hfats hlt hfar ⊢
  rw [rootDir, toNat_alignSector_far] <;> omega

theorem resvSectors_eq (b : Bpb) (fatSectors : UInt64) : b.sectorBits * b.resvSectors fatSectors =
    b.fatsEnd fatSectors + b.sectorBits * b.rootDirSectors := Nat.mul_add _ _ _

/-- The clusters begin at the end of the reserved sectors, up to the slack. -/
theorem Consistent.toNat_clusters (h : Consistent b fatSectors total cc) :
    (b.clusters fatSectors).toNat = b.sectorBits * b.resvSectors fatSectors + b.slack := by
  obtain ⟨hbps, -, -⟩ := h.clusters_le
  have hslack := h.slack_lt
  have hsector := b.sectorBits_lt
  have hroot := h.toNat_rootDir
  have hfats_lt := (toNat_fatsEnd (b := b) (toNat_fatSectors_lt h.fat_run)).2
  have hfar := h.two_sectors_le
  have hdir := rootDirSectors_bounds hbps
  have hdes := b.rootDeC.toNat_lt
  have hcur : (b.rootDir fatSectors + b.rootDeC.toUInt64 * 256).toNat =
      (b.rootDir fatSectors).toNat + b.rootDeC.toNat * 256 := by
    have hmul : (b.rootDeC.toUInt64 * 256).toNat = b.rootDeC.toNat * 256 := by
      rw [UInt64.toNat_mul]
      exact Nat.mod_eq_of_lt (show b.rootDeC.toNat * 256 < 2 ^ 64 by omega)
    rw [UInt64.toNat_add, hmul, Nat.mod_eq_of_lt (by omega)]
  have hresv := b.resvSectors_eq fatSectors
  rw [clusters, toNat_alignSector_far (t := b.resvSectors fatSectors)]
  all_goals rw [hcur, hroot]
  all_goals omega

theorem toNat_clusterBits (b : Bpb) :
    b.clusterBits.toNat = b.sectorsPerCluster.toNat * b.sectorBits ∧
      b.sectorsPerCluster.toNat * b.sectorBits < 2 ^ 27 := by
  have hspc := b.sectorsPerCluster.toNat_lt
  have hsector := b.sectorBits_lt
  have hlt : b.sectorsPerCluster.toNat * b.sectorBits < 2 ^ 27 := by
    calc b.sectorsPerCluster.toNat * b.sectorBits < 2 ^ 8 * 2 ^ 19 := Nat.mul_lt_mul'' hspc hsector
      _ = 2 ^ 27 := by norm_num
  refine ⟨?_, hlt⟩
  rw [clusterBits, UInt64.mul_assoc, UInt64.toNat_mul, toNat_sectorBits]
  exact Nat.mod_eq_of_lt (show b.sectorsPerCluster.toNat * b.sectorBits < 2 ^ 64 by omega)

/-- Clusters are counted from 2. -/
theorem Consistent.toNat_getCluster (h : Consistent b fatSectors total cc) (hlo : 2 ≤ i.toNat)
    (hlt : i.toNat < cc.toNat + 2) :
    (b.getCluster fatSectors i).toNat = b.sectorBits * b.resvSectors fatSectors + b.slack +
      (i.toNat - 2) * (b.sectorsPerCluster.toNat * b.sectorBits) := by
  obtain ⟨hbps, hspc, hclusters⟩ := h.clusters_le
  have hpos : 0 < b.sectorBits := Nat.mul_pos hbps (by norm_num)
  have hslack : b.slack < b.sectorBits := Nat.mod_lt _ hpos
  have htotal := toNat_total_lt h.total_run
  have hsector := b.sectorBits_lt
  obtain ⟨hsize, hsize_lt⟩ := b.toNat_clusterBits
  have hsub : (i - 2).toNat = i.toNat - 2 :=
    UInt64.toNat_sub_of_le _ _ (UInt64.le_iff_toNat_le.mpr hlo)
  have hcc : cc.toNat ≤ cc.toNat * b.sectorsPerCluster.toNat := Nat.le_mul_of_pos_right _ hspc
  obtain ⟨hskip, hskip_lt⟩ := toNat_mul_of_lt (x := i - 2) (y := b.clusterBits) (k := 32) (l := 27)
    (by omega) (by omega) (by omega)
  rw [hsub, hsize] at hskip hskip_lt
  have hresv : b.sectorBits * b.resvSectors fatSectors < 2 ^ 19 * 2 ^ 32 :=
    Nat.mul_lt_mul'' hsector (by omega)
  rw [getCluster, UInt64.toNat_add, h.toNat_clusters, hskip]
  exact Nat.mod_eq_of_lt (by omega)

/-! ## The entries of the FATs -/

/-- The bits of an entry. -/
def entWidth (b : Bpb) (cc : UInt64) : ℕ := (b.fatType cc).entBits.toNat

/-- Where entry `i` of FAT `n` lies. -/
def entAt (b : Bpb) (fatSectors cc : UInt64) (n i : ℕ) : ℕ :=
  b.sectorBits * (b.reservedSectorC.toNat + n * fatSectors.toNat) + i * b.entWidth cc

/-- Entry `i` lies in its FAT. -/
def HasEnt (b : Bpb) (fatSectors cc : UInt64) (i : ℕ) : Prop :=
  (i + 1) * b.entWidth cc ≤ b.sectorBits * fatSectors.toNat

theorem entWidth_lt (b : Bpb) (cc : UInt64) : b.entWidth cc < 2 ^ 6 := by
  unfold entWidth
  cases b.fatType cc <;> decide

theorem toNat_ent (hfat : fatSectors.toNat < 2 ^ 32) {n : UInt64} (hn : n.toNat < 2 ^ 8)
    (hi : i.toNat < 2 ^ 32) :
    (b.ent fatSectors (b.fatType cc) n i).toNat = b.entAt fatSectors cc n.toNat i.toNat := by
  obtain ⟨hbase, hbase_lt⟩ := toNat_fats (b := b) hfat hn
  obtain ⟨hskip, hskip_lt⟩ := toNat_mul_of_lt hi (b.entWidth_lt cc) (by omega)
  rw [ent, UInt64.toNat_add, hskip, entAt, ← hbase]
  exact Nat.mod_eq_of_lt (by omega)

/-- The entries of a FAT end before the next one begins. -/
theorem entAt_add_le {n k : ℕ} (hi : b.HasEnt fatSectors cc k) :
    b.entAt fatSectors cc n k + b.entWidth cc ≤
      b.sectorBits * (b.reservedSectorC.toNat + (n + 1) * fatSectors.toNat) := by
  unfold HasEnt at hi
  rw [Nat.succ_mul] at hi
  rw [entAt, Nat.succ_mul, ← Nat.add_assoc, Nat.mul_add _ (_ + _)]
  omega

theorem entAt_mono {n m k : ℕ} (h : n ≤ m) :
    b.sectorBits * (b.reservedSectorC.toNat + n * fatSectors.toNat) ≤ b.entAt fatSectors cc m k :=
  (Nat.mul_le_mul_left _ (Nat.add_le_add_left (Nat.mul_le_mul_right _ h) _)).trans
    (Nat.le_add_right _ _)

/-- Different entries are apart, in one FAT or in two. -/
theorem entAt_apart {n m k l : ℕ} (hk : b.HasEnt fatSectors cc k) (hl : b.HasEnt fatSectors cc l)
    (hne : n ≠ m ∨ k ≠ l) :
    Apart (b.entWidth cc) (b.entAt fatSectors cc n k) (b.entAt fatSectors cc m l) := by
  rcases Nat.lt_trichotomy n m with hlt | rfl | hlt
  · exact Or.inl ((entAt_add_le hk).trans (entAt_mono hlt))
  · exact apart_mul _ _ (hne.resolve_left fun h => h rfl)
  · exact Or.inr ((entAt_add_le hl).trans (entAt_mono hlt))

end Bpb

end Fsl.Vfat
