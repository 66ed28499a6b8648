import Mathlib
import Fsl.Fs.VfatDisk
import Fsl.Lib.Linked

/-!
# Relocation on a VFAT volume

The three packets of the `relocate` statements of `fat_de`, run by `wpkt_relocate`, exchange one cluster
in the chain of a regular file for a free one.
-/

namespace Fsl.Vfat.Bpb

open Pread Linked

/-! ## The image -/

/-- A FAT16 or FAT32 volume that passes the assertions of `disk` and whose clusters lie on the disk. -/
structure OnDisk (b : Bpb) (fatSectors total cc : UInt64) (d : Disk) : Prop
    extends Consistent b fatSectors total cc where
  asserts : b.asserts = .ok true
  wide : b.fatType cc ≠ .fat12
  lines : 32 ∣ d.size
  inside : (b.clusters fatSectors).toNat + cc.toNat * b.clusterBits.toNat ≤ 8 * d.size

variable (b : Bpb) (fatSectors cc : UInt64)

/-- A cluster of the volume, with its entry. -/
structure InRange (x : ℕ) : Prop where
  two_le : 2 ≤ x
  lt : x < cc.toNat + 2
  hasEnt : b.HasEnt fatSectors cc x

/-- All FATs are copies of the table `f`. -/
def FatIs (d : Disk) (f : ℕ → ℕ) : Prop :=
  ∀ n x, n < b.fatCount.toNat → b.HasEnt fatSectors cc x →
    d.num (b.entAt fatSectors cc n x) (b.entWidth cc) = f x

/-- Where cluster `x` lies. -/
def clusterAt (x : ℕ) : ℕ := (b.getCluster fatSectors (UInt64.ofNat x)).toNat

/-- A directory entry lies in the root directory, or in a cluster that is in use but not by the file
with the chain `c`. -/
inductive DeAt (f : ℕ → ℕ) (c : ℕ → ℕ) (m : ℕ) : UInt64 → Prop
  | root {de : UInt64} (k : ℕ) (hk : k < b.rootDeC.toNat)
      (hde : de.toNat = (b.rootDir fatSectors).toNat + k * 256) : DeAt f c m de
  | cluster {de : UInt64} (x k : ℕ) (hx : InRange b fatSectors cc x) (hused : f x ≠ 0)
      (hnot : ∀ i, 1 ≤ i → i ≤ m → c i ≠ x) (hk : (k + 1) * 256 ≤ b.clusterBits.toNat)
      (hde : de.toNat = b.clusterAt fatSectors x + k * 256) : DeAt f c m de

/-- A regular file with the chain `c 1, …, c m`, whose last entry `c (m + 1)` is not a cluster number. -/
structure RegularFile (d : Disk) (f : ℕ → ℕ) (de : UInt64) (c : ℕ → ℕ) (m : ℕ) : Prop where
  copies : b.FatIs fatSectors cc d f
  place : b.DeAt fatSectors cc f c m de
  regular : (isDeFile de).run .little d = .ok true
  start : (firstCluster de).run .little d = .ok (UInt64.ofNat (c 1))
  pos : 1 ≤ m
  range : ∀ i, 1 ≤ i → i ≤ m → b.InRange fatSectors cc (c i)
  list : IsList f c m
  ended : b.isValidCnum cc (UInt64.ofNat (c (m + 1))) = false

/-- A cluster as a type info. -/
def clusterInfo (cn : UInt64) : TypeInfo := ⟨b.getCluster fatSectors cn, pure b.clusterBits, false⟩

/-- The `relocate` statements `reloc` and `defrag` for the entry `de`. -/
def reloc (de : UInt64) : Reloc Pkt where
  choice i := pure (some (b.clusterInfo fatSectors i))
  alloc := ⟨params₁ fun i => pure [i], .blockAlloc⟩
  replace := ⟨params₁ fun j => do return [← b.getNthCnum fatSectors cc de j], .blockReplace⟩
  relink := ⟨params₂ fun j i => pure [de, j, i], .blockRelink⟩

/-- What relocating the `j`-th cluster to cluster `a` promises: the chain read from the entry has `a` in
this place and the same end; in every FAT the old cluster is free and the entries of no other cluster
have changed; the data of the file is the same. -/
structure Relocated (d e : Disk) (f : ℕ → ℕ) (de : UInt64) (c : ℕ → ℕ) (m j a : ℕ) : Prop where
  chain : ∀ i : UInt64, 1 ≤ i.toNat → i.toNat ≤ m + 1 →
    (b.getNthCnum fatSectors cc de i).run .little e =
      .ok (UInt64.ofNat (Function.update c j a i.toNat))
  fats : b.FatIs fatSectors cc e (exchange f c j a 0)
  data : ∀ i, 1 ≤ i → i ≤ m → ∀ k, k < b.clusterBits.toNat →
    e.bit (b.clusterAt fatSectors (Function.update c j a i) + k) =
      d.bit (b.clusterAt fatSectors (c i) + k)

variable {b fatSectors cc} {total : UInt64} {d e : Disk} {f : ℕ → ℕ} {de : UInt64} {c : ℕ → ℕ}
  {m j x y : ℕ} {fix : Fix → Wpkt Pkt}

/-! ## Widths and places -/

theorem OnDisk.of_size (h : OnDisk b fatSectors total cc d) (hsize : e.size = d.size) :
    OnDisk b fatSectors total cc e :=
  ⟨h.toConsistent, h.asserts, h.wide, hsize ▸ h.lines, hsize ▸ h.inside⟩

theorem OnDisk.entWidth_cases (h : OnDisk b fatSectors total cc d) :
    b.entWidth cc = 16 ∨ b.entWidth cc = 32 := by
  have hwide := h.wide
  unfold entWidth
  cases hty : b.fatType cc with
  | fat12 => exact absurd hty hwide
  | fat16 => exact Or.inl rfl
  | fat32 => exact Or.inr rfl

/-- The assertion on `bytes_per_sector`: sectors are runs of 512 bytes. -/
theorem OnDisk.dvd_sectorBits (h : OnDisk b fatSectors total cc d) : 4096 ∣ b.sectorBits := by
  obtain ⟨_, -, hasserts⟩ := bind_eq_ok h.asserts
  obtain ⟨_, -, hasserts⟩ := bind_eq_ok hasserts
  obtain ⟨_, -, hasserts⟩ := bind_eq_ok hasserts
  have hand := Except.ok.inj hasserts
  simp only [Bool.and_eq_true, beq_iff_eq] at hand
  have hmod := congrArg UInt64.toNat hand.1.1
  rw [UInt64.toNat_and] at hmod
  change b.bytesPerSector.toNat &&& 2 ^ 9 - 1 = 0 at hmod
  rw [Nat.and_two_pow_sub_one_eq_mod] at hmod
  unfold sectorBits
  omega

theorem OnDisk.dvd_slack (h : OnDisk b fatSectors total cc d) : 4096 ∣ b.slack :=
  (Nat.dvd_mod_iff h.dvd_sectorBits).mpr (by norm_num)

theorem InRange.toNat_ofNat (h : OnDisk b fatSectors total cc d) (hx : b.InRange fatSectors cc x) :
    (UInt64.ofNat x).toNat = x := by
  have hcount := h.count_lt
  have hlt := hx.lt
  exact UInt64.toNat_ofNat_of_lt' (show x < 2 ^ 64 by omega)

theorem count_lt_of_fat16 (hty : b.fatType cc = .fat16) : cc.toNat < 65525 := by
  unfold fatType at hty
  split_ifs at hty with _ _ h16
  exact UInt64.lt_iff_toNat_lt.mp h16

/-- Cluster numbers fit an entry. -/
theorem InRange.lt_two_pow (h : OnDisk b fatSectors total cc d) (hx : b.InRange fatSectors cc x) :
    x < 2 ^ b.entWidth cc := by
  have hcount := h.count_lt
  have hlt := hx.lt
  have hwide := h.wide
  unfold entWidth
  cases hty : b.fatType cc with
  | fat12 => exact absurd hty hwide
  | fat16 =>
    have h16 := count_lt_of_fat16 hty
    exact show x < 2 ^ 16 by omega
  | fat32 => exact show x < 2 ^ 32 by omega

/-- Clusters lie on the disk, behind the root directory. -/
theorem OnDisk.getCluster_bounds (h : OnDisk b fatSectors total cc d) {cn : UInt64}
    (hlo : 2 ≤ cn.toNat) (hlt : cn.toNat < cc.toNat + 2) :
    (b.getCluster fatSectors cn).toNat =
        (b.clusters fatSectors).toNat + (cn.toNat - 2) * b.clusterBits.toNat ∧
      (b.getCluster fatSectors cn).toNat + b.clusterBits.toNat ≤ 8 * d.size := by
  have heq : (b.getCluster fatSectors cn).toNat =
      (b.clusters fatSectors).toNat + (cn.toNat - 2) * b.clusterBits.toNat := by
    rw [h.toNat_getCluster hlo hlt, h.toNat_clusters, b.toNat_clusterBits.1]
  have hmul := Nat.mul_le_mul_right b.clusterBits.toNat (show cn.toNat - 2 + 1 ≤ cc.toNat by omega)
  have hinside := h.inside
  rw [Nat.succ_mul] at hmul
  exact ⟨heq, by omega⟩

theorem InRange.clusterAt_eq (h : OnDisk b fatSectors total cc d) (hx : b.InRange fatSectors cc x) :
    b.clusterAt fatSectors x =
      (b.clusters fatSectors).toNat + (x - 2) * b.clusterBits.toNat := by
  have hnat := hx.toNat_ofNat h
  rw [clusterAt, (h.getCluster_bounds (hnat.symm ▸ hx.two_le) (hnat.symm ▸ hx.lt)).1, hnat]

theorem InRange.clusterAt_bounds (h : OnDisk b fatSectors total cc d)
    (hx : b.InRange fatSectors cc x) :
    (b.clusters fatSectors).toNat ≤ b.clusterAt fatSectors x ∧
      b.clusterAt fatSectors x + b.clusterBits.toNat ≤ 8 * d.size := by
  have hnat := hx.toNat_ofNat h
  rw [hx.clusterAt_eq h]
  refine ⟨Nat.le_add_right _ _, ?_⟩
  rw [← hx.clusterAt_eq h]
  exact (h.getCluster_bounds (hnat.symm ▸ hx.two_le) (hnat.symm ▸ hx.lt)).2

theorem InRange.apart (h : OnDisk b fatSectors total cc d) (hx : b.InRange fatSectors cc x)
    (hy : b.InRange fatSectors cc y) (hne : x ≠ y) :
    Apart b.clusterBits.toNat (b.clusterAt fatSectors x) (b.clusterAt fatSectors y) := by
  have hlo := hx.two_le
  have hlo' := hy.two_le
  rw [hx.clusterAt_eq h, hy.clusterAt_eq h]
  exact apart_mul _ _ (by omega)

theorem OnDisk.dvd_clusterBits (h : OnDisk b fatSectors total cc d) : 4096 ∣ b.clusterBits.toNat := by
  rw [b.toNat_clusterBits.1]
  exact Dvd.dvd.mul_left h.dvd_sectorBits _

/-- Clusters begin and end at byte boundaries. -/
theorem InRange.dvd_clusterAt (h : OnDisk b fatSectors total cc d) (hx : b.InRange fatSectors cc x) :
    4096 ∣ b.clusterAt fatSectors x := by
  rw [hx.clusterAt_eq h, h.toNat_clusters]
  exact Nat.dvd_add (Nat.dvd_add (Dvd.dvd.mul_right h.dvd_sectorBits _) h.dvd_slack)
    (Dvd.dvd.mul_left h.dvd_clusterBits _)

/-- The FATs, and the root directory behind them, end before the clusters. -/
theorem Consistent.fatsEnd_le (h : Consistent b fatSectors total cc) :
    b.fatsEnd fatSectors ≤ (b.rootDir fatSectors).toNat ∧
      (b.rootDir fatSectors).toNat + b.rootDeC.toNat * 256 ≤ (b.clusters fatSectors).toNat := by
  have hdir := rootDirSectors_bounds h.clusters_le.1
  rw [h.toNat_rootDir, h.toNat_clusters, b.resvSectors_eq]
  exact ⟨Nat.le_add_right _ _, by omega⟩

/-! ## Writing to the FATs -/

/-- The writes of `write_fat` on all FATs. -/
def allFats (b : Bpb) (fatSectors cc cn val : UInt64) : List WlogEnt :=
  b.fatWrites fatSectors cc cn val (List.range b.fatCount.toNat)

theorem entAt_bounds {n : ℕ} (hn : n < b.fatCount.toNat) (hx : b.HasEnt fatSectors cc x) :
    b.sectorBits * b.reservedSectorC.toNat ≤ b.entAt fatSectors cc n x ∧
      b.entAt fatSectors cc n x + b.entWidth cc ≤ b.fatsEnd fatSectors := by
  have hfirst : b.sectorBits * (b.reservedSectorC.toNat + 0 * fatSectors.toNat) ≤
      b.entAt fatSectors cc n x := entAt_mono (Nat.zero_le n)
  rw [Nat.zero_mul, Nat.add_zero] at hfirst
  refine ⟨hfirst, (entAt_add_le hx).trans ?_⟩
  exact Nat.mul_le_mul_left _ (Nat.add_le_add_left (Nat.mul_le_mul_right _ hn) _)

/-- Entries of 16 and of 32 bits lie at byte boundaries. -/
theorem OnDisk.dvd_entAt (h : OnDisk b fatSectors total cc d) (n x : ℕ) :
    8 ∣ b.entAt fatSectors cc n x := by
  refine Nat.dvd_add (Dvd.dvd.mul_right ?_ _) (Dvd.dvd.mul_left ?_ _)
  · exact (show 8 ∣ 4096 by norm_num).trans h.dvd_sectorBits
  · rcases h.entWidth_cases with hw | hw <;> rw [hw] <;> norm_num

/-- One of these writes, as a write of an entry. -/
theorem OnDisk.writeVal_ent (h : OnDisk b fatSectors total cc d) {cn : UInt64}
    (hx : b.InRange fatSectors cc cn.toNat) {n : ℕ} (hn : n < b.fatCount.toNat) (val : UInt64) :
    (writeVal (b.ent fatSectors (b.fatType cc) (UInt64.ofNat n) cn) (b.fatType cc).entBits
        val).bitAddr.toNat = b.entAt fatSectors cc n cn.toNat ∧
      (writeVal (b.ent fatSectors (b.fatType cc) (UInt64.ofNat n) cn) (b.fatType cc).entBits
        val).bits = b.entWidth cc := by
  have hcount := b.fatCount.toNat_lt
  have hcc := h.count_lt
  have hlt := hx.lt
  have hnat : (UInt64.ofNat n).toNat = n := UInt64.toNat_ofNat_of_lt' (show n < 2 ^ 64 by omega)
  have hwidth := b.entWidth_lt cc
  constructor
  · show (b.ent fatSectors (b.fatType cc) (UInt64.ofNat n) cn).toNat = _
    rw [toNat_ent (toNat_fatSectors_lt h.fat_run) (by omega) (by omega), hnat]
  · exact Nat.mod_eq_of_lt (show b.entWidth cc < 256 by omega)

/-- The writes of `write_fat` update the table in all FATs. -/
theorem FatIs.write (h : OnDisk b fatSectors total cc d) (hf : b.FatIs fatSectors cc d f)
    {cn : UInt64} (hx : b.InRange fatSectors cc cn.toNat) (val : UInt64) :
    b.FatIs fatSectors cc (d.applyAll (b.allFats fatSectors cc cn val))
      (Function.update f cn.toNat (val.toNat % 2 ^ b.entWidth cc)) := by
  have hend := h.fatsEnd_le
  have hinside := h.inside
  intro n y hn hy
  by_cases heq : y = cn.toNat
  · rw [heq, Function.update_self, allFats, fatWrites]
    refine Disk.num_applyAll_map (a := fun n => b.entAt fatSectors cc n cn.toNat) List.nodup_range
      (fun k hk => ?_) (fun k _ l _ hne => entAt_apart hx.hasEnt hx.hasEnt (Or.inl hne))
      (fun k hk => ?_) (List.mem_range.mpr hn)
    · obtain ⟨haddr, hbits⟩ := h.writeVal_ent hx (List.mem_range.mp hk) val
      exact ⟨haddr, hbits, rfl⟩
    · have hbound := (entAt_bounds (List.mem_range.mp hk) hx.hasEnt).2
      show b.entAt fatSectors cc k cn.toNat + b.entWidth cc ≤ _
      omega
  · rw [Function.update_of_ne heq, ← hf n y hn hy]
    refine Disk.num_applyAll_of_apart fun we hwe => ?_
    obtain ⟨k, hk, rfl⟩ := List.mem_map.mp hwe
    obtain ⟨haddr, hbits⟩ := h.writeVal_ent hx (List.mem_range.mp hk) val
    rw [haddr, hbits]
    exact entAt_apart hy hx.hasEnt (Or.inr heq)

/-- They stay within the FATs. -/
theorem OnDisk.bit_allFats (h : OnDisk b fatSectors total cc d) {cn : UInt64}
    (hx : b.InRange fatSectors cc cn.toNat) (val : UInt64) {k : ℕ}
    (hk : b.fatsEnd fatSectors ≤ k) :
    (d.applyAll (b.allFats fatSectors cc cn val)).bit k = d.bit k := by
  refine Disk.bit_applyAll_of_apart fun we hwe => Or.inr ?_
  obtain ⟨n, hn, rfl⟩ := List.mem_map.mp hwe
  obtain ⟨haddr, hbits⟩ := h.writeVal_ent hx (List.mem_range.mp hn) val
  rw [haddr, hbits]
  exact (entAt_bounds (List.mem_range.mp hn) hx.hasEnt).2.trans hk

theorem OnDisk.allFats_fits (h : OnDisk b fatSectors total cc d) {cn : UInt64}
    (hx : b.InRange fatSectors cc cn.toNat) (val : UInt64) :
    ∀ we ∈ b.allFats fatSectors cc cn val, we.Fits d.size := by
  intro we hwe
  obtain ⟨n, hn, rfl⟩ := List.mem_map.mp hwe
  obtain ⟨haddr, hbits⟩ := h.writeVal_ent hx (List.mem_range.mp hn) val
  have hbound := (entAt_bounds (List.mem_range.mp hn) hx.hasEnt).2
  have hend := h.fatsEnd_le
  have hinside := h.inside
  have hwidth := h.entWidth_cases
  refine ⟨?_, ?_, ?_⟩
  · rw [haddr, hbits]
    exact Or.inr ⟨Nat.mod_eq_zero_of_dvd (h.dvd_entAt _ _), by omega, by omega, by omega⟩
  · rw [haddr, hbits]
    omega
  · rw [hbits]
    omega

theorem length_allFats (b : Bpb) (fatSectors cc cn val : UInt64) :
    (b.allFats fatSectors cc cn val).length = b.fatCount.toNat := by
  rw [allFats, fatWrites, List.length_map, List.length_range]

/-! ## Reading the FATs -/

theorem run_fatNext (h : OnDisk b fatSectors total cc d) (hf : b.FatIs fatSectors cc d f)
    (hx : b.InRange fatSectors cc x) :
    (b.fatNext fatSectors cc (UInt64.ofNat x)).run .little d = .ok (UInt64.ofNat (f x)) := by
  have hnat := hx.toNat_ofNat h
  have hcc := h.count_lt
  have hlt := hx.lt
  have hend := h.fatsEnd_le
  have hinside := h.inside
  have hwidth : (b.fatType cc).width.1 = b.entWidth cc := by
    unfold entWidth
    cases b.fatType cc <;> rfl
  have haddr : (b.ent fatSectors (b.fatType cc) 0 (UInt64.ofNat x)).toNat =
      b.entAt fatSectors cc 0 x := by
    rw [toNat_ent (toNat_fatSectors_lt h.fat_run) (by decide) (by omega), hnat]
    rfl
  have hbound := (entAt_bounds h.fats hx.hasEnt).2
  have hw : WriteWidth (b.ent fatSectors (b.fatType cc) 0 (UInt64.ofNat x)).toNat
      (b.fatType cc).width.1 := by
    rw [haddr, hwidth]
    have hcases := h.entWidth_cases
    exact Or.inr ⟨Nat.mod_eq_zero_of_dvd (h.dvd_entAt _ _), by omega, by omega, by omega⟩
  rw [fatNext, Prog.run_field_num h.lines _ hw, haddr, hwidth, if_pos (by omega),
    hf 0 x h.fats hx.hasEnt]

/-- No cluster number is the end mark of `is_eof`. -/
theorem isEof_eq_false (h : OnDisk b fatSectors total cc d) (hx : b.InRange fatSectors cc x) :
    b.isEof cc (UInt64.ofNat x) = false := by
  have hcc := h.count_lt
  have hlt := hx.lt
  refine decide_eq_false fun heq => ?_
  have hnat := congrArg UInt64.toNat heq
  rw [hx.toNat_ofNat h] at hnat
  cases hty : b.fatType cc with
  | fat12 => exact h.wide hty
  | fat32 =>
    rw [hty] at hnat
    change x = 4294967295 at hnat
    omega
  | fat16 =>
    have hcount := count_lt_of_fat16 hty
    rw [hty] at hnat
    change x = 65535 at hnat
    omega

/-- `fat_chain_nth_cnum` follows the links. -/
theorem run_fatChainNthCnum (h : OnDisk b fatSectors total cc d) (hf : b.FatIs fatSectors cc d f)
    {s turns : ℕ} (hrange : ∀ i, s ≤ i → i < s + turns → b.InRange fatSectors cc (c i))
    (hlink : ∀ i, s ≤ i → i < s + turns → f (c i) = c (i + 1)) :
    (b.fatChainNthCnum fatSectors cc turns (UInt64.ofNat (c s))).run .little d =
      .ok (UInt64.ofNat (c (s + turns))) := by
  induction turns generalizing s with
  | zero => rfl
  | succ turns ih =>
    have hx := hrange s le_rfl (by omega)
    rw [fatChainNthCnum, isEof_eq_false h hx, if_neg Bool.false_ne_true, Prog.run_bind,
      run_fatNext h hf hx, ok_bind, hlink s le_rfl (by omega), show s + (turns + 1) = s + 1 + turns by
        omega]
    exact ih (fun i hi hlt => hrange i (by omega) (by omega)) fun i hi hlt =>
      hlink i (by omega) (by omega)

theorem run_getNthCnum (h : OnDisk b fatSectors total cc d) (hf : b.FatIs fatSectors cc d f)
    (hstart : (firstCluster de).run .little d = .ok (UInt64.ofNat (c 1))) {i : UInt64}
    (hi : 1 ≤ i.toNat) (hrange : ∀ k, 1 ≤ k → k < i.toNat → b.InRange fatSectors cc (c k))
    (hlink : ∀ k, 1 ≤ k → k < i.toNat → f (c k) = c (k + 1)) :
    (b.getNthCnum fatSectors cc de i).run .little d = .ok (UInt64.ofNat (c i.toNat)) := by
  have hturns : 1 + (i.toNat - 1) = i.toNat := by omega
  have hchain : (b.fatChainNthCnum fatSectors cc (i.toNat - 1) (UInt64.ofNat (c 1))).run .little d =
      .ok (UInt64.ofNat (c (1 + (i.toNat - 1)))) :=
    run_fatChainNthCnum h hf (fun k hk hlt => hrange k hk (by omega)) fun k hk hlt =>
      hlink k hk (by omega)
  rw [hturns] at hchain
  rw [getNthCnum, Prog.run_bind, hstart, ok_bind, hchain]

/-! ## The directory entry -/

/-- A place for a directory entry: at a byte boundary, behind the FATs, on the disk. -/
structure DeIn (b : Bpb) (fatSectors : UInt64) (d : Disk) (de : UInt64) : Prop where
  aligned : 8 ∣ de.toNat
  behind : b.fatsEnd fatSectors ≤ de.toNat
  inside : de.toNat + 256 ≤ 8 * d.size

theorem DeAt.deIn (h : OnDisk b fatSectors total cc d) (hde : b.DeAt fatSectors cc f c m de) :
    b.DeIn fatSectors d de := by
  have hend := h.fatsEnd_le
  have hinside := h.inside
  have h8 : ∀ {k}, 4096 ∣ k → 8 ∣ k := (show 8 ∣ 4096 by norm_num).trans
  cases hde with
  | root k hk hde =>
    have hroot : 4096 ∣ (b.rootDir fatSectors).toNat := by
      rw [h.toNat_rootDir]
      exact Nat.dvd_add (Dvd.dvd.mul_right h.dvd_sectorBits _) h.dvd_slack
    refine ⟨?_, by omega, by omega⟩
    rw [hde]
    exact Nat.dvd_add (h8 hroot) (Dvd.dvd.mul_left (by norm_num) _)
  | cluster x k hx _ _ hk hde =>
    have hbounds := hx.clusterAt_bounds h
    refine ⟨?_, by omega, by omega⟩
    rw [hde]
    exact Nat.dvd_add (h8 (hx.dvd_clusterAt h)) (Dvd.dvd.mul_left (by norm_num) _)

/-- The entry is apart from the clusters of the file and from free ones. -/
theorem DeAt.apart (h : OnDisk b fatSectors total cc d) (hde : b.DeAt fatSectors cc f c m de)
    (hx : b.InRange fatSectors cc x) (hother : f x = 0 ∨ ∃ i, 1 ≤ i ∧ i ≤ m ∧ c i = x) :
    b.clusterAt fatSectors x + b.clusterBits.toNat ≤ de.toNat ∨
      de.toNat + 256 ≤ b.clusterAt fatSectors x := by
  have hend := h.fatsEnd_le
  have hbounds := hx.clusterAt_bounds h
  cases hde with
  | root k hk hde => exact Or.inr (by omega)
  | cluster y k hy hused hnot hk hde =>
    have hne : x ≠ y := by
      rintro rfl
      rcases hother with hfree | ⟨i, hi, him, heq⟩
      · exact hused hfree
      · exact hnot i hi him heq
    rcases hx.apart h hy hne with hle | hle
    · exact Or.inl (by omega)
    · exact Or.inr (by omega)

/-- A field of an entry that lies on the disk. -/
theorem run_field_of_inside (haligned : 8 ∣ de.toNat) (hinside : de.toNat + 256 ≤ 8 * d.size)
    (hlines : 32 ∣ d.size) (off : UInt64) {k n : ℕ} (hoff : off.toNat = k) (hn : 1 ≤ n ∧ n ≤ 64)
    (hk : k + n ≤ 256 ∧ 8 ∣ k ∧ 8 ∣ n) :
    (Prog.field (de + off) n hn).run .little d = .ok (UInt64.ofNat (d.num (de.toNat + k) n)) := by
  have hsize := d.size_lt
  have haddr : (de + off).toNat = de.toNat + k := by
    rw [UInt64.toNat_add, hoff]
    exact Nat.mod_eq_of_lt (by omega)
  have hw : WriteWidth (de + off).toNat n := by
    rw [haddr]
    exact Or.inr (by omega)
  rw [Prog.run_field_num hlines hn hw, haddr, if_pos (by omega)]

theorem DeIn.run_field (hde : b.DeIn fatSectors d de) (hlines : 32 ∣ d.size) (off : UInt64)
    {k n : ℕ} (hoff : off.toNat = k) (hn : 1 ≤ n ∧ n ≤ 64) (hk : k + n ≤ 256 ∧ 8 ∣ k ∧ 8 ∣ n) :
    (Prog.field (de + off) n hn).run .little d = .ok (UInt64.ofNat (d.num (de.toNat + k) n)) :=
  run_field_of_inside hde.aligned hde.inside hlines off hoff hn hk

/-- What an entry says depends on its bits alone. -/
theorem run_firstCluster_of_inside (haligned : 8 ∣ de.toNat) (hinside : de.toNat + 256 ≤ 8 * d.size)
    (hlines : 32 ∣ d.size) : (firstCluster de).run .little d =
      .ok (UInt64.ofNat (d.num (de.toNat + 160) 16) <<< 16 +
        UInt64.ofNat (d.num (de.toNat + 208) 16)) := by
  have hhi := run_field_of_inside haligned hinside hlines 160 (k := 160) rfl Width.of16 (by decide)
  have hlo := run_field_of_inside haligned hinside hlines 208 (k := 208) rfl Width.of16 (by decide)
  rw [firstCluster, Prog.run_bind, hhi, ok_bind, Prog.run_bind, hlo]
  rfl

theorem DeIn.run_firstCluster (hde : b.DeIn fatSectors d de) (hlines : 32 ∣ d.size) :
    (firstCluster de).run .little d = .ok (UInt64.ofNat (d.num (de.toNat + 160) 16) <<< 16 +
      UInt64.ofNat (d.num (de.toNat + 208) 16)) :=
  run_firstCluster_of_inside hde.aligned hde.inside hlines

theorem DeIn.run_isDeFile_iff (hde : b.DeIn fatSectors d de) (hlines : 32 ∣ d.size) :
    (isDeFile de).run .little d = .ok true ↔
      UInt64.ofNat (d.num (de.toNat + 224) 32) ≠ 0xffffffff ∧
        0x58 &&& UInt64.ofNat (d.num (de.toNat + 88) 8) = 0 := by
  have hsize := hde.run_field hlines 224 (k := 224) rfl Width.of32 (by decide)
  have hattr := hde.run_field hlines 88 (k := 88) rfl Width.of8 (by decide)
  rw [isDeFile, Prog.run_bind, hsize, ok_bind]
  by_cases hfull : UInt64.ofNat (d.num (de.toNat + 224) 32) = 0xffffffff
  · rw [if_neg (not_not.mpr hfull)]
    simp [hfull]
  · rw [if_pos hfull, Prog.run_bind, dirAttr, Prog.run_bind, hattr]
    simp [hfull]

/-- A regular file is no directory that needs its references fixed. -/
theorem DeIn.run_isGoodDir (hde : b.DeIn fatSectors d de) (hlines : 32 ∣ d.size)
    (hfile : (isDeFile de).run .little d = .ok true) :
    (isGoodDir de).run .little d = .ok false := by
  obtain ⟨hfull, hattr⟩ := (hde.run_isDeFile_iff hlines).mp hfile
  have hread := hde.run_field hlines 224 (k := 224) rfl Width.of32 (by decide)
  have hread' := hde.run_field hlines 88 (k := 88) rfl Width.of8 (by decide)
  have hdir : (isDeDir de).run .little d = .ok false := by
    rw [isDeDir, Prog.run_bind, hread, ok_bind]
    simp [hfull, hattr, dirAttr, Prog.run_bind, hread']
  rw [isGoodDir, Prog.run_bind, hdir]
  rfl

/-- Disks with the same bits in the entry have the same regular file there. -/
theorem DeIn.congr (hde : b.DeIn fatSectors d de) (hlines : 32 ∣ d.size) (hsize : e.size = d.size)
    (hbits : ∀ k, de.toNat ≤ k → k < de.toNat + 256 → e.bit k = d.bit k) :
    (firstCluster de).run .little e = (firstCluster de).run .little d ∧
      ((isDeFile de).run .little e = .ok true ↔ (isDeFile de).run .little d = .ok true) := by
  have hde' : b.DeIn fatSectors e de := ⟨hde.aligned, hde.behind, hsize ▸ hde.inside⟩
  have hnum : ∀ {off n}, off + n ≤ 256 → e.num (de.toNat + off) n = d.num (de.toNat + off) n :=
    fun hoff => Disk.num_congr fun k hk hk' => hbits k (by omega) (by omega)
  rw [hde.run_firstCluster hlines, hde'.run_firstCluster (hsize ▸ hlines),
    hde.run_isDeFile_iff hlines, hde'.run_isDeFile_iff (hsize ▸ hlines), hnum (by norm_num),
    hnum (by norm_num), hnum (by norm_num), hnum (by norm_num)]
  exact ⟨rfl, Iff.rfl⟩

/-! ## Writing the directory entry -/

/-- What `write_de_cn` writes for a FAT16 or FAT32. -/
def deWrites (b : Bpb) (cc de newCn : UInt64) : List WlogEnt :=
  [writeVal (de + 208) 16 (newCn &&& 0xffff),
    writeVal (de + 160) 16 (if b.fatType cc = .fat32 then newCn >>> 16 else 0)]

theorem run_writeDeCn (hwide : b.fatType cc ≠ .fat12) (de newCn : UInt64) (k : ℕ) :
    (emit (b.pkts fatSectors cc fix) (k + 1) .writeDeCn [de, newCn]).run .little d =
      .ok (b.deWrites cc de newCn) := by
  rw [emit_no_calls rfl]
  cases hty : b.fatType cc with
  | fat12 => exact absurd hty hwide
  | fat16 => simp [pkts, writeDe, params₂, emitFuncs, writeIf, deWrites, hty]
  | fat32 => simp [pkts, writeDe, params₂, emitFuncs, writeIf, deWrites, hty]

theorem run_blockRelUpdateDe (hwide : b.fatType cc ≠ .fat12) {de : UInt64}
    (hgood : (isGoodDir de).run .little d = .ok false) (newCn : UInt64) (k : ℕ) :
    (emit (b.pkts fatSectors cc fix) (k + 2) .blockRelUpdateDe [de, newCn]).run .little d =
      .ok (b.deWrites cc de newCn) := by
  have hwrite : (emit (b.pkts fatSectors cc fix) (k + 1) .writeDeCn [de, newCn]).run .little d =
      .ok (b.deWrites cc de newCn) := run_writeDeCn hwide de newCn k
  refine run_emit_calls rfl ?_
  rw [← List.append_nil (b.deWrites cc de newCn)]
  exact run_emitCalls_cons (run_emitCall_true rfl rfl hwrite)
    (run_emitCalls_cons (run_emitCall_false hgood) rfl)

/-- A word from its halves. -/
theorem shiftLeft_add_low {v high : UInt64} (hhigh : high.toNat % 2 ^ 16 = v.toNat / 2 ^ 16)
    (hv : v.toNat < 2 ^ 32) : UInt64.ofNat (high.toNat % 2 ^ 16) <<< 16 +
      UInt64.ofNat ((v &&& 0xffff).toNat % 2 ^ 16) = v := by
  have hdiv := Nat.div_add_mod v.toNat (2 ^ 16)
  have hlow : (v &&& 0xffff).toNat = v.toNat % 2 ^ 16 := by
    rw [UInt64.toNat_and]
    exact Nat.and_two_pow_sub_one_eq_mod _ 16
  have hnat : (UInt64.ofNat (v.toNat / 2 ^ 16) <<< 16).toNat = v.toNat / 2 ^ 16 * 2 ^ 16 := by
    rw [UInt64.toNat_shiftLeft, UInt64.toNat_ofNat_of_lt' (show v.toNat / 2 ^ 16 < 2 ^ 64 by omega)]
    show (v.toNat / 2 ^ 16) <<< 16 % 2 ^ 64 = _
    rw [Nat.shiftLeft_eq]
    exact Nat.mod_eq_of_lt (by omega)
  refine UInt64.toNat_inj.mp ?_
  rw [hhigh, hlow, Nat.mod_mod, UInt64.toNat_add, hnat,
    UInt64.toNat_ofNat_of_lt' (show v.toNat % 2 ^ 16 < 2 ^ 64 by omega)]
  omega

theorem writeVal_half_fits {addr val : UInt64} {size : ℕ} (h8 : 8 ∣ addr.toNat)
    (hin : addr.toNat + 16 ≤ 8 * size) : (writeVal addr 16 val).Fits size :=
  ⟨Or.inr ⟨Nat.mod_eq_zero_of_dvd h8, show 16 % 8 = 0 by norm_num, show 8 ≤ 16 by norm_num,
    show 16 ≤ 64 by norm_num⟩, hin, fun h1 => absurd (show 16 = 1 from h1) (by norm_num)⟩

/-- The entry then has the new number, and nothing else has changed. -/
theorem deWrites_spec (h : OnDisk b fatSectors total cc d) (haligned : 8 ∣ de.toNat)
    (hinside : de.toNat + 256 ≤ 8 * d.size) (hx : b.InRange fatSectors cc x) :
    (firstCluster de).run .little (d.applyAll (b.deWrites cc de (UInt64.ofNat x))) =
        .ok (UInt64.ofNat x) ∧
      (∀ k, k < de.toNat ∨ de.toNat + 256 ≤ k →
        (d.applyAll (b.deWrites cc de (UInt64.ofNat x))).bit k = d.bit k) ∧
      ∀ we ∈ b.deWrites cc de (UInt64.ofNat x), we.Fits d.size := by
  have hsize := d.size_lt
  have hnat := hx.toNat_ofNat h
  have hpow := hx.lt_two_pow h
  have haddr : ∀ k : UInt64, k.toNat ≤ 208 → (de + k).toNat = de.toNat + k.toNat := fun k hk => by
    rw [UInt64.toNat_add]
    exact Nat.mod_eq_of_lt (by omega)
  have hlo : (de + 208).toNat = de.toNat + 208 := haddr 208 (by decide)
  have hhi : (de + 160).toNat = de.toNat + 160 := haddr 160 (by decide)
  generalize hnew : UInt64.ofNat x = newCn at hnat ⊢
  set high : UInt64 := if b.fatType cc = .fat32 then newCn >>> 16 else 0 with hhigh
  have happly : d.applyAll (b.deWrites cc de newCn) =
      (d.setField (de + 208).toNat (newCn &&& 0xffff).toNat 16).setField (de + 160).toNat
        high.toNat 16 := rfl
  refine ⟨?_, ?_, ?_⟩
  · rw [run_firstCluster_of_inside haligned (by rw [Disk.size_applyAll]; exact hinside)
        (by rw [Disk.size_applyAll]; exact h.lines), happly, hlo, hhi,
      Disk.num_setField_self (by rw [Disk.size_setField]; omega),
      Disk.num_setField_of_disjoint (by omega), Disk.num_setField_self (by omega)]
    refine congrArg Except.ok (shiftLeft_add_low ?_ ?_)
    · rw [hhigh]
      unfold entWidth at hpow
      split
      case isTrue h32 =>
        rw [h32] at hpow
        change x < 2 ^ 32 at hpow
        rw [UInt64.toNat_shiftRight]
        show newCn.toNat >>> 16 % 2 ^ 16 = _
        rw [Nat.shiftRight_eq_div_pow]
        omega
      case isFalse h32 =>
        have hlt : x < 2 ^ 16 := by
          cases hty : b.fatType cc with
          | fat12 => exact absurd hty h.wide
          | fat16 =>
            rw [hty] at hpow
            exact hpow
          | fat32 => exact absurd hty h32
        show 0 % 2 ^ 16 = _
        omega
    · have hw := h.entWidth_cases
      rcases hw with hw | hw <;> rw [hw] at hpow <;> omega
  · intro k hk
    refine Disk.bit_applyAll_of_apart fun we hwe => ?_
    rcases List.mem_pair.mp hwe with rfl | rfl
    · show k < (de + 208).toNat ∨ (de + 208).toNat + 16 ≤ k
      omega
    · show k < (de + 160).toNat ∨ (de + 160).toNat + 16 ≤ k
      omega
  · intro we hwe
    rcases List.mem_pair.mp hwe with rfl | rfl
    · exact writeVal_half_fits (by omega) (by omega)
    · exact writeVal_half_fits (by omega) (by omega)

/-! ## The steps -/

/-- The table depends on the bits of the FATs alone. -/
theorem FatIs.congr (hf : b.FatIs fatSectors cc d f)
    (hbits : ∀ k, k < b.fatsEnd fatSectors → e.bit k = d.bit k) : b.FatIs fatSectors cc e f := by
  intro n y hn hy
  rw [← hf n y hn hy]
  have hbound := (entAt_bounds hn hy).2
  exact Disk.num_congr fun k hk hk' => hbits k (by omega)

/-- The disk after `typeinfo_phys_copy` of cluster `x` to cluster `y`. -/
def copyCluster (b : Bpb) (fatSectors : UInt64) (d : Disk) (x y : ℕ) : Disk :=
  d.copyBlock (b.clusterAt fatSectors x / 8) (b.clusterAt fatSectors y / 8) (b.clusterBits.toNat / 8)

theorem copyCluster_spec (h : OnDisk b fatSectors total cc d) (hx : b.InRange fatSectors cc x)
    (hy : b.InRange fatSectors cc y) (hne : x ≠ y) :
    (b.copyCluster fatSectors d x y).size = d.size ∧
      (∀ k, k < b.clusterBits.toNat → (b.copyCluster fatSectors d x y).bit
        (b.clusterAt fatSectors y + k) = d.bit (b.clusterAt fatSectors x + k)) ∧
      ∀ k, k < b.clusterAt fatSectors y ∨ b.clusterAt fatSectors y + b.clusterBits.toNat ≤ k →
        (b.copyCluster fatSectors d x y).bit k = d.bit k := by
  have hbounds := hy.clusterAt_bounds h
  have hsrc := hx.dvd_clusterAt h
  have hdst := hy.dvd_clusterAt h
  have hbits := h.dvd_clusterBits
  have hapart : Apart b.clusterBits.toNat (b.clusterAt fatSectors x) (b.clusterAt fatSectors y) :=
    hx.apart h hy hne
  unfold Apart at hapart
  have hdisj : b.clusterAt fatSectors x / 8 + b.clusterBits.toNat / 8 ≤
      b.clusterAt fatSectors y / 8 ∨ b.clusterAt fatSectors y / 8 + b.clusterBits.toNat / 8 ≤
        b.clusterAt fatSectors x / 8 := by
    omega
  have hin : b.clusterAt fatSectors y / 8 + b.clusterBits.toNat / 8 ≤ d.size := by omega
  refine ⟨Disk.size_copyBlock _ _ _ _, fun k hk => ?_, fun k hk => ?_⟩
  · rw [copyCluster, Disk.bit_copyBlock hdisj hin, if_pos (by omega)]
    congr 1
    omega
  · rw [copyCluster, Disk.bit_copyBlock hdisj hin, if_neg (by omega)]

/-- What `block_relink` writes for the `j`-th cluster. -/
def relinkWrites (b : Bpb) (fatSectors cc de : UInt64) (c : ℕ → ℕ) (j x : ℕ) : List WlogEnt :=
  (if j = 1 then b.deWrites cc de (UInt64.ofNat x)
    else b.allFats fatSectors cc (UInt64.ofNat (c (j - 1))) (UInt64.ofNat x)) ++
      b.allFats fatSectors cc (UInt64.ofNat x) (UInt64.ofNat (c (j + 1)))

/-- A disk on which the chain can be followed up to the `j`-th cluster, and behind it. -/
structure Followed (b : Bpb) (fatSectors total cc : UInt64) (d : Disk) (f : ℕ → ℕ) (de : UInt64)
    (c : ℕ → ℕ) (j : ℕ) : Prop where
  disk : OnDisk b fatSectors total cc d
  copies : b.FatIs fatSectors cc d f
  deIn : b.DeIn fatSectors d de
  regular : (isDeFile de).run .little d = .ok true
  start : (firstCluster de).run .little d = .ok (UInt64.ofNat (c 1))
  range : ∀ i, 1 ≤ i → i ≤ j → b.InRange fatSectors cc (c i)
  link : ∀ i, 1 ≤ i → i ≤ j → f (c i) = c (i + 1)

theorem Followed.run_getNthCnum (h : Followed b fatSectors total cc d f de c j) {i : UInt64}
    (hi : 1 ≤ i.toNat) (hij : i.toNat ≤ j + 1) :
    (b.getNthCnum fatSectors cc de i).run .little d = .ok (UInt64.ofNat (c i.toNat)) :=
  Bpb.run_getNthCnum h.disk h.copies h.start hi (fun k hk hlt => h.range k hk (by omega)) fun k hk hlt =>
    h.link k hk (by omega)

theorem Followed.run_blockRelink (sel : UInt64)
    (h : Followed b fatSectors total cc d f de c sel.toNat) (hsel : 1 ≤ sel.toNat)
    (hlt : sel.toNat < 2 ^ 32) {k : ℕ} (hk : b.fatCount.toNat ≤ k + 1) :
    (emit (b.pkts fatSectors cc fix) (k + 3) .blockRelink [de, sel, UInt64.ofNat x]).run .little d =
      .ok (b.relinkWrites fatSectors cc de c sel.toNat x) := by
  have hone : (1 : UInt64).toNat = 1 := rfl
  have hnextNat : (sel + 1).toNat = sel.toNat + 1 := by
    rw [UInt64.toNat_add, hone]
    exact Nat.mod_eq_of_lt (by omega)
  have hnext := h.run_getNthCnum (i := sel + 1) (by omega) (by omega)
  rw [hnextNat] at hnext
  have hwrite : ∀ cn val, (emit (b.pkts fatSectors cc fix) (k + 2) .writeFat [cn, val]).run .little d =
      .ok (b.allFats fatSectors cc cn val) := fun cn val => run_writeFat cn val h.disk.fats hk
  have hlast : (emitCalls (emit (b.pkts fatSectors cc fix) (k + 2)) [de, sel, UInt64.ofNat x]
      [callTo .writeFat (params₃ fun de fClusOff newCn => do
        return [newCn, ← b.getNthCnum fatSectors cc de (fClusOff + 1)])]).run .little d =
      .ok (b.allFats fatSectors cc (UInt64.ofNat x) (UInt64.ofNat (c (sel.toNat + 1))) ++ []) := by
    refine run_emitCalls_cons (run_emitCall_true rfl ?_ (hwrite _ _)) rfl
    show (b.getNthCnum fatSectors cc de (sel + 1) >>= fun cn => pure [UInt64.ofNat x, cn]).run .little
      d = _
    rw [Prog.run_bind, hnext]
    rfl
  rw [List.append_nil] at hlast
  refine run_emit_calls rfl ?_
  by_cases hfirst : sel.toNat = 1
  · have hsel : sel = 1 := UInt64.toNat_inj.mp hfirst
    rw [relinkWrites, if_pos hfirst, ← List.nil_append (b.allFats _ _ _ _)]
    refine run_emitCalls_cons (run_emitCall_true ?_ rfl ?_)
      (run_emitCalls_cons (run_emitCall_false ?_) hlast)
    · show Except.ok (sel == 1) = _
      rw [hsel]
      rfl
    · exact run_blockRelUpdateDe h.disk.wide (h.deIn.run_isGoodDir h.disk.lines h.regular) _ k
    · show Except.ok (decide (1 < sel)) = _
      rw [hsel]
      rfl
  · have hprevNat : (sel - 1).toNat = sel.toNat - 1 :=
      UInt64.toNat_sub_of_le _ _ (UInt64.le_iff_toNat_le.mpr hsel)
    have hmore : 1 < sel := UInt64.lt_iff_toNat_lt.mpr (show 1 < sel.toNat by omega)
    have hprev := h.run_getNthCnum (i := sel - 1) (by omega) (by omega)
    rw [hprevNat] at hprev
    rw [relinkWrites, if_neg hfirst, ← List.nil_append (_ ++ b.allFats _ _ _ _)]
    refine run_emitCalls_cons (run_emitCall_false ?_)
      (run_emitCalls_cons (run_emitCall_true ?_ ?_ (hwrite _ _)) hlast)
    · show Except.ok (sel == 1) = _
      rw [beq_eq_false_iff_ne.mpr fun heq => hfirst (by rw [heq]; rfl)]
    · show Except.ok (decide (1 < sel)) = _
      rw [decide_eq_true hmore]
    · show (b.getNthCnum fatSectors cc de (sel - 1) >>= fun cn => pure [cn, UInt64.ofNat x]).run
        .little d = _
      rw [Prog.run_bind, hprev]
      rfl

/-- The disk after the allocation and the copy. -/
def copied (b : Bpb) (fatSectors cc : UInt64) (d : Disk) (x y : ℕ) : Disk :=
  b.copyCluster fatSectors
    (d.applyAll (b.allFats fatSectors cc (UInt64.ofNat y) (b.fatType cc).badfat)) x y

theorem copied_spec (h : OnDisk b fatSectors total cc d) (hf : b.FatIs fatSectors cc d f)
    (hx : b.InRange fatSectors cc x) (hy : b.InRange fatSectors cc y) (hne : x ≠ y) :
    (b.copied fatSectors cc d x y).size = d.size ∧
      b.FatIs fatSectors cc (b.copied fatSectors cc d x y)
        (Function.update f y ((b.fatType cc).badfat.toNat % 2 ^ b.entWidth cc)) ∧
      (∀ k, k < b.clusterBits.toNat → (b.copied fatSectors cc d x y).bit
        (b.clusterAt fatSectors y + k) = d.bit (b.clusterAt fatSectors x + k)) ∧
      ∀ k, b.fatsEnd fatSectors ≤ k →
        (k < b.clusterAt fatSectors y ∨ b.clusterAt fatSectors y + b.clusterBits.toNat ≤ k) →
          (b.copied fatSectors cc d x y).bit k = d.bit k := by
  have hend := h.fatsEnd_le
  have hnat := hy.toNat_ofNat h
  have hy' : b.InRange fatSectors cc (UInt64.ofNat y).toNat := hnat.symm ▸ hy
  have hsize : (d.applyAll (b.allFats fatSectors cc (UInt64.ofNat y) (b.fatType cc).badfat)).size =
      d.size := Disk.size_applyAll _ _
  have hfat := hf.write h hy' (b.fatType cc).badfat
  rw [hnat] at hfat
  obtain ⟨hsize', hinside, hrest⟩ := copyCluster_spec (h.of_size hsize) hx hy hne
  have hbounds := hx.clusterAt_bounds h
  have hbounds' := hy.clusterAt_bounds h
  refine ⟨hsize'.trans hsize, hfat.congr fun k hk => hrest k (by omega), fun k hk => ?_,
    fun k hk hout => ?_⟩
  · rw [copied, hinside k hk]
    exact h.bit_allFats hy' _ (by omega)
  · rw [copied, hrest k hout]
    exact h.bit_allFats hy' _ hk

/-- On this disk the chain can still be followed up to the selected cluster, and behind it. -/
theorem RegularFile.followed (h : OnDisk b fatSectors total cc d)
    (hfile : b.RegularFile fatSectors cc d f de c m) (hj : 1 ≤ j) (hm : j ≤ m)
    (hx : b.InRange fatSectors cc x) (hfree : f x = 0) (hnot : ∀ i, 1 ≤ i → i ≤ j → c i ≠ x) :
    Followed b fatSectors total cc (b.copied fatSectors cc d (c j) x)
      (Function.update f x ((b.fatType cc).badfat.toNat % 2 ^ b.entWidth cc)) de c j := by
  have hde := hfile.place.deIn h
  have hbehind := hde.behind
  have hapart := hfile.place.apart h hx (Or.inl hfree)
  obtain ⟨hsize, hfat, -, hrest⟩ := copied_spec h hfile.copies (hfile.range j hj hm) hx
    (hnot j hj le_rfl)
  obtain ⟨hstart, hregular⟩ := hde.congr h.lines hsize fun k hk hk' =>
    hrest k (by omega) (by omega)
  refine ⟨h.of_size hsize, hfat, ⟨hde.aligned, hbehind, hsize ▸ hde.inside⟩,
    hregular.mpr hfile.regular, hstart.trans hfile.start, fun i hi hij => hfile.range i hi (by omega),
    fun i hi hij => ?_⟩
  rw [Function.update_of_ne (hnot i hi hij)]
  exact hfile.list.link i hi (by omega)

/-- Every entry of the table fits its width. -/
theorem FatIs.lt_two_pow (h : OnDisk b fatSectors total cc d) (hf : b.FatIs fatSectors cc d f)
    (hx : b.InRange fatSectors cc x) : f x < 2 ^ b.entWidth cc := by
  rw [← hf 0 x h.fats hx.hasEnt]
  exact Disk.num_lt _ _ _

theorem OnDisk.toNat_ofNat_of_lt (h : OnDisk b fatSectors total cc d) (hx : x < 2 ^ b.entWidth cc) :
    (UInt64.ofNat x).toNat = x := by
  refine UInt64.toNat_ofNat_of_lt' (hx.trans_le ?_)
  rcases h.entWidth_cases with hw | hw <;> rw [hw] <;> decide

/-- The disk after a relocation. -/
def relocatedDisk (b : Bpb) (fatSectors cc : UInt64) (d : Disk) (de : UInt64) (c : ℕ → ℕ)
    (j x : ℕ) : Disk :=
  ((b.copied fatSectors cc d (c j) x).applyAll (b.relinkWrites fatSectors cc de c j x)).applyAll
    (b.allFats fatSectors cc (UInt64.ofNat (c j)) 0)

theorem Followed.relink_fits (h : Followed b fatSectors total cc d f de c j) (hj : 1 ≤ j)
    (hx : b.InRange fatSectors cc x) :
    ∀ we ∈ b.relinkWrites fatSectors cc de c j x, we.Fits d.size := by
  have hfits : ∀ {y}, b.InRange fatSectors cc y → ∀ val,
      ∀ we ∈ b.allFats fatSectors cc (UInt64.ofNat y) val, we.Fits d.size := fun {y} hy val =>
    h.disk.allFats_fits ((hy.toNat_ofNat h.disk).symm ▸ hy) val
  intro we hwe
  rcases List.mem_append.mp hwe with hmem | hmem
  · split at hmem
    · exact (deWrites_spec h.disk h.deIn.aligned h.deIn.inside hx).2.2 we hmem
    · exact hfits (h.range (j - 1) (by omega) (by omega)) _ we hmem
  · exact hfits hx _ we hmem

/-- The relocation procedure goes through. -/
theorem RegularFile.relocation (fix : Fix → Wpkt Pkt) (selIdx choiceIdx : UInt32)
    (h : OnDisk b fatSectors total cc d) (hfile : b.RegularFile fatSectors cc d f de c m)
    (hj : 1 ≤ selIdx.toNat) (hm : selIdx.toNat ≤ m)
    (hx : b.InRange fatSectors cc choiceIdx.toNat) (hfree : f choiceIdx.toNat = 0)
    (hnot : ∀ i, 1 ≤ i → i ≤ selIdx.toNat → c i ≠ choiceIdx.toNat)
    (hroom : (if selIdx.toNat = 1 then 2 else b.fatCount.toNat) + b.fatCount.toNat ≤ 64)
    {depth : ℕ} (hdepth : b.fatCount.toNat + 2 ≤ depth) :
    Relocation .little (b.pkts fatSectors cc fix) depth (b.reloc fatSectors cc de)
      (b.clusterInfo fatSectors (UInt64.ofNat (c selIdx.toNat))) selIdx choiceIdx d
      (b.clusterInfo fatSectors choiceIdx.toUInt64) b.clusterBits
      (b.allFats fatSectors cc (UInt64.ofNat choiceIdx.toNat) (b.fatType cc).badfat)
      (b.relinkWrites fatSectors cc de c selIdx.toNat choiceIdx.toNat)
      (b.allFats fatSectors cc (UInt64.ofNat (c selIdx.toNat)) 0)
      (b.copied fatSectors cc d (c selIdx.toNat) choiceIdx.toNat) := by
  have hsel := hfile.range _ hj hm
  have hchoice : choiceIdx.toUInt64 = UInt64.ofNat choiceIdx.toNat :=
    UInt64.toNat_inj.mp (hx.toNat_ofNat h).symm
  have hcount := h.fats
  obtain ⟨k, rfl⟩ := Nat.exists_eq_add_of_le (show 3 ≤ depth by omega)
  rw [Nat.add_comm 3 k]
  have hwrite : ∀ {e : Disk} cn val,
      (emit (b.pkts fatSectors cc fix) (k + 2) .writeFat [cn, val]).run .little e =
        .ok (b.allFats fatSectors cc cn val) := fun cn val => run_writeFat cn val hcount (by omega)
  have hfollowed := hfile.followed h hj hm hx hfree hnot
  have hsize := (copied_spec h hfile.copies hsel hx (hnot _ hj le_rfl)).1
  have hbits := h.dvd_clusterBits
  have hsrc := hsel.dvd_clusterAt h
  have hdst := hx.dvd_clusterAt h
  have hsrcIn := (hsel.clusterAt_bounds h).2
  have hdstIn := (hx.clusterAt_bounds h).2
  have hroom' : b.fatCount.toNat ≤ 64 := by
    split at hroom <;> omega
  have halloc : (emitInst (b.pkts fatSectors cc fix) (k + 3) (b.reloc fatSectors cc de).alloc
      [choiceIdx.toUInt64]).run .little d =
        .ok (b.allFats fatSectors cc (UInt64.ofNat choiceIdx.toNat) (b.fatType cc).badfat) := by
    refine run_emitInst rfl (show 1 ≤ 16 by norm_num) ?_
    show (emit (b.pkts fatSectors cc fix) (k + 2 + 1) .blockAlloc [choiceIdx.toUInt64]).run .little
      d = _
    rw [emit_of_call rfl rfl, hchoice]
    exact hwrite _ _
  have hreplace : (emitInst (b.pkts fatSectors cc fix) (k + 3) (b.reloc fatSectors cc de).replace
      [selIdx.toUInt64]).run .little (b.copied fatSectors cc d (c selIdx.toNat) choiceIdx.toNat) =
        .ok (b.allFats fatSectors cc (UInt64.ofNat (c selIdx.toNat)) 0) := by
    have hread := hfollowed.run_getNthCnum (i := selIdx.toUInt64) hj (Nat.le_succ _)
    have hparams : ((b.reloc fatSectors cc de).replace.params [selIdx.toUInt64]).run .little
        (b.copied fatSectors cc d (c selIdx.toNat) choiceIdx.toNat) =
          .ok [UInt64.ofNat (c selIdx.toNat)] := by
      show (b.getNthCnum fatSectors cc de selIdx.toUInt64 >>= fun cn => pure [cn]).run .little _ = _
      rw [Prog.run_bind, hread]
      rfl
    refine run_emitInst hparams (show 1 ≤ 16 by norm_num) ?_
    show (emit (b.pkts fatSectors cc fix) (k + 2 + 1) .blockReplace [_]).run .little _ = _
    rw [emit_of_call rfl rfl]
    exact hwrite _ _
  have hrelink : (emitInst (b.pkts fatSectors cc fix) (k + 3) (b.reloc fatSectors cc de).relink
      [selIdx.toUInt64, choiceIdx.toUInt64]).run .little
        (b.copied fatSectors cc d (c selIdx.toNat) choiceIdx.toNat) =
          .ok (b.relinkWrites fatSectors cc de c selIdx.toNat choiceIdx.toNat) := by
    refine run_emitInst rfl (show 3 ≤ 16 by norm_num) ?_
    show (emit (b.pkts fatSectors cc fix) (k + 3) .blockRelink
      [de, selIdx.toUInt64, choiceIdx.toUInt64]).run .little _ = _
    rw [hchoice]
    exact Followed.run_blockRelink selIdx.toUInt64 hfollowed hj selIdx.toNat_lt (by omega)
  have hlength : (b.relinkWrites fatSectors cc de c selIdx.toNat choiceIdx.toNat).length =
      (if selIdx.toNat = 1 then 2 else b.fatCount.toNat) + b.fatCount.toNat := by
    rw [relinkWrites, List.length_append, length_allFats]
    split
    · rfl
    · rw [length_allFats]
  have hmod : ∀ {y}, 4096 ∣ y → y % 8 = 0 := fun hy =>
    Nat.mod_eq_zero_of_dvd ((show 8 ∣ 4096 by norm_num).trans hy)
  have hat : (b.getCluster fatSectors choiceIdx.toUInt64).toNat =
      b.clusterAt fatSectors choiceIdx.toNat := by
    rw [hchoice]
    rfl
  have hsize' : (d.applyAll (b.allFats fatSectors cc (UInt64.ofNat choiceIdx.toNat)
      (b.fatType cc).badfat)).size = d.size := Disk.size_applyAll _ _
  exact
    { choice := rfl
      alloc_emits := halloc
      alloc_room := (length_allFats _ _ _ _ _).trans_le hroom'
      alloc_fits := h.allFats_fits ((hx.toNat_ofNat h).symm ▸ hx) _
      copyable :=
        { src_size := rfl
          dst_size := rfl
          size_bytes := hmod hbits
          dst_xlate := rfl
          src_xlate := rfl
          src_bytes := hmod hsrc
          dst_bytes := by
            show (b.getCluster fatSectors choiceIdx.toUInt64).toNat % 8 = 0
            exact hat ▸ hmod hdst
          src_inside := by
            rw [hsize']
            show b.clusterAt fatSectors (c selIdx.toNat) / 8 + b.clusterBits.toNat / 8 ≤ d.size
            omega
          dst_inside := by
            rw [hsize']
            show (b.getCluster fatSectors choiceIdx.toUInt64).toNat / 8 + b.clusterBits.toNat / 8 ≤
              d.size
            omega }
      copy_ends := by
        obtain ⟨hsize, hlt⟩ := b.toNat_clusterBits
        omega
      copied_eq := by
        rw [copied, copyCluster, ← hat]
        rfl
      replace_emits := hreplace
      replace_room := (length_allFats _ _ _ _ _).trans_le hroom'
      replace_fits := h.allFats_fits ((hsel.toNat_ofNat h).symm ▸ hsel) _
      relink_emits := hrelink
      relink_room := hlength.trans_le hroom
      relink_fits := hsize ▸ hfollowed.relink_fits hj hx }

/-! ## The result -/

/-- The first writes of `block_relink`: to the entry, or to the link of the cluster before. -/
theorem Followed.first_spec (h : Followed b fatSectors total cc d f de c j) (hj : 1 ≤ j)
    (hx : b.InRange fatSectors cc x) {l : List WlogEnt}
    (hl : l = if j = 1 then b.deWrites cc de (UInt64.ofNat x)
      else b.allFats fatSectors cc (UInt64.ofNat (c (j - 1))) (UInt64.ofNat x)) :
    b.FatIs fatSectors cc (d.applyAll l) (if 1 < j then Function.update f (c (j - 1)) x else f) ∧
      (firstCluster de).run .little (d.applyAll l) = .ok (UInt64.ofNat (Function.update c j x 1)) ∧
      ∀ k, b.fatsEnd fatSectors ≤ k → (k < de.toNat ∨ de.toNat + 256 ≤ k) →
        (d.applyAll l).bit k = d.bit k := by
  have hbehind := h.deIn.behind
  by_cases hfirst : j = 1
  · rw [if_pos hfirst] at hl
    obtain ⟨hstart, hrest, -⟩ := deWrites_spec h.disk h.deIn.aligned h.deIn.inside hx
    rw [hl, if_neg (by omega), hfirst, Function.update_self]
    exact ⟨h.copies.congr fun k hk => hrest k (by omega), hstart, fun k _ hk => hrest k hk⟩
  · rw [if_neg hfirst] at hl
    have hprev := h.range (j - 1) (by omega) (by omega)
    have hnat := hprev.toNat_ofNat h.disk
    have hprev' : b.InRange fatSectors cc (UInt64.ofNat (c (j - 1))).toNat := hnat.symm ▸ hprev
    have hfat := h.copies.write h.disk hprev' (UInt64.ofNat x)
    rw [hnat, hx.toNat_ofNat h.disk, Nat.mod_eq_of_lt (hx.lt_two_pow h.disk)] at hfat
    have hbits := fun k hk => h.disk.bit_allFats hprev' (UInt64.ofNat x) (k := k) hk
    rw [hl, if_pos (by omega), Function.update_of_ne (Ne.symm hfirst)]
    refine ⟨hfat, ?_, fun k hk _ => hbits k hk⟩
    rw [(h.deIn.congr h.disk.lines (Disk.size_applyAll _ _) fun k hk _ => hbits k (by omega)).1]
    exact h.start

/-- The writes of `block_relink` and then of `block_replace`. -/
theorem Followed.relinked_spec (h : Followed b fatSectors total cc d f de c j) (hj : 1 ≤ j)
    (hx : b.InRange fatSectors cc x) (hne : c (j + 1) < 2 ^ b.entWidth cc) :
    b.FatIs fatSectors cc ((d.applyAll (b.relinkWrites fatSectors cc de c j x)).applyAll
        (b.allFats fatSectors cc (UInt64.ofNat (c j)) 0)) (exchange f c j x 0) ∧
      (firstCluster de).run .little ((d.applyAll (b.relinkWrites fatSectors cc de c j x)).applyAll
        (b.allFats fatSectors cc (UInt64.ofNat (c j)) 0)) =
          .ok (UInt64.ofNat (Function.update c j x 1)) ∧
      ∀ k, b.fatsEnd fatSectors ≤ k → (k < de.toNat ∨ de.toNat + 256 ≤ k) →
        ((d.applyAll (b.relinkWrites fatSectors cc de c j x)).applyAll
          (b.allFats fatSectors cc (UInt64.ofNat (c j)) 0)).bit k = d.bit k := by
  have hbehind := h.deIn.behind
  have hsel := h.range j hj le_rfl
  have hnat := hx.toNat_ofNat h.disk
  have hselNat := hsel.toNat_ofNat h.disk
  have hx' : b.InRange fatSectors cc (UInt64.ofNat x).toNat := hnat.symm ▸ hx
  have hsel' : b.InRange fatSectors cc (UInt64.ofNat (c j)).toNat := hselNat.symm ▸ hsel
  rw [relinkWrites, Disk.applyAll_append]
  generalize hl : (if j = 1 then b.deWrites cc de (UInt64.ofNat x)
    else b.allFats fatSectors cc (UInt64.ofNat (c (j - 1))) (UInt64.ofNat x)) = l
  obtain ⟨hfat, hstart, hrest⟩ := h.first_spec hj hx hl.symm
  have hdisk₁ : OnDisk b fatSectors total cc (d.applyAll l) := h.disk.of_size (Disk.size_applyAll _ _)
  have hdisk₂ : OnDisk b fatSectors total cc ((d.applyAll l).applyAll
      (b.allFats fatSectors cc (UInt64.ofNat x) (UInt64.ofNat (c (j + 1))))) :=
    hdisk₁.of_size (Disk.size_applyAll _ _)
  have hfat₁ := hfat.write hdisk₁ hx' (UInt64.ofNat (c (j + 1)))
  have hfat₂ := hfat₁.write hdisk₂ hsel' 0
  rw [hnat, hselNat, h.disk.toNat_ofNat_of_lt hne, Nat.mod_eq_of_lt hne] at hfat₂
  have hbits : ∀ k, b.fatsEnd fatSectors ≤ k → (((d.applyAll l).applyAll
      (b.allFats fatSectors cc (UInt64.ofNat x) (UInt64.ofNat (c (j + 1))))).applyAll
        (b.allFats fatSectors cc (UInt64.ofNat (c j)) 0)).bit k = (d.applyAll l).bit k := fun k hk =>
    (hdisk₂.bit_allFats hsel' _ hk).trans (hdisk₁.bit_allFats hx' _ hk)
  have hin : b.DeIn fatSectors (d.applyAll l) de :=
    ⟨h.deIn.aligned, hbehind, by rw [Disk.size_applyAll]; exact h.deIn.inside⟩
  refine ⟨?_, ?_, fun k hk hout => (hbits k hk).trans (hrest k hk hout)⟩
  · have hzero : (0 : UInt64).toNat % 2 ^ b.entWidth cc = 0 := Nat.zero_mod _
    rw [hzero] at hfat₂
    exact hfat₂
  · rw [(hin.congr hdisk₁.lines (by rw [Disk.size_applyAll, Disk.size_applyAll]) fun k hk _ =>
      hbits k (by omega)).1]
    exact hstart

/-- The disk after the relocation, for every free cluster that the file does not pass on its way to the
selected one. -/
theorem RegularFile.relocatedDisk_spec (h : OnDisk b fatSectors total cc d)
    (hfile : b.RegularFile fatSectors cc d f de c m) (hj : 1 ≤ j) (hm : j ≤ m)
    (hx : b.InRange fatSectors cc x) (hfree : f x = 0) (hnot : ∀ i, 1 ≤ i → i ≤ j → c i ≠ x) :
    OnDisk b fatSectors total cc (b.relocatedDisk fatSectors cc d de c j x) ∧
      b.FatIs fatSectors cc (b.relocatedDisk fatSectors cc d de c j x) (exchange f c j x 0) ∧
      (firstCluster de).run .little (b.relocatedDisk fatSectors cc d de c j x) =
        .ok (UInt64.ofNat (Function.update c j x 1)) ∧
      ∀ k, b.fatsEnd fatSectors ≤ k → (k < de.toNat ∨ de.toNat + 256 ≤ k) →
        (b.relocatedDisk fatSectors cc d de c j x).bit k =
          (b.copied fatSectors cc d (c j) x).bit k := by
  have hfollowed := hfile.followed h hj hm hx hfree hnot
  have hnext : c (j + 1) < 2 ^ b.entWidth cc := by
    rw [← hfile.list.link j hj hm]
    exact hfile.copies.lt_two_pow h (hfile.range j hj hm)
  obtain ⟨hfat, hstart, hbits⟩ := hfollowed.relinked_spec hj hx hnext
  rw [exchange_update _ fun hlt => hnot (j - 1) (by omega) (by omega)] at hfat
  refine ⟨hfollowed.disk.of_size ?_, hfat, hstart, hbits⟩
  rw [relocatedDisk, Disk.size_applyAll, Disk.size_applyAll]

theorem RegularFile.relocated (h : OnDisk b fatSectors total cc d)
    (hfile : b.RegularFile fatSectors cc d f de c m) (hj : 1 ≤ j) (hm : j ≤ m)
    (hx : b.InRange fatSectors cc x) (hfree : f x = 0) (hnot : ∀ i, 1 ≤ i → i ≤ m → c i ≠ x) :
    b.Relocated fatSectors cc d (b.relocatedDisk fatSectors cc d de c j x) f de c m j x := by
  have hend := h.fatsEnd_le
  have hsel := hfile.range j hj hm
  obtain ⟨hdisk, hfat, hstart, hbits⟩ := hfile.relocatedDisk_spec h hj hm hx hfree fun i hi hij =>
    hnot i hi (by omega)
  obtain ⟨-, -, hcopy, hrest⟩ := copied_spec h hfile.copies hsel hx (hnot j hj hm)
  have hlist : IsList (exchange f c j x 0) (Function.update c j x) m :=
    hfile.list.exchange hj hm hnot
  have hrange : ∀ i, 1 ≤ i → i ≤ m → b.InRange fatSectors cc (Function.update c j x i) := by
    intro i hi him
    by_cases hij : i = j
    · rw [hij, Function.update_self]
      exact hx
    · rw [Function.update_of_ne hij]
      exact hfile.range i hi him
  refine ⟨fun i hi him => ?_, hfat, fun i hi him k hk => ?_⟩
  · exact run_getNthCnum hdisk hfat hstart hi (fun k hk hlt => hrange k hk (by omega)) fun k hk hlt =>
      hlist.link k hk (by omega)
  · have hbounds := ((hrange i hi him).clusterAt_bounds h).1
    by_cases hij : i = j
    · -- the data of the selected cluster is in the new one
      subst hij
      rw [Function.update_self] at hbounds ⊢
      have hapart := hfile.place.apart h hx (Or.inl hfree)
      rw [hbits _ (by omega) (by omega)]
      exact hcopy k hk
    · -- the others are where they were
      rw [Function.update_of_ne hij] at hbounds ⊢
      have hci := hfile.range i hi him
      have hapart := hfile.place.apart h hci (Or.inr ⟨i, hi, him, rfl⟩)
      have hclusters : Apart b.clusterBits.toNat (b.clusterAt fatSectors (c i))
          (b.clusterAt fatSectors x) := hci.apart h hx (hnot i hi him)
      unfold Apart at hclusters
      rw [hbits _ (by omega) (by omega)]
      exact hrest _ (by omega) (by omega)

theorem isClusterAvail_iff (h : OnDisk b fatSectors total cc d) (hf : b.FatIs fatSectors cc d f)
    (hx : b.InRange fatSectors cc x) :
    (b.isClusterAvail fatSectors cc (UInt64.ofNat x)).run .little d = .ok true ↔ f x = 0 := by
  have hnat := h.toNat_ofNat_of_lt (hf.lt_two_pow h hx)
  rw [isClusterAvail, Prog.run_bind, run_fatNext h hf hx, ok_bind, Prog.run_pure, Except.ok.injEq,
    beq_iff_eq, ← UInt64.toNat_inj, hnat]
  exact Iff.rfl

/-- Relocation exchanges one cluster in the chain of a regular file, first and last ones included, for
any available one that is not in the chain, in all FATs. -/
theorem wpktRelocate_relocated {rt : Rt} (hr : rt.io.Reachable) (hlog : rt.wlog = none)
    (h : OnDisk b fatSectors total cc rt.io.disk)
    (hfile : b.RegularFile fatSectors cc rt.io.disk f de c m)
    {selIdx choiceIdx : UInt32} (hj : 1 ≤ selIdx.toNat) (hm : selIdx.toNat ≤ m)
    (hx : b.InRange fatSectors cc choiceIdx.toNat)
    (hnot : ∀ i, 1 ≤ i → i ≤ m → c i ≠ choiceIdx.toNat)
    (havail : (b.isClusterAvail fatSectors cc choiceIdx.toUInt64).run .little rt.io.disk = .ok true)
    (hroom : (if selIdx.toNat = 1 then 2 else b.fatCount.toNat) + b.fatCount.toNat ≤ 64)
    {depth : ℕ} (hdepth : b.fatCount.toNat + 2 ≤ depth) :
    ∃ rt', wpktRelocate .little (b.pkts fatSectors cc fix) depth (b.reloc fatSectors cc de)
        (b.clusterInfo fatSectors (UInt64.ofNat (c selIdx.toNat))) selIdx choiceIdx rt =
          .ok (some (), rt') ∧ rt'.wlog = none ∧
      b.Relocated fatSectors cc rt.io.disk rt'.io.disk f de c m selIdx.toNat choiceIdx.toNat := by
  have hchoice : choiceIdx.toUInt64 = UInt64.ofNat choiceIdx.toNat :=
    UInt64.toNat_inj.mp (hx.toNat_ofNat h).symm
  have hfree : f choiceIdx.toNat = 0 := (isClusterAvail_iff h hfile.copies hx).mp (hchoice ▸ havail)
  have hrel := hfile.relocation fix selIdx choiceIdx h hj hm hx hfree
    (fun i hi hij => hnot i hi (by omega)) hroom hdepth
  have hio : Over rt.io.disk rt.io := ⟨rfl, hr.coherent⟩
  obtain ⟨io', hrun, hover⟩ := hrel.run hio
  obtain ⟨io, wlog⟩ := rt
  change wlog = none at hlog
  subst hlog
  refine ⟨⟨io', none⟩, hrun, rfl, ?_⟩
  rw [show io'.disk = _ from hover.1]
  exact hfile.relocated h hj hm hx hfree hnot

/-! ## A file of two clusters -/

/-- The cells of a FAT32 volume of ten sectors: the clusters 2 and 3 are a file, whose entry is in
cluster 5 and whose chain ends with `mark`. -/
def sampleCell (mark : ℕ) : ℕ → ℕ
  | 128 => 0x0ffffff8
  | 129 => 0xffffffff
  | 130 => 3
  | 131 => mark
  | 133 => 0xffffffff
  | 640 => 0x20202041
  | 641 => 0x20202020
  | 642 => 0x20202020
  | 646 => 2 * 2 ^ 16
  | 647 => 1024
  | _ => 0

def sample (mark : ℕ) : Disk := Disk.ofCells 5120 32 (sampleCell mark) (by norm_num)

def sampleBpb : Bpb := ⟨512, 1, 1, 1, 0, 10, 0, 0, 1, 5⟩

/-- The table in its FAT. -/
def sampleFat (mark x : ℕ) : ℕ := sampleCell mark (128 + x)

/-- The chain, and its end. -/
def sampleChain (mark : ℕ) : ℕ → ℕ
  | 1 => 2
  | 2 => 3
  | _ => mark

theorem sample_onDisk (mark : ℕ) : OnDisk sampleBpb 1 10 8 (sample mark) :=
  { fat_run := rfl
    total_run := rfl
    count_run := rfl
    reserved := by decide
    fats := by decide
    fits := by decide
    asserts := rfl
    wide := by decide
    lines := show 32 ∣ 5120 by norm_num
    inside := by
      show (sampleBpb.clusters 1).toNat + 8 * sampleBpb.clusterBits.toNat ≤ 8 * 5120
      decide }

theorem sampleCell_lt {mark : ℕ} (h : mark < 2 ^ 32) (k : ℕ) : sampleCell mark k < 2 ^ 32 := by
  unfold sampleCell
  split <;> omega

theorem sample_num {mark k n : ℕ} (off : ℕ) (hoff : off + n ≤ 32) (hk : k < 1280) :
    (sample mark).num (32 * k + off) n = sampleCell mark k / 2 ^ off % 2 ^ n :=
  Disk.num_ofCells_within _ hoff (by omega)

theorem sample_inRange {x : ℕ} (hlo : 2 ≤ x) (hlt : x < 10) : sampleBpb.InRange 1 8 x :=
  ⟨hlo, hlt, show (x + 1) * 32 ≤ 4096 * 1 by omega⟩

theorem sample_clusterAt : sampleBpb.clusterAt 1 5 = 20480 := by decide

/-- The file, for every mark that is no cluster number. -/
theorem sample_file {mark : ℕ} (hmark : mark < 2 ^ 32)
    (hended : sampleBpb.isValidCnum 8 (UInt64.ofNat mark) = false) :
    sampleBpb.RegularFile 1 8 (sample mark) (sampleFat mark) 20480 (sampleChain mark) 2 := by
  have hde : sampleBpb.DeIn 1 (sample mark) 20480 :=
    ⟨by decide, by decide, show 20480 + 256 ≤ 8 * 5120 by norm_num⟩
  have hlines : 32 ∣ (sample mark).size := (sample_onDisk mark).lines
  have hnum : ∀ {k off n : ℕ}, (20480 : UInt64).toNat + off = 32 * (640 + k) + (off - 32 * k) →
      off - 32 * k + n ≤ 32 → k < 8 → (sample mark).num ((20480 : UInt64).toNat + off) n =
        sampleCell mark (640 + k) / 2 ^ (off - 32 * k) % 2 ^ n := fun {k off n} heq hoff hk => by
    rw [heq]
    exact sample_num _ hoff (by omega)
  have hcases : ∀ {i}, 1 ≤ i → i ≤ 2 → i = 1 ∨ i = 2 := by omega
  refine
    { copies := ?_
      place := .cluster 5 0 (sample_inRange (by norm_num) (by norm_num))
        (show (0xffffffff : ℕ) ≠ 0 by norm_num) ?_ (by decide) sample_clusterAt.symm
      regular := (hde.run_isDeFile_iff hlines).mpr ⟨?_, ?_⟩
      start := ?_
      pos := by norm_num
      range := ?_
      list := ⟨?_, ?_⟩
      ended := hended }
  · intro n x hn hx
    have hn0 : n = 0 := Nat.lt_one_iff.mp hn
    have hx' : (x + 1) * 32 ≤ 4096 * 1 := hx
    rw [hn0, show sampleBpb.entAt 1 8 0 x = 32 * (128 + x) + 0 from
      show 4096 * (1 + 0 * 1) + x * 32 = _ by omega]
    refine (sample_num 0 (show 0 + 32 ≤ 32 by norm_num) (by omega)).trans ?_
    rw [pow_zero, Nat.div_one]
    exact Nat.mod_eq_of_lt (sampleCell_lt hmark _)
  · intro i hi him
    rcases hcases hi him with rfl | rfl
    · exact show 2 ≠ 5 by norm_num
    · exact show 3 ≠ 5 by norm_num
  · rw [hnum (k := 7) (by decide) (by norm_num) (by norm_num), show sampleCell mark 647 = 1024 from rfl]
    decide
  · rw [hnum (k := 2) (by decide) (by norm_num) (by norm_num),
      show sampleCell mark 642 = 0x20202020 from rfl]
    decide
  · rw [hde.run_firstCluster hlines, hnum (k := 5) (by decide) (by norm_num) (by norm_num),
      hnum (k := 6) (by decide) (by norm_num) (by norm_num),
      show sampleCell mark 645 = 0 from rfl, show sampleCell mark 646 = 2 * 2 ^ 16 from rfl]
    rfl
  · intro i hi him
    rcases hcases hi him with rfl | rfl
    · exact sample_inRange (x := 2) (by norm_num) (by norm_num)
    · exact sample_inRange (x := 3) (by norm_num) (by norm_num)
  · intro i hi him
    rcases hcases hi him with rfl | rfl <;> rfl
  · intro i k hi him hk hkm heq
    rcases hcases hi him with rfl | rfl <;> rcases hcases hk hkm with rfl | rfl
    · rfl
    · exact absurd (show 2 = 3 from heq) (by norm_num)
    · exact absurd (show 3 = 2 from heq) (by norm_num)
    · rfl

/-- The runtime with the volume and an empty cache. -/
def sampleRt (mark : ℕ) : Rt := ⟨⟨sample mark, ioCacheInit fun _ _ => 0⟩, none⟩

theorem sample_isClusterAvail {mark x : ℕ} (hmark : mark < 2 ^ 32)
    (hended : sampleBpb.isValidCnum 8 (UInt64.ofNat mark) = false) (hlo : 2 ≤ x) (hlt : x < 10)
    (hfree : sampleFat mark x = 0) :
    (sampleBpb.isClusterAvail 1 8 (UInt64.ofNat x)).run .little (sample mark) = .ok true :=
  (isClusterAvail_iff (sample_onDisk mark) (sample_file hmark hended).copies
    (sample_inRange hlo hlt)).mpr hfree

/-- The last cluster of the file goes to cluster 4. -/
theorem wpktRelocate_relocated_last :
    ∃ rt', wpktRelocate .little (sampleBpb.pkts 1 8 (fun _ => ⟨[], []⟩)) 3 (sampleBpb.reloc 1 8 20480)
        (sampleBpb.clusterInfo 1 (UInt64.ofNat (sampleChain 0xffffffff (2 : UInt32).toNat))) 2 4
          (sampleRt 0xffffffff) = .ok (some (), rt') ∧ rt'.wlog = none ∧
      sampleBpb.Relocated 1 8 (sample 0xffffffff) rt'.io.disk (sampleFat 0xffffffff) 20480
        (sampleChain 0xffffffff) 2 (2 : UInt32).toNat (4 : UInt32).toNat := by
  have hfile : sampleBpb.RegularFile 1 8 (sample 0xffffffff) (sampleFat 0xffffffff) 20480
      (sampleChain 0xffffffff) 2 := sample_file (by norm_num) (by decide)
  have hx : sampleBpb.InRange 1 8 (4 : UInt32).toNat := sample_inRange (by decide) (by decide)
  have havail : (sampleBpb.isClusterAvail 1 8 (4 : UInt32).toUInt64).run .little
      (sample 0xffffffff) = .ok true :=
    sample_isClusterAvail (x := 4) (by norm_num) (by decide) (by norm_num) (by norm_num) rfl
  have hnot : ∀ i, 1 ≤ i → i ≤ 2 → sampleChain 0xffffffff i ≠ (4 : UInt32).toNat := by
    intro i hi him
    interval_cases i <;> decide
  have hr : (sampleRt 0xffffffff).io.Reachable := reachable_init _ _
  exact wpktRelocate_relocated hr rfl (sample_onDisk _) hfile (by decide) (by decide) hx hnot havail
    (by decide) (by decide)

/-- A chain that ends with 0 ends in a cluster that counts as free; taking this one for the first cluster
closes the chain. -/
theorem not_relocated_sample :
    OnDisk sampleBpb 1 10 8 (sample 0) ∧
      sampleBpb.RegularFile 1 8 (sample 0) (sampleFat 0) 20480 (sampleChain 0) 2 ∧
      (sampleBpb.isClusterAvail 1 8 3).run .little (sample 0) = .ok true ∧
      ∃ rt', wpktRelocate .little (sampleBpb.pkts 1 8 (fun _ => ⟨[], []⟩)) 3 (sampleBpb.reloc 1 8 20480)
          (sampleBpb.clusterInfo 1 2) 1 3 (sampleRt 0) = .ok (some (), rt') ∧
        ¬ sampleBpb.Relocated 1 8 (sample 0) rt'.io.disk (sampleFat 0) 20480 (sampleChain 0) 2 1 3 := by
  have hended : sampleBpb.isValidCnum 8 (UInt64.ofNat 0) = false := by decide
  have hdisk := sample_onDisk 0
  have hfile := sample_file (by norm_num) hended
  have hx : sampleBpb.InRange 1 8 3 := sample_inRange (by norm_num) (by norm_num)
  have hnot : ∀ i, 1 ≤ i → i ≤ 1 → sampleChain 0 i ≠ 3 := by
    intro i hi hi1
    rw [Nat.le_antisymm hi1 hi]
    exact show 2 ≠ 3 by norm_num
  have hrel := hfile.relocation (fun _ => ⟨[], []⟩) 1 3 hdisk (by decide) (by decide) hx rfl hnot
    (by decide) (show sampleBpb.fatCount.toNat + 2 ≤ 3 by decide)
  have hr : (sampleRt 0).io.Reachable := reachable_init _ _
  have hio : Over (sample 0) (sampleRt 0).io := ⟨rfl, hr.coherent⟩
  obtain ⟨io', hrun, hover⟩ := hrel.run hio
  refine ⟨hdisk, hfile, sample_isClusterAvail (x := 3) (by norm_num) hended (by norm_num) (by norm_num)
    rfl, ⟨io', none⟩, hrun, fun hgood => ?_⟩
  obtain ⟨hdisk', hfat, hstart, -⟩ := hfile.relocatedDisk_spec hdisk le_rfl (by norm_num) hx rfl hnot
  -- cluster 3 is its own successor now
  have hself : exchange (sampleFat 0) (sampleChain 0) 1 3 0 3 = 3 :=
    exchange_new (show 3 ≠ 2 by norm_num)
  have hread := run_getNthCnum (c := fun _ => 3) (i := 3) hdisk' hfat hstart (by decide)
    (fun _ _ _ => hx) fun _ _ _ => hself
  have hchain := hgood.chain 3 (by decide) (by decide)
  rw [show (⟨io', none⟩ : Rt).io.disk = _ from hover.1] at hchain
  exact absurd (Except.ok.inj (hread.symm.trans hchain)) (by decide)

end Fsl.Vfat.Bpb
