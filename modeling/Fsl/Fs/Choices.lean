import Mathlib
import Fsl.Fs.Ext2Meta
import Fsl.Fs.Minix
import Fsl.Fs.VfatDisk

/-!
# Choices of a relocation

A `relocate` statement names a range of choices, which includes both of its ends, the condition under
which a choice is free, the block that it stands for, and the packet that allocates it. The
descriptions of ext2, VFAT and minix state each of these separately.
-/

namespace Fsl

open Pread

/-! ## What the statement promises -/

/-- The parts of a `relocate` statement that concern the choices. The condition reads an entry of
`width` bits, which is `taken` once the choice is allocated, and the blocks have `size` bits. -/
structure RelocChoices where
  lo : UInt64
  hi : UInt64
  cond : UInt64 → Prog Bool
  entry : UInt64 → Prog UInt64
  width : UInt64
  taken : UInt64
  loc : UInt64 → UInt64
  size : UInt64
  alloc : UInt64 → Prog (List WlogEnt)

namespace RelocChoices

variable (c : RelocChoices) (d : Disk)

/-- A choice of the range whose condition holds. -/
structure Offered (i : UInt64) : Prop where
  lo_le : c.lo ≤ i
  le_hi : i ≤ c.hi
  free : (c.cond i).run .little d = .ok true

/-- Every choice that is offered is a block in the bits `[first, last)` of the volume, and the packet
marks the entry that was tested as taken; different choices have different blocks and entries. -/
structure Sound (first last : ℕ) : Prop where
  inside : ∀ i, c.Offered d i → first ≤ (c.loc i).toNat ∧ (c.loc i).toNat + c.size.toNat ≤ last
  sets : ∀ i, c.Offered d i → ∃ a ws, (c.entry i).run .little d = .ok a ∧
    (c.alloc i).run .little d = .ok ws ∧ writeVal a c.width c.taken ∈ ws
  blocks : ∀ i j, c.Offered d i → c.Offered d j → i ≠ j →
    Apart c.size.toNat (c.loc i).toNat (c.loc j).toNat
  entries : ∀ i j a b, c.Offered d i → c.Offered d j → i ≠ j →
    (c.entry i).run .little d = .ok a → (c.entry j).run .little d = .ok b →
    Apart c.width.toNat a.toNat b.toNat

end RelocChoices

/-- A field that is read lies in lines of the disk, and its value has its width. -/
theorem Prog.field_ok {d : Disk} {addr v : UInt64} {n : ℕ} (h : 1 ≤ n ∧ n ≤ 64)
    (hrun : (Prog.field addr n h).run .little d = .ok v) :
    Full d addr.toNat n ∧ v.toNat < 2 ^ n := by
  rw [Prog.run_field, diskPhys_little h.1 h.2] at hrun
  by_cases hfull : Full d addr.toNat n
  · rw [if_pos hfull] at hrun
    refine ⟨hfull, ?_⟩
    rw [← Except.ok.inj hrun, UInt64.toNat_ofNat']
    exact (Nat.mod_le _ _).trans_lt (BitNum.ofBits_lt _ _)
  · rw [if_neg hfull] at hrun
    cases hrun

/-! ## minix -/

namespace Minix

inductive MinixVer
  | v1 | v2 | v3
  deriving DecidableEq, Repr

/-- The fields of `minix_super_block` and `minix3_super_block` that decide the layout, with the version
that the magic number stands for. -/
structure Super where
  getVersion : MinixVer
  ninodes : UInt16
  nzones : UInt16
  firstdatazone : UInt16
  zones : UInt32
  ninodes3 : UInt32
  firstdatazone3 : UInt16
  zones3 : UInt32

/-- A field of `disk.sb` or `disk.sb3`, which both lie at `BLK_SZ`. -/
def sbField (off : UInt64) (n : ℕ)
    (h : 1 ≤ n ∧ n ≤ 64 := by first | exact Width.of16 | exact Width.of32) : Prog UInt64 :=
  Prog.field (8192 + off) n h

/-- `get_magic` -/
def getMagic : Prog UInt64 := do
  let m ← sbField 128 16
  if m ≠ 0x137f ∧ m ≠ 0x138f ∧ m ≠ 0x2468 ∧ m ≠ 0x2478 then sbField 192 16 else return m

/-- `get_version`, by the magic number. -/
def version (m : UInt64) : MinixVer :=
  if m = 0x137f ∨ m = 0x138f then .v1 else if m = 0x2468 ∨ m = 0x2478 then .v2 else .v3

namespace Super

/-- The superblocks of a disk. -/
def load : Prog Super := do
  let magic ← getMagic
  return {
    getVersion := version magic
    ninodes := (← sbField 0 16).toUInt16
    nzones := (← sbField 16 16).toUInt16
    firstdatazone := (← sbField 64 16).toUInt16
    zones := (← sbField 160 32).toUInt32
    ninodes3 := (← sbField 0 32).toUInt32
    firstdatazone3 := (← sbField 80 16).toUInt16
    zones3 := (← sbField 160 32).toUInt32 }

variable (sb : Super)

/-- `minix_ino_cnt` -/
def minixInoCnt : UInt64 :=
  if sb.getVersion = .v3 then sb.ninodes3.toUInt64 else sb.ninodes.toUInt64

/-- `get_blkcnt` -/
def getBlkcnt : UInt64 :=
  if sb.getVersion = .v3 then sb.zones3.toUInt64
  else if sb.getVersion = .v2 then sb.zones.toUInt64
  else sb.nzones.toUInt64

/-- `get_first_bnum` -/
def getFirstBnum : UInt64 :=
  if sb.getVersion = .v3 then sb.firstdatazone3.toUInt64 else sb.firstdatazone.toUInt64

/-- `bnum_to_zonebit` -/
def bnumToZonebit (bnum : UInt64) : UInt64 := bnum - sb.getFirstBnum + 1

/-- `disk.zmap`, which is behind `disk.imap` at the next block. -/
def zmap : UInt64 :=
  16384 + sb.minixInoCnt + (8192 - (16384 + sb.minixInoCnt)) % 8192

/-- `disk.zmap.bits[bnum_to_zonebit(blk)]` -/
def zmapBit (blk : UInt64) : UInt64 := sb.zmap + sb.bnumToZonebit blk

/-- `is_zmap_set` -/
def isZmapSet (blk : UInt64) : Prog Bool := do
  let bit ← Prog.field (sb.zmapBit blk) 1 Width.of1
  return bit == 1

/-- `minix_block_alloc`, the only packet here. -/
def blockAlloc : Unit → Wpkt Unit := fun _ =>
  ⟨[onBnum fun bnum => pure [writeVal (sb.zmapBit bnum) 1 1]], []⟩
where
  onBnum (f : UInt64 → Prog (List WlogEnt)) : List UInt64 → Prog (List WlogEnt)
    | [bnum] => f bnum
    | _ => throw Stop.fault

/-- The choices of `reloc` and `defrag` of both inode formats. -/
def choices : RelocChoices where
  lo := sb.getFirstBnum
  hi := sb.getBlkcnt
  cond i := do return !(← sb.isZmapSet i)
  entry i := pure (sb.zmapBit i)
  width := 1
  taken := 1
  loc i := i * 8192
  size := 8192
  alloc i := emit sb.blockAlloc 1 () [i]

theorem toNat_getBlkcnt_lt : sb.getBlkcnt.toNat < 2 ^ 32 := by
  unfold getBlkcnt
  split_ifs
  · exact sb.zones3.toNat_lt
  · exact sb.zones.toNat_lt
  · exact sb.nzones.toNat_lt.trans (by norm_num)

/-- The zone map's bit behind the last one is not clear: a choice there is not offered. -/
def EndSet (d : Disk) : Prop :=
  sb.getFirstBnum ≤ sb.getBlkcnt → (sb.isZmapSet sb.getBlkcnt).run .little d ≠ .ok false

variable {sb} {d : Disk} {i j : UInt64}

theorem offered_getBlkcnt_iff : sb.choices.Offered d sb.getBlkcnt ↔ ¬ sb.EndSet d := by
  have hcond : (sb.choices.cond sb.getBlkcnt).run .little d = .ok true ↔
      (sb.isZmapSet sb.getBlkcnt).run .little d = .ok false := by
    show (do return !(← sb.isZmapSet sb.getBlkcnt) : Prog Bool).run .little d = .ok true ↔ _
    rw [Prog.run_bind]
    cases (sb.isZmapSet sb.getBlkcnt).run .little d with
    | error e => simp
    | ok b => cases b <;> simp
  unfold EndSet
  push Not
  rw [← hcond]
  constructor
  · rintro ⟨hlo, -, hfree⟩
    exact ⟨hlo, hfree⟩
  · rintro ⟨hlo, hfree⟩
    exact ⟨hlo, UInt64.le_refl _, hfree⟩

theorem toNat_loc (h : sb.choices.Offered d i) : (sb.choices.loc i).toNat = i.toNat * 8192 := by
  have hi : i.toNat ≤ sb.getBlkcnt.toNat := UInt64.le_iff_toNat_le.mp h.le_hi
  have hlt := sb.toNat_getBlkcnt_lt
  show (i * 8192).toNat = _
  rw [UInt64.toNat_mul]
  exact Nat.mod_eq_of_lt (show i.toNat * 8192 < 2 ^ 64 by omega)

theorem zmapBit_inj (h : sb.zmapBit i = sb.zmapBit j) : i = j := by
  have hsub : i - sb.getFirstBnum = j - sb.getFirstBnum :=
    add_right_cancel (add_left_cancel h)
  exact sub_left_inj.mp hsub

/-- The choices are zones of the volume exactly if the one behind the last zone is not offered. -/
theorem choices_sound_iff (sb : Super) (d : Disk) :
    sb.choices.Sound d (sb.getFirstBnum.toNat * 8192) (sb.getBlkcnt.toNat * 8192) ↔
      sb.EndSet d := by
  constructor
  · intro hs
    by_contra hend
    have hoff := offered_getBlkcnt_iff.mpr hend
    have hle := (hs.inside _ hoff).2
    rw [toNat_loc hoff] at hle
    have hsize : sb.choices.size.toNat = 8192 := rfl
    omega
  · intro hend
    refine ⟨fun i hi => ?_, fun i hi => ?_, fun i j hi hj hne => ?_, fun i j a b hi hj hne ha hb => ?_⟩
    · have hlo : sb.getFirstBnum.toNat ≤ i.toNat := UInt64.le_iff_toNat_le.mp hi.lo_le
      have hle : i.toNat ≤ sb.getBlkcnt.toNat := UInt64.le_iff_toNat_le.mp hi.le_hi
      have hne : i.toNat ≠ sb.getBlkcnt.toNat := fun heq =>
        offered_getBlkcnt_iff.mp (UInt64.toNat_inj.mp heq ▸ hi) hend
      have hsize : sb.choices.size.toNat = 8192 := rfl
      rw [toNat_loc hi]
      exact ⟨by omega, by omega⟩
    · exact ⟨_, _, rfl, rfl, List.mem_singleton_self _⟩
    · rw [toNat_loc hi, toNat_loc hj]
      have hnat : i.toNat ≠ j.toNat := fun heq => hne (UInt64.toNat_inj.mp heq)
      have hmul := apart_mul 0 8192 hnat
      rwa [Nat.zero_add, Nat.zero_add] at hmul
    · obtain rfl : sb.zmapBit i = a := Except.ok.inj ha
      obtain rfl : sb.zmapBit j = b := Except.ok.inj hb
      exact apart_one_iff.mpr fun heq => hne (zmapBit_inj (UInt64.toNat_inj.mp heq))

end Super

end Minix

/-! ## ext2 -/

namespace Ext2

/-- The choices of `reloc` and `defrag`. -/
def choices (M : Memo) : RelocChoices where
  lo := 1
  hi := M.getTotalBlks - 1
  cond i := isBlkAvail M (bn2bmpidx M i)
  entry i := bmpBit M (bn2bmpidx M i)
  width := 1
  taken := 1
  loc := blocks M
  size := M.getBlockSize * 8
  alloc i := emit (pkts M) 1 .blockAlloc [bn2bmpidx M i]

/-- A superblock whose sizes are consistent: blocks are no longer than `2 ^ 29` bytes, the bits of a
group fit a block, and `s_first_data_block` is 0 or 1. -/
structure Consistent (d : Disk) (M : Memo) (first : UInt64) : Prop where
  memo : loadMemo.run .little d = .ok M
  first_run : (sbField 20 32).run .little d = .ok first
  first_le : first.toNat ≤ 1
  blockSize : M.getBlockSize.toNat ≤ 2 ^ 29
  blksPerGrp : M.blksPerGrp.toNat ≤ M.getBlockSize.toNat * 8

example : Consistent (sample 0) sampleMemo 1 where
  memo := sample_loaded (by norm_num)
  first_run := run_sample (b := 1) (c := 5) (by norm_num) (by omega) (by omega) rfl
  first_le := by decide
  blockSize := by decide
  blksPerGrp := by decide

/-- Two free blocks do not have the same bit of one bitmap block, through different groups. -/
def OwnBits (d : Disk) (M : Memo) : Prop :=
  ∀ i j, (choices M).Offered d i → (choices M).Offered d j → i ≠ j →
    blknumToBmpidx M (bn2bmpidx M i) = blknumToBmpidx M (bn2bmpidx M j) →
    (getGroupBmp M (blknumToGrp M (bn2bmpidx M i))).run .little d ≠
      (getGroupBmp M (blknumToGrp M (bn2bmpidx M j))).run .little d

variable {M : Memo} {d : Disk} {first i j : UInt64} {s : ℕ}

theorem loadMemo_counts (h : loadMemo.run .little d = .ok M) :
    M.blksPerGrp ≠ 0 ∧ M.getTotalBlks ≠ 0 ∧ M.getTotalBlks.toNat < 2 ^ 32 := by
  unfold loadMemo at h
  simp only [Prog.run_bind] at h
  obtain ⟨_, hgrp, h⟩ := bind_eq_ok h
  obtain ⟨_, -, h⟩ := bind_eq_ok h
  obtain ⟨blocksC, hblocks, h⟩ := bind_eq_ok h
  obtain ⟨_, htotal, h⟩ := bind_eq_ok h
  obtain ⟨_, -, h⟩ := bind_eq_ok h
  obtain ⟨_, -, h⟩ := bind_eq_ok h
  obtain ⟨_, -, h⟩ := bind_eq_ok h
  obtain ⟨_, -, h⟩ := bind_eq_ok h
  obtain ⟨_, -, h⟩ := bind_eq_ok h
  obtain ⟨_, -, h⟩ := bind_eq_ok h
  cases h
  obtain ⟨_, -, hgrp⟩ := bind_eq_ok hgrp
  obtain ⟨rfl, hne⟩ := assertNonzero_ok hgrp
  obtain ⟨rfl, hne'⟩ := assertNonzero_ok htotal
  exact ⟨hne, hne', (Prog.field_ok _ hblocks).2⟩

/-- The bits of a block. -/
theorem Geom.size_eq (hg : Geom M s) : M.getBlockSize.toNat * 8 = 2 ^ (13 + s) := by
  rw [hg.blockSize, show 13 + s = (10 + s) + 3 by omega, pow_add _ _ 3]
  norm_num

theorem Geom.toNat_size (hg : Geom M s) (hs : s ≤ 19) : (M.getBlockSize * 8).toNat = 2 ^ (13 + s) := by
  have hlt : 2 ^ (13 + s) < 2 ^ 64 := Nat.pow_lt_pow_right (by omega) (by omega)
  rw [UInt64.toNat_mul]
  show M.getBlockSize.toNat * 8 % 2 ^ 64 = _
  rw [hg.size_eq, Nat.mod_eq_of_lt hlt]

theorem Geom.toNat_blocks (hg : Geom M s) (hs : s ≤ 19) {b : UInt64} (hb : b.toNat < 2 ^ 32) :
    (blocks M b).toNat = b.toNat * 2 ^ (13 + s) := by
  have hlt : b.toNat * 2 ^ (13 + s) < 2 ^ 64 := by
    calc b.toNat * 2 ^ (13 + s) < 2 ^ 32 * 2 ^ (13 + s) :=
          Nat.mul_lt_mul_of_pos_right hb (Nat.two_pow_pos _)
      _ ≤ 2 ^ 32 * 2 ^ 32 := Nat.mul_le_mul_left _ (Nat.pow_le_pow_right (by omega) (by omega))
      _ = 2 ^ 64 := by norm_num
  rw [blocks, UInt64.toNat_mul, hg.toNat_size hs, Nat.mod_eq_of_lt hlt]

theorem Consistent.geom (h : Consistent d M first) : ∃ s, Geom M s ∧ s ≤ 19 := by
  obtain ⟨s, hg⟩ := loadMemo_ok h.memo
  have hle := h.blockSize
  rw [hg.blockSize] at hle
  have hexp := (Nat.pow_le_pow_iff_right (show 1 < 2 by norm_num)).mp hle
  exact ⟨s, hg, by omega⟩

theorem Consistent.le_last (h : Consistent d M first) (hi : (choices M).Offered d i) :
    1 ≤ i.toNat ∧ i.toNat + 1 ≤ M.getTotalBlks.toNat := by
  obtain ⟨-, hne, -⟩ := loadMemo_counts h.memo
  have hpos : 1 ≤ M.getTotalBlks.toNat :=
    Nat.one_le_iff_ne_zero.mpr fun h0 => hne (UInt64.toNat_inj.mp h0)
  have hlo : 1 ≤ i.toNat := UInt64.le_iff_toNat_le.mp hi.lo_le
  have hle : i.toNat ≤ (M.getTotalBlks - 1).toNat := UInt64.le_iff_toNat_le.mp hi.le_hi
  have hone : (1 : UInt64).toNat = 1 := rfl
  rw [UInt64.toNat_sub_of_le _ _ (UInt64.le_iff_toNat_le.mpr (hone.symm ▸ hpos))] at hle
  exact ⟨hlo, by omega⟩

/-- The bit of a block that is offered was read, through the descriptor of its group. -/
theorem bit_of_offered (hi : (choices M).Offered d i) : ∃ bmp,
    (Prog.field (getGroup M (blknumToGrp M (bn2bmpidx M i))) 32).run .little d = .ok bmp ∧
      (getGroupBmp M (blknumToGrp M (bn2bmpidx M i))).run .little d = .ok (blocks M bmp) ∧
      (bmpBit M (bn2bmpidx M i)).run .little d =
        .ok (blocks M bmp + blknumToBmpidx M (bn2bmpidx M i)) := by
  have hfree : (isBlkAvail M (bn2bmpidx M i)).run .little d = .ok true := hi.free
  unfold isBlkAvail bmpBit getGroupBmp at hfree
  simp only [Prog.run_bind] at hfree
  obtain ⟨_, hread, -⟩ := bind_eq_ok hfree
  obtain ⟨_, hbit, -⟩ := bind_eq_ok hread
  obtain ⟨_, hbmp, -⟩ := bind_eq_ok hbit
  obtain ⟨bmp, hfield, -⟩ := bind_eq_ok hbmp
  refine ⟨bmp, hfield, ?_, ?_⟩
  · rw [getGroupBmp, Prog.run_bind, hfield]
    rfl
  · rw [bmpBit, getGroupBmp, Prog.run_bind, Prog.run_bind, hfield]
    rfl

/-- Group descriptors lie at multiples of 32 bytes. -/
theorem Geom.getGroup_aligned (hg : Geom M s) (hs : s ≤ 19) (grpnum : UInt64) :
    256 ∣ (getGroup M grpnum).toNat := by
  have hsize : 256 ∣ (M.getBlockSize * 8).toNat := by
    rw [hg.toNat_size hs]
    exact (pow_dvd_pow 2 (show 8 ≤ 13 + s by omega))
  have hbase : (16384 : UInt64).toNat = 16384 := rfl
  have hword : (256 : ℕ) ∣ 2 ^ 64 := by norm_num
  have hmod : ∀ {x : ℕ}, 256 ∣ x → 256 ∣ x % 2 ^ 64 := fun h => (Nat.dvd_mod_iff hword).mpr h
  have hpad : 256 ∣ ((M.getBlockSize * 8 - 16384) % (M.getBlockSize * 8)).toNat := by
    rw [UInt64.toNat_mod, Nat.dvd_mod_iff hsize, UInt64.toNat_sub, hbase]
    exact hmod (Nat.dvd_add (by norm_num) hsize)
  rw [getGroup, UInt64.toNat_add, UInt64.toNat_add, UInt64.toNat_mul, hbase]
  exact hmod (Nat.dvd_add (hmod (Nat.dvd_add (by norm_num) hpad)) (hmod (Nat.dvd_mul_right 256 _)))

/-- The packet first sets the bit that was tested; the count of the group is in the same line as its
bitmap's block. -/
theorem Consistent.sets (h : Consistent d M first) (hi : (choices M).Offered d i) :
    ∃ a ws, (bmpBit M (bn2bmpidx M i)).run .little d = .ok a ∧
      ((choices M).alloc i).run .little d = .ok ws ∧ writeVal a 1 1 ∈ ws := by
  obtain ⟨s, hg, hs⟩ := h.geom
  obtain ⟨bmp, hfield, -, hbit⟩ := bit_of_offered hi
  obtain ⟨hfull, -⟩ := Prog.field_ok _ hfield
  obtain ⟨q, hq⟩ := hg.getGroup_aligned hs (blknumToGrp M (bn2bmpidx M i))
  have hcount : (freeBlockC M (bn2bmpidx M i)).toNat = 256 * q + 96 := by
    have hlt := (getGroup M (blknumToGrp M (bn2bmpidx M i))).toNat_lt
    rw [freeBlockC, UInt64.toNat_add, hq]
    show (256 * q + 96) % 2 ^ 64 = _
    exact Nat.mod_eq_of_lt (by omega)
  have hfull' : Full d (256 * q + 96) 16 := by
    rw [hq] at hfull
    unfold Full at hfull ⊢
    omega
  obtain ⟨cnt, hread⟩ : ∃ cnt,
      (Prog.field (freeBlockC M (bn2bmpidx M i)) 16).run .little d = .ok cnt := by
    rw [Prog.run_field, diskPhys_little (by omega) (by omega), hcount, if_pos hfull']
    exact ⟨_, rfl⟩
  have halloc : ((choices M).alloc i).run .little d =
      .ok [writeVal (blocks M bmp + blknumToBmpidx M (bn2bmpidx M i)) 1 1,
        writeVal (freeBlockC M (bn2bmpidx M i)) 16 (cnt + -1)] := by
    show (emit (pkts M) 1 .blockAlloc [bn2bmpidx M i]).run .little d = _
    rw [emit_no_calls rfl]
    simp only [pkts, markBlock, List.map_cons, List.map_nil, emitFuncs, onBlknum, Prog.run_bind, hbit,
      hread, ok_bind, Prog.run_pure]
    rfl
  exact ⟨_, _, hbit, halloc, List.mem_cons_self⟩

/-- The address of a bit tells the bitmap's block and the place in it. -/
theorem Consistent.toNat_bit (h : Consistent d M first) (hg : Geom M s) (hs : s ≤ 19) {bmp : UInt64}
    (hbmp : bmp.toNat < 2 ^ 32) (b : UInt64) :
    (blknumToBmpidx M b).toNat < 2 ^ (13 + s) ∧
      (blocks M bmp + blknumToBmpidx M b).toNat =
        bmp.toNat * 2 ^ (13 + s) + (blknumToBmpidx M b).toNat := by
  obtain ⟨hne, -, -⟩ := loadMemo_counts h.memo
  have hpos : 0 < M.blksPerGrp.toNat :=
    Nat.pos_of_ne_zero fun h0 => hne (UInt64.toNat_inj.mp h0)
  have hidx : (blknumToBmpidx M b).toNat < 2 ^ (13 + s) := by
    rw [blknumToBmpidx, UInt64.toNat_mod, ← hg.size_eq]
    exact (Nat.mod_lt _ hpos).trans_le h.blksPerGrp
  refine ⟨hidx, ?_⟩
  rw [UInt64.toNat_add, hg.toNat_blocks hs hbmp]
  refine Nat.mod_eq_of_lt ?_
  calc bmp.toNat * 2 ^ (13 + s) + (blknumToBmpidx M b).toNat
      < bmp.toNat * 2 ^ (13 + s) + 2 ^ (13 + s) := Nat.add_lt_add_left hidx _
    _ = (bmp.toNat + 1) * 2 ^ (13 + s) := (Nat.succ_mul _ _).symm
    _ ≤ 2 ^ 32 * 2 ^ 32 := Nat.mul_le_mul hbmp (Nat.pow_le_pow_right (by omega) (by omega))
    _ = 2 ^ 64 := by norm_num

/-- The choices are blocks of the volume with entries of their own exactly if no two free blocks have
one bit. -/
theorem choices_sound_iff (h : Consistent d M first) :
    (choices M).Sound d (first.toNat * (M.getBlockSize.toNat * 8))
      (M.getTotalBlks.toNat * (M.getBlockSize.toNat * 8)) ↔ OwnBits d M := by
  obtain ⟨s, hg, hs⟩ := h.geom
  obtain ⟨-, -, htotal⟩ := loadMemo_counts h.memo
  have hloc : ∀ {i}, (choices M).Offered d i →
      ((choices M).loc i).toNat = i.toNat * 2 ^ (13 + s) := fun hi =>
    hg.toNat_blocks hs (by have := h.le_last hi; omega)
  have hwidth : (choices M).size.toNat = 2 ^ (13 + s) := hg.toNat_size hs
  rw [hg.size_eq]
  constructor
  · intro hsound i j hi hj hne hidx hbmp
    obtain ⟨b, -, hgroup, hbit⟩ := bit_of_offered hi
    obtain ⟨b', -, hgroup', hbit'⟩ := bit_of_offered hj
    have happart := hsound.entries i j _ _ hi hj hne hbit hbit'
    rw [hgroup, hgroup'] at hbmp
    rw [Except.ok.inj hbmp, hidx] at happart
    exact apart_one_iff.mp happart rfl
  · intro hown
    refine ⟨fun i hi => ?_, fun i hi => h.sets hi, fun i j hi hj hne => ?_,
      fun i j a b hi hj hne ha hb => ?_⟩
    · obtain ⟨hlo, hle⟩ := h.le_last hi
      rw [hloc hi, hwidth]
      refine ⟨Nat.mul_le_mul_right _ (h.first_le.trans hlo), ?_⟩
      rw [← Nat.succ_mul]
      exact Nat.mul_le_mul_right _ hle
    · rw [hloc hi, hloc hj, hwidth]
      have hmul := apart_mul 0 (2 ^ (13 + s)) fun heq => hne (UInt64.toNat_inj.mp heq)
      rwa [Nat.zero_add, Nat.zero_add] at hmul
    · obtain ⟨bmp, hfield, hgroup, hbit⟩ := bit_of_offered hi
      obtain ⟨bmp', hfield', hgroup', hbit'⟩ := bit_of_offered hj
      obtain ⟨hidx, hbit₁⟩ := h.toNat_bit hg hs (Prog.field_ok _ hfield).2 (bn2bmpidx M i)
      obtain ⟨hidx', hbit₂⟩ := h.toNat_bit hg hs (Prog.field_ok _ hfield').2 (bn2bmpidx M j)
      obtain rfl := Except.ok.inj (hbit.symm.trans ha)
      obtain rfl := Except.ok.inj (hbit'.symm.trans hb)
      refine apart_one_iff.mpr fun heq => ?_
      rw [hbit₁, hbit₂] at heq
      have hpos : 0 < 2 ^ (13 + s) := Nat.two_pow_pos _
      have hplace : (blknumToBmpidx M (bn2bmpidx M i)).toNat =
          (blknumToBmpidx M (bn2bmpidx M j)).toNat := by
        have hmod := congrArg (· % 2 ^ (13 + s)) heq
        simp only [Nat.mul_add_mod'] at hmod
        rwa [Nat.mod_eq_of_lt hidx, Nat.mod_eq_of_lt hidx'] at hmod
      refine hown i j hi hj hne (UInt64.toNat_inj.mp hplace) ?_
      rw [hplace] at heq
      have hblock := Nat.eq_of_mul_eq_mul_right hpos (Nat.add_right_cancel heq)
      rw [hgroup, hgroup', UInt64.toNat_inj.mp hblock]

end Ext2

/-! ## VFAT -/

namespace Vfat.Bpb

/-- The choices of `reloc` and `defrag`. There are at most 255 FATs. -/
def choices (b : Bpb) (fatSectors cc : UInt64) (fix : Fix → Wpkt Pkt) : RelocChoices where
  lo := 2
  hi := cc
  cond := b.isClusterAvail fatSectors cc
  entry i := pure (b.ent fatSectors (b.fatType cc) 0 i)
  width := (b.fatType cc).entBits
  taken := (b.fatType cc).badfat
  loc := b.getCluster fatSectors
  size := b.clusterBits
  alloc i := emit (b.pkts fatSectors cc fix) 258 .blockAlloc [i]

variable {b : Bpb} {fatSectors total cc : UInt64}

/-- The packet writes the entry of the first FAT, and those of the others. -/
theorem run_alloc (h : Consistent b fatSectors total cc) (fix : Fix → Wpkt Pkt) (d : Disk) (i : UInt64) :
    ∃ ws, ((b.choices fatSectors cc fix).alloc i).run .little d = .ok ws ∧
      writeVal (b.ent fatSectors (b.fatType cc) 0 i) (b.fatType cc).entBits (b.fatType cc).badfat ∈
        ws := by
  have hlt := b.fatCount.toNat_lt
  refine ⟨b.fatWrites fatSectors cc i (b.fatType cc).badfat (List.range b.fatCount.toNat), ?_,
    List.mem_map.mpr ⟨0, List.mem_range.mpr h.fats, rfl⟩⟩
  show (emit (b.pkts fatSectors cc fix) (255 + 2 + 1) .blockAlloc [i]).run .little d = _
  rw [emit_of_call rfl rfl]
  exact run_writeFat i _ h.fats (by omega)

/-- The choices are clusters of the volume with entries of their own. -/
theorem Consistent.choices_sound (h : Consistent b fatSectors total cc) (fix : Fix → Wpkt Pkt)
    (d : Disk) :
    (b.choices fatSectors cc fix).Sound d (b.resvSectors fatSectors * b.sectorBits)
      (total.toNat * b.sectorBits) := by
  obtain ⟨hbps, hspc, hclusters⟩ := h.clusters_le
  have hpos : 0 < b.sectorBits := Nat.mul_pos hbps (by norm_num)
  have hslack : b.slack < b.sectorBits := Nat.mod_lt _ hpos
  obtain ⟨hsize, -⟩ := b.toNat_clusterBits
  have hrange : ∀ {i}, (b.choices fatSectors cc fix).Offered d i → 2 ≤ i.toNat ∧ i.toNat ≤ cc.toNat :=
    fun hi => ⟨UInt64.le_iff_toNat_le.mp hi.lo_le, UInt64.le_iff_toNat_le.mp hi.le_hi⟩
  have hloc : ∀ {i}, (b.choices fatSectors cc fix).Offered d i →
      ((b.choices fatSectors cc fix).loc i).toNat = b.sectorBits * b.resvSectors fatSectors + b.slack +
        (i.toNat - 2) * (b.sectorsPerCluster.toNat * b.sectorBits) := fun hi =>
    h.toNat_getCluster (hrange hi).1 ((hrange hi).2.trans_lt (Nat.lt_add_of_pos_right two_pos))
  have hwidth : (b.choices fatSectors cc fix).size.toNat =
      b.sectorsPerCluster.toNat * b.sectorBits := hsize
  have hent : ∀ {i}, (b.choices fatSectors cc fix).Offered d i →
      (b.ent fatSectors (b.fatType cc) 0 i).toNat = b.entAt fatSectors cc 0 i.toNat := fun hi =>
    toNat_ent (toNat_fatSectors_lt h.fat_run) (by decide) (by
      have := h.count_lt
      have := (hrange hi).2
      omega)
  refine ⟨fun i hi => ?_, fun i hi => ?_, fun i j hi hj hne => ?_, fun i j a c hi hj hne ha hc => ?_⟩
  · obtain ⟨hlo, hle⟩ := hrange hi
    rw [hloc hi, hwidth, Nat.mul_comm b.sectorBits]
    refine ⟨by omega, ?_⟩
    -- One cluster is left over, and the slack is less than a sector.
    have hlast : (i.toNat - 2 + 2) * (b.sectorsPerCluster.toNat * b.sectorBits) ≤
        cc.toNat * (b.sectorsPerCluster.toNat * b.sectorBits) :=
      Nat.mul_le_mul_right _ (by omega)
    have hsector : b.sectorBits ≤ b.sectorsPerCluster.toNat * b.sectorBits :=
      Nat.le_mul_of_pos_left _ hspc
    have hvolume := Nat.mul_le_mul_right b.sectorBits hclusters
    rw [Nat.add_mul, Nat.mul_assoc] at hvolume
    rw [Nat.add_mul] at hlast
    omega
  · obtain ⟨ws, hws, hmem⟩ := run_alloc h fix d i
    exact ⟨_, _, rfl, hws, hmem⟩
  · have hlo := (hrange hi).1
    have hlo' := (hrange hj).1
    have hnat : i.toNat ≠ j.toNat := fun heq => hne (UInt64.toNat_inj.mp heq)
    rw [hloc hi, hloc hj, hwidth]
    exact apart_mul _ _ (by omega)
  · obtain rfl : b.ent fatSectors (b.fatType cc) 0 i = a := Except.ok.inj ha
    obtain rfl : b.ent fatSectors (b.fatType cc) 0 j = c := Except.ok.inj hc
    rw [hent hi, hent hj]
    exact apart_mul _ _ fun heq => hne (UInt64.toNat_inj.mp heq)

end Vfat.Bpb

/-! ## The volumes -/

/-- A volume of one of the descriptions, with consistent sizes. -/
inductive Volume (d : Disk)
  | ext2 (M : Ext2.Memo) (first : UInt64) (h : Ext2.Consistent d M first)
  | vfat (b : Vfat.Bpb) (fatSectors total cc : UInt64) (fix : Vfat.Bpb.Fix → Wpkt Vfat.Bpb.Pkt)
    (h : b.Consistent fatSectors total cc)
  | minix (sb : Minix.Super) (h : Minix.Super.load.run .little d = .ok sb)

namespace Volume

variable {d : Disk}

/-- The choices of the description's `relocate` statements. -/
def choices : Volume d → RelocChoices
  | ext2 M _ _ => Ext2.choices M
  | vfat b fatSectors _ cc fix _ => b.choices fatSectors cc fix
  | minix sb _ => sb.choices

/-- Where the data area begins, in bits. -/
def first : Volume d → ℕ
  | ext2 M first _ => first.toNat * (M.getBlockSize.toNat * 8)
  | vfat b fatSectors _ _ _ _ => b.resvSectors fatSectors * b.sectorBits
  | minix sb _ => sb.getFirstBnum.toNat * 8192

/-- Where the volume ends, in bits. -/
def last : Volume d → ℕ
  | ext2 M _ _ => M.getTotalBlks.toNat * (M.getBlockSize.toNat * 8)
  | vfat b _ total _ _ _ => total.toNat * b.sectorBits
  | minix sb _ => sb.getBlkcnt.toNat * 8192

/-- What the descriptions do not check. -/
def Suits : Volume d → Prop
  | ext2 M _ _ => Ext2.OwnBits d M
  | vfat _ _ _ _ _ _ => True
  | minix sb _ => sb.EndSet d

/-! ### A V1 volume -/

/-- 32 zones, and an inode for the root directory in the first data zone, 5. The zone map has the bits
of no block and of the root directory. -/
def emptyCell : ℕ → ℕ
  | 256 => 32 + 32 * 2 ^ 16
  | 257 => 1 + 1 * 2 ^ 16
  | 258 => 5
  | 259 => 268966912
  | 260 => 0x137f + 1 * 2 ^ 16
  | 512 => 7
  | 768 => 3
  | 1024 => 0x41ed
  | 1025 => 32
  | 1027 => 2 * 2 ^ 8 + 5 * 2 ^ 16
  | 1280 => 1 + 0x2e * 2 ^ 16
  | 1284 => 1 + 0x2e2e * 2 ^ 16
  | _ => 0

theorem emptyDisk_lt : 32768 < 2 ^ 61 := by norm_num

def emptyDisk : Disk := Disk.ofCells 32768 32 emptyCell emptyDisk_lt

def emptySuper : Minix.Super := ⟨.v1, 32, 32, 5, 0, 2097184, 0, 0⟩

theorem run_emptyDisk (c k : ℕ) {a : UInt64} {n : ℕ} (h : 1 ≤ n ∧ n ≤ 64) (ha : a.toNat = 32 * c + k)
    (hw : WriteWidth a.toNat n) (hc : c < 8192 ∧ k + n ≤ 32) :
    (Prog.field a n h).run .little emptyDisk =
      .ok (UInt64.ofNat (emptyCell c / 2 ^ k % 2 ^ n)) := by
  have h32 : 32 ∣ emptyDisk.size := show 32 ∣ 32768 by decide
  have hin : 32 * c + k + n ≤ 8 * emptyDisk.size := show 32 * c + k + n ≤ 8 * 32768 by omega
  rw [Prog.run_field_num h32 h hw, ha, if_pos hin, emptyDisk,
    Disk.num_ofCells_within _ hc.2 (by omega)]

theorem emptyDisk_loaded : Minix.Super.load.run .little emptyDisk = .ok emptySuper := by
  have hmagic : (Minix.sbField 128 16).run .little emptyDisk = .ok 0x137f :=
    run_emptyDisk 260 0 _ rfl (by decide) (by decide)
  have hninodes : (Minix.sbField 0 16).run .little emptyDisk = .ok 32 :=
    run_emptyDisk 256 0 _ rfl (by decide) (by decide)
  have hnzones : (Minix.sbField 16 16).run .little emptyDisk = .ok 32 :=
    run_emptyDisk 256 16 _ rfl (by decide) (by decide)
  have hfirst : (Minix.sbField 64 16).run .little emptyDisk = .ok 5 :=
    run_emptyDisk 258 0 _ rfl (by decide) (by decide)
  have hzones : (Minix.sbField 160 32).run .little emptyDisk = .ok 0 :=
    run_emptyDisk 261 0 _ rfl (by decide) (by decide)
  have hninodes3 : (Minix.sbField 0 32).run .little emptyDisk = .ok 2097184 :=
    run_emptyDisk 256 0 _ rfl (by decide) (by decide)
  have hfirst3 : (Minix.sbField 80 16).run .little emptyDisk = .ok 0 :=
    run_emptyDisk 258 16 _ rfl (by decide) (by decide)
  have hrun : Minix.getMagic.run .little emptyDisk = .ok 0x137f := by
    rw [Minix.getMagic, Prog.run_bind, hmagic]
    rfl
  simp only [Minix.Super.load, Prog.run_bind, hrun, hninodes, hnzones, hfirst, hzones, hninodes3,
    hfirst3, ok_bind, Prog.run_pure]
  rfl

/-- The bit of zone 32 is clear, but the last zone is 31. -/
theorem not_inside_empty : ¬ (minix emptySuper emptyDisk_loaded).choices.Sound emptyDisk
    (minix emptySuper emptyDisk_loaded).first (minix emptySuper emptyDisk_loaded).last := by
  intro hsound
  refine (emptySuper.choices_sound_iff emptyDisk).mp hsound (by decide) ?_
  have hbit : (Prog.field (emptySuper.zmapBit emptySuper.getBlkcnt) 1).run .little emptyDisk = .ok 0 :=
    run_emptyDisk 768 28 _ (by decide) (by decide) (by decide)
  rw [Minix.Super.isZmapSet, Prog.run_bind, hbit]
  rfl

/-- The choices of all three descriptions are blocks of the volume, with entries of their own: of ext2
exactly if no two free blocks share a bit, of VFAT always, and of minix exactly if the bit behind the
last zone's is not clear. -/
theorem choices_inside_iff (v : Volume d) : v.choices.Sound d v.first v.last ↔ v.Suits := by
  cases v with
  | ext2 M first h => exact Ext2.choices_sound_iff h
  | vfat b fatSectors total cc fix h => exact iff_of_true (h.choices_sound fix d) trivial
  | minix sb _ => exact sb.choices_sound_iff d

/-- A FAT16 volume of 40000 sectors. -/
def fat16 : Vfat.Bpb := ⟨512, 4, 1, 2, 512, 40000, 40, 0, 0, 0⟩

theorem fat16_consistent : fat16.Consistent 40 40000 9971 :=
  ⟨rfl, rfl, rfl, by decide, by decide, by decide⟩

theorem choices_inside_fat16 : (fat16.choices 40 9971 (fun _ => ⟨[], []⟩)).Sound emptyDisk
    (fat16.resvSectors 40 * fat16.sectorBits) (40000 * fat16.sectorBits) :=
  (choices_inside_iff (d := emptyDisk) (vfat fat16 40 40000 9971 _ fat16_consistent)).mpr trivial

end Volume

end Fsl
