import Fsl.Runtime.Fields
import Fsl.Lib.PtrTree

/-!
# minix

`fs/minix_func.fsl` and `fs/minix.fsl`: the zones of a file are found through an inode with 16-bit
pointers (V1) or with 32-bit pointers (V2 and V3). A zone has `BLK_SZ = 1024` bytes.
-/

namespace Fsl.Minix

open Pread PtrTree PtrTree.Slot

/-- What the two inode formats differ in: the width of a pointer, the pointers to a zone, and the
cell of `i_zone_direct` in the inode, which has 16 cells. -/
structure Fmt where
  width : ℕ
  per : ℕ
  first : ℕ
  width_ok : 1 ≤ width ∧ width ≤ 32
  bytes : 8 ∣ width
  zone_bits : width * per = 8192
  first_le : first + 9 ≤ 16

/-- `minix_inode` with `minix_v1_ptrblock`. -/
def v1 : Fmt := ⟨16, 512, 7, by decide, by decide, by decide, by decide⟩

/-- `minix2_inode` with `minix_v2_ptrblock`. -/
def v2 : Fmt := ⟨32, 256, 6, by decide, by decide, by decide, by decide⟩

namespace Fmt

variable (f : Fmt)

/-- `ino.i_zone_direct[i]`; the entries 7 and 8 are `ino.i_zone_indir` and `ino.i_zone_bindir`. -/
def zone (ino i : UInt64) : UInt64 :=
  ino + (UInt64.ofNat (f.width * f.first) + UInt64.ofNat f.width * i)

/-- The value of a pointer. -/
def read (addr : UInt64) : Prog UInt64 :=
  Prog.field addr f.width ⟨f.width_ok.1, f.width_ok.2.trans (by decide)⟩

end Fmt

/-- `disk.v1[z].ptr[i]`, with `w = 16`, and `disk.v2[z].ptr[i]`, with `w = 32`. -/
def ptr (w : ℕ) (z i : UInt64) : UInt64 := z * 8192 + UInt64.ofNat w * i

/-- `get_nth_meta_v1_bnum` and `get_nth_meta_v2_bnum`; `rest` is what stands behind the
double-indirect range. -/
def getNthMeta (f : Fmt) (rest : UInt64 → Prog UInt64) (ino blkoff : UInt64) : Prog UInt64 :=
  let pindir := UInt64.ofNat f.per
  if blkoff < 7 then f.read (f.zone ino blkoff)
  else if blkoff - 7 = 0 then f.read (f.zone ino 7)
  else if blkoff - 7 - 1 < pindir then do
    let indir ← f.read (f.zone ino 7)
    f.read (ptr f.width indir (blkoff - 7 - 1))
  else if blkoff - 7 - 1 - pindir = 0 then f.read (f.zone ino 8)
  else do
    let off := blkoff - 7 - 1 - pindir - 1
    let indirIdx := off / (pindir + 1)
    let bindir ← f.read (f.zone ino 8)
    let indirBnum ← f.read (ptr f.width bindir indirIdx)
    if off % (pindir + 1) = 0 then pure indirBnum
    else if off - (indirIdx + 1) < pindir * pindir then
      f.read (ptr f.width indirBnum ((off - (indirIdx + 1)) % pindir))
    else rest (off - (indirIdx + 1) - pindir * pindir)

/-- `get_nth_meta_v1_bnum`. -/
def getNthMetaV1Bnum (ino : UInt64) : UInt64 → Prog UInt64 := getNthMeta v1 (fun _ => pure 0) ino

/-- `get_nth_meta_v2_bnum`. -/
def getNthMetaV2Bnum (ino : UInt64) : UInt64 → Prog UInt64 :=
  getNthMeta v2 (fun off => if off = 0 then v2.read (v2.zone ino 9) else pure 99999999999) ino

/-- `bindir_base_v1`. -/
def bindirBaseV1 : UInt64 := 7 + (1 + (1024 / 2 + 1))

/-- `bindir_base_v2`. -/
def bindirBaseV2 : UInt64 := 7 + (1 + (1024 / 4 + 1))

/-- The statements of `minix_block_relink_meta_v1` and `minix_block_relink_meta_v2`. Both address the
zones of pointers through `disk.v1`; the last two statements count from `base` and `base'`. The
offset in a second-level zone is written `…%(1+(BLK_SZ/2))-1`, which groups to the right. -/
def blockRelinkMeta (f : Fmt) (base base' : UInt64) :
    List (UInt64 → UInt64 → UInt64 → Prog (List WlogEnt)) :=
  let per := UInt64.ofNat f.per
  let width := UInt64.ofNat f.width
  [fun ino boff bnum => writeIf (decide (boff < 7)) (pure (f.zone ino boff)) width bnum,
   fun ino boff bnum => writeIf (decide (boff = 7)) (pure (f.zone ino 7)) width bnum,
   fun ino boff bnum =>
      writeIf (decide (boff > 7) && decide (boff - 8 < per))
        (do
          let indir ← f.read (f.zone ino 7)
          return ptr 16 indir (boff - 8)) 16 bnum,
   fun ino boff bnum => writeIf (decide (boff = 8 + per)) (pure (f.zone ino 8)) width bnum,
   fun ino boff bnum =>
      writeIf (decide (boff > base) && decide ((boff - base) % (1 + per) = 0))
        (do
          let bindir ← f.read (f.zone ino 8)
          return ptr 16 bindir ((boff - base) / (1 + per))) 16 bnum,
   fun ino boff bnum =>
      writeIf (decide (boff > base') && decide ((boff - base') % (1 + per) ≠ 0))
        (do
          let bindir ← f.read (f.zone ino 8)
          let indir ← Prog.field (ptr 16 bindir ((boff - base') / (1 + per))) 16
          return ptr 16 indir ((boff - base') % (1 + per - 1))) 16 bnum]

/-- The names of the packets. -/
inductive Pkt
  | blockRelinkMetaV1 | blockRelinkMetaV2
  deriving DecidableEq, Repr

/-- A function of a packet that takes an inode and two numbers. -/
def onInode (f : UInt64 → UInt64 → UInt64 → Prog (List WlogEnt)) :
    List UInt64 → Prog (List WlogEnt)
  | [ino, boff, bnum] => f ino boff bnum
  | _ => throw Stop.fault

/-- The relink packets of `minix.fsl`. -/
def pkts : Pkt → Wpkt Pkt
  | .blockRelinkMetaV1 => ⟨(blockRelinkMeta v1 bindirBaseV1 bindirBaseV1).map onInode, []⟩
  | .blockRelinkMetaV2 => ⟨(blockRelinkMeta v2 bindirBaseV1 bindirBaseV2).map onInode, []⟩

end Fsl.Minix
