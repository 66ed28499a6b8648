import Fsl.Runtime.Fields

/-!
# ext2

`fs/ext2_func.fsl`, `fs/ext2_type.fsl` and `fs/ext2.fsl` as they are compiled: every scalar is a
64-bit word, an index is not checked against the length of its array, and operators that stand side
by side without parentheses group to the right.
-/

namespace Fsl.Ext2

open Pread

/-- `assert_nonzero`. -/
def assertNonzero (x : UInt64) : Prog UInt64 := if x = 0 then throw Stop.assertion else pure x

/-- Division and remainder; a zero divisor traps. -/
def udiv (a b : UInt64) : Prog UInt64 := if b = 0 then throw Stop.fault else pure (a / b)

def urem (a b : UInt64) : Prog UInt64 := if b = 0 then throw Stop.fault else pure (a % b)

/-- The functions without parameters. They are computed once, when the tool starts. -/
structure Memo where
  blksPerGrp : UInt64
  getInoSz : UInt64
  getTotalBlks : UInt64
  getBlockSize : UInt64
  inosPerGrp : UInt64
  getGroupCount : UInt64
  blocksPerIndir : UInt64
  bitAddOffset : UInt64
  deriving DecidableEq, Repr

/-- The field of `disk.sb` at the given byte. -/
def sbField (byte width : ℕ)
    (h : 1 ≤ width ∧ width ≤ 64 := by first | exact Width.of16 | exact Width.of32) : Prog UInt64 :=
  Prog.field (UInt64.ofNat (8 * (1024 + byte))) width h

/-- `fsl_load_memo`. -/
def loadMemo : Prog Memo := do
  let blksPerGrp ← sbField 32 32 >>= assertNonzero
  let getInoSz ← sbField 88 16
  let blocksC ← sbField 4 32
  let getTotalBlks ← assertNonzero blocksC
  let logBlockSz ← sbField 24 32
  let getBlockSize ← assertNonzero (1024 <<< logBlockSz)
  let inosPerGrp ← sbField 40 32
  let firstDataBlock ← sbField 20 32
  let getGroupCount ← assertNonzero (1 + (blocksC - firstDataBlock - 1) / blksPerGrp)
  let blocksPerIndir ← assertNonzero (getBlockSize / 4)
  let bitAddOffset := if getBlockSize > 1024 then 1 else 0
  return { blksPerGrp, getInoSz, getTotalBlks, getBlockSize, inosPerGrp, getGroupCount,
           blocksPerIndir, bitAddOffset }

section

variable (M : Memo)

/-! ## Addresses -/

/-- `disk.blocks[b]`. -/
def blocks (b : UInt64) : UInt64 := b * (M.getBlockSize * 8)

/-- `blk_ptr[i]` of the block at `base`. -/
def blkPtr (base i : UInt64) : UInt64 := base + 32 * i

/-- `disk.grp_desc_table[grpnum]`, after the superblock and at a block boundary. -/
def getGroup (grpnum : UInt64) : UInt64 :=
  16384 + (M.getBlockSize * 8 - 16384) % (M.getBlockSize * 8) + 256 * grpnum

/-- `is_fast_symlink`. -/
def isFastSymlink (ino : UInt64) : Prog Bool := do
  let iMode ← Prog.field ino 16
  return (iMode &&& 0xa000) == 0xa000

/-- A pointer of the inode. It is not there in a fast symlink. -/
def inoPtr (ino off : UInt64) : Prog UInt64 := do
  if ← isFastSymlink ino then throw Stop.assertion else pure (ino + off)

/-- `ino.i_block_direct[i]`. -/
def iBlockDirect (ino i : UInt64) : Prog UInt64 := inoPtr ino (320 + 32 * i)

/-- `ino.i_block_indir`. -/
def iBlockIndir (ino : UInt64) : Prog UInt64 := inoPtr ino 704

/-- `ino.i_block_biindir`. -/
def iBlockBiindir (ino : UInt64) : Prog UInt64 := inoPtr ino 736

/-- `ext2_indir_lookup(ino.i_block_indir)`. -/
def indirLookup (ino : UInt64) : Prog UInt64 := do
  let b ← iBlockIndir ino >>= (Prog.field · 32)
  return blocks M b

/-- `ext2_biindir_lookup(ino.i_block_biindir)`. -/
def biindirLookup (ino : UInt64) : Prog UInt64 := do
  let b ← iBlockBiindir ino >>= (Prog.field · 32)
  return blocks M b

/-! ## Block lookup -/

/-- `ext2_indir_in_bi_lookupblk`. -/
def indirInBiLookupblk (ino n : UInt64) : Prog UInt64 := do
  let biindirBlk ← biindirLookup M ino
  Prog.field (blkPtr biindirBlk ((n - (12 + M.blocksPerIndir)) / M.blocksPerIndir)) 32

/-- `ext2_indir_in_bi_lookup`. -/
def indirInBiLookup (ino n : UInt64) : Prog UInt64 := do
  let indirBlknum ← indirInBiLookupblk M ino n
  return blocks M indirBlknum

/-- `biindir_indir_offset`. -/
def biindirIndirOffset (n : UInt64) : UInt64 := (n - (12 + M.blocksPerIndir)) % M.blocksPerIndir

/-- `get_nth_blknum`. -/
def getNthBlknum (ino n : UInt64) : Prog UInt64 :=
  if n < 12 then iBlockDirect ino n >>= (Prog.field · 32)
  else if n < 12 + M.blocksPerIndir then do
    let indirBlk ← indirLookup M ino
    Prog.field (blkPtr indirBlk (n - 12)) 32
  else if n < M.blocksPerIndir * (M.blocksPerIndir + (12 + M.blocksPerIndir)) then do
    let indirBlk ← indirInBiLookup M ino n
    Prog.field (blkPtr indirBlk (biindirIndirOffset M n)) 32
  else pure 999999999999

/-- `size_to_blocks`. -/
def sizeToBlocks (iSize : UInt64) : UInt64 := (iSize + (M.getBlockSize - 1)) / M.getBlockSize

/-- `size_to_metablocks`. -/
def sizeToMetablocks (sz : UInt64) : UInt64 :=
  let numBlocks := sizeToBlocks M sz
  let perIndir := M.blocksPerIndir
  if numBlocks ≤ 12 then 0
  else if numBlocks - 12 < perIndir then 1
  else if numBlocks - 12 - perIndir < perIndir * perIndir then
    2 + ((numBlocks - 12 - perIndir) / perIndir + 1)
  else 99999999999

/-- `is_fmeta_meta`. -/
def isFmetaMeta (n : UInt64) : Bool :=
  let bpi := M.blocksPerIndir
  if n < 12 then false
  else if n = 12 then true
  else if n - 13 < bpi then false
  else if n - 13 = bpi then true
  else if n - 13 - (bpi + 1) > bpi * (bpi + bpi) then false
  else (n - 13 - (bpi + 1)) % (bpi + 1) == 0

/-- `fmeta_to_fblk`. -/
def fmetaToFblk (n : UInt64) : UInt64 :=
  let bpi := M.blocksPerIndir
  if isFmetaMeta M n then 99999999999
  else if n < 12 then n
  else if n - 1 < bpi then n - 1
  else if n - 1 - (bpi + 1) > bpi * (bpi + bpi) then 999999999999
  else n - 1 - (bpi + 1) - ((n - 1 - (bpi + 1)) / bpi + 1)

/-- `get_nth_meta_blknum`. -/
def getNthMetaBlknum (ino n : UInt64) : Prog UInt64 :=
  let perIndir := M.blocksPerIndir
  if n < 12 then getNthBlknum M ino n
  else if n - 12 = 0 then iBlockIndir ino >>= (Prog.field · 32)
  else if n - 12 - 1 < perIndir then getNthBlknum M ino (n - 1)
  else if n - 12 - 1 - perIndir = 0 then iBlockBiindir ino >>= (Prog.field · 32)
  else if n - 12 - 1 - perIndir - 1 ≥ perIndir + perIndir * perIndir then pure 99999999999999
  else if (n - 12 - 1 - perIndir - 1) % perIndir = 0 then
    indirInBiLookupblk M ino (n - 1 - 1 - ((n - 12 - 1 - perIndir - 1) / perIndir + 1))
  else getNthBlknum M ino (n - 1 - 1 - ((n - 12 - 1 - perIndir - 1) / perIndir + 1))

/-! ## Groups -/

/-- `blknum_to_grp`. -/
def blknumToGrp (blknum : UInt64) : UInt64 := (blknum - 1) / M.blksPerGrp

/-- `blknum_to_bmpidx`. -/
def blknumToBmpidx (blknum : UInt64) : UInt64 := (blknum - 1) % M.blksPerGrp

/-- `bn2bmpidx`. -/
def bn2bmpidx (bn : UInt64) : UInt64 := bn + M.bitAddOffset

/-- `get_group_bmp`. -/
def getGroupBmp (grpnum : UInt64) : Prog UInt64 := do
  let bmpBlknum ← Prog.field (getGroup M grpnum) 32
  return blocks M bmpBlknum

/-- `get_group_bmp(blknum_to_grp(blknum)).data[blknum_to_bmpidx(blknum)]`. -/
def bmpBit (blknum : UInt64) : Prog UInt64 := do
  let bmp ← getGroupBmp M (blknumToGrp M blknum)
  return bmp + blknumToBmpidx M blknum

/-- `get_group(blknum_to_grp(blknum)).free_block_c`. -/
def freeBlockC (blknum : UInt64) : UInt64 := getGroup M (blknumToGrp M blknum) + 96

/-- `is_blk_avail`. -/
def isBlkAvail (blknum : UInt64) : Prog Bool := do
  let bit ← bmpBit M blknum >>= (Prog.field · 1)
  return bit == 0

/-- `get_inode`. -/
def getInode (inoNumLogical : UInt64) : Prog UInt64 := do
  let inoNum := inoNumLogical - 1
  let grpIdx ← udiv inoNum M.inosPerGrp
  let inoTabIdx ← urem inoNum M.inosPerGrp
  let inosPerBlk ← udiv M.getBlockSize M.getInoSz
  let inoTabOff ← udiv inoTabIdx inosPerBlk
  let inoIdx ← urem inoTabIdx inosPerBlk
  let tableBlk ← Prog.field (getGroup M grpIdx + 64) 32
  return blocks M (tableBlk + inoTabOff) + inoIdx * (M.getInoSz * 8)

/-! ## Packets -/

/-- The statements of `block_relink`. -/
def blockRelink : List (UInt64 → UInt64 → UInt64 → Prog (List WlogEnt)) :=
  let bpi := M.blocksPerIndir
  [fun ino fileBlk blknum =>
      writeIf (decide (fileBlk < 12)) (iBlockDirect ino fileBlk) 32 blknum,
   fun ino fileBlk blknum =>
      writeIf (decide (fileBlk ≥ 12) && decide (fileBlk < bpi + 12))
        (do return blkPtr (← indirLookup M ino) (fileBlk - 12)) 32 blknum,
   fun ino fileBlk blknum =>
      writeIf (decide (fileBlk ≥ bpi + 12) && decide (fileBlk < bpi * (bpi + (12 + bpi))))
        (do return blkPtr (← indirInBiLookup M ino fileBlk) (biindirIndirOffset M fileBlk)) 32
        blknum]

/-- The statements of `block_relink_meta`. -/
def blockRelinkMeta : List (UInt64 → UInt64 → UInt64 → Prog (List WlogEnt)) :=
  let bpi := M.blocksPerIndir
  [fun ino fmetaBlk blknum =>
      writeIf (decide (fmetaBlk < 12)) (iBlockDirect ino fmetaBlk) 32 blknum,
   fun ino fmetaBlk blknum =>
      writeIf (decide (fmetaBlk = 12)) (iBlockIndir ino) 32 blknum,
   fun ino fmetaBlk blknum =>
      writeIf (decide (fmetaBlk > 12) && decide (fmetaBlk < bpi + 12 + 1))
        (do return blkPtr (← indirLookup M ino) (fmetaBlk - (12 + 1))) 32 blknum,
   fun ino fmetaBlk blknum =>
      writeIf (decide (fmetaBlk = 12 + (1 + bpi))) (iBlockBiindir ino) 32 blknum,
   fun ino fmetaBlk blknum =>
      writeIf (decide (fmetaBlk > 12 + (1 + bpi)) && isFmetaMeta M fmetaBlk)
        (do return blkPtr (← biindirLookup M ino) ((fmetaBlk - (12 + (2 + bpi))) / bpi)) 32 blknum,
   fun ino fmetaBlk blknum =>
      writeIf (decide (fmetaBlk > 12 + (1 + bpi)) && !isFmetaMeta M fmetaBlk)
        (do
          let indirBlk ← indirInBiLookup M ino (fmetaToFblk M fmetaBlk)
          return blkPtr indirBlk (biindirIndirOffset M (fmetaToFblk M fmetaBlk))) 32 blknum]

/-- The statements of `block_alloc`, with `bit = 1` and `delta = -1`, and of `block_replace`, with
`bit = 0` and `delta = 1`. -/
def markBlock (bit delta : UInt64) : List (UInt64 → Prog (List WlogEnt)) :=
  [fun blknum => do return [writeVal (← bmpBit M blknum) 1 bit],
   fun blknum => do
      let c ← Prog.field (freeBlockC M blknum) 16
      return [writeVal (freeBlockC M blknum) 16 (c + delta)]]

/-- The names of the packets. -/
inductive Pkt
  | blockRelink | blockRelinkMeta | blockAlloc | blockReplace
  deriving DecidableEq, Repr

/-- A function of a packet that takes an inode and two numbers. -/
def onInode (f : UInt64 → UInt64 → UInt64 → Prog (List WlogEnt)) :
    List UInt64 → Prog (List WlogEnt)
  | [ino, n, blknum] => f ino n blknum
  | _ => throw Stop.fault

/-- A function of a packet that takes a block number. -/
def onBlknum (f : UInt64 → Prog (List WlogEnt)) : List UInt64 → Prog (List WlogEnt)
  | [blknum] => f blknum
  | _ => throw Stop.fault

/-- The packets of `ext2.fsl`. None calls another. -/
def pkts : Pkt → Wpkt Pkt
  | .blockRelink => ⟨(blockRelink M).map onInode, []⟩
  | .blockRelinkMeta => ⟨(blockRelinkMeta M).map onInode, []⟩
  | .blockAlloc => ⟨(markBlock M 1 (-1)).map onBlknum, []⟩
  | .blockReplace => ⟨(markBlock M 0 1).map onBlknum, []⟩

end

end Fsl.Ext2
