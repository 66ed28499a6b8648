import Fsl.Runtime.Disk

/-!
# VFAT

`fs/vfat.fsl`, `fs/vfat_func.fsl`, `fs/vfat_type.fsl` and `fs/vfat_fsck.fsl`, as they are compiled:
scalars are 64-bit words, comparisons are unsigned, and operators that stand side by side without
parentheses group to the right.
-/

namespace Fsl.Vfat

/-- The fields of `bpb` that decide the layout. -/
structure Bpb where
  bytesPerSector : UInt16
  sectorsPerCluster : UInt8
  reservedSectorC : UInt16
  fatCount : UInt8
  rootDeC : UInt16
  totalSect16 : UInt16
  sectorsInFat16 : UInt16
  totalSect32 : UInt32
  sectorsInFat32 : UInt32
  rootCluster : UInt32

/-- `fat_type` -/
inductive FatType
  | fat12
  | fat16
  | fat32
  deriving DecidableEq, Repr

/-- `assert_nonzero` -/
def assertNonzero (x : UInt64) : Except Stop UInt64 := do
  fslAssert (x ≠ 0)
  return x

/-- A division; by zero, it traps. -/
def udiv (a b : UInt64) : Except Stop UInt64 := if b = 0 then .error .fault else .ok (a / b)

namespace Bpb

variable (b : Bpb)

def getTotalSectors : Except Stop UInt64 :=
  assertNonzero (if b.totalSect16 ≠ 0 then b.totalSect16.toUInt64 else b.totalSect32.toUInt64)

def getFatSectors : Except Stop UInt64 :=
  assertNonzero
    (if b.sectorsInFat16 ≠ 0 then b.sectorsInFat16.toUInt64 else b.sectorsInFat32.toUInt64)

def getFatBytes : Except Stop UInt64 := do
  let sectors ← b.getFatSectors
  assertNonzero (sectors * b.bytesPerSector.toUInt64)

def getClusterCount : Except Stop UInt64 := do
  let fatSectors ← b.getFatSectors
  let totalSectors ← b.getTotalSectors
  let bps := b.bytesPerSector.toUInt64
  let rootDirSectors ← udiv (b.rootDeC.toUInt64 * 32 + (bps - 1)) bps
  let resvSectors := b.reservedSectorC.toUInt64 + b.fatCount.toUInt64 * fatSectors + rootDirSectors
  let dataSectors := totalSectors - resvSectors
  let clusterC ← udiv dataSectors b.sectorsPerCluster.toUInt64
  assertNonzero clusterC

/-- `get_fat_type`, with the number of clusters. -/
def fatType (clusterCount : UInt64) : FatType :=
  if b.sectorsInFat16 = 0 then .fat32
  else if clusterCount < 4085 then .fat12
  else if clusterCount < 65525 then .fat16
  else .fat32

end Bpb

namespace FatType

/-- `get_fatent_bits` -/
def entBits : FatType → UInt64
  | fat12 => 12
  | fat16 => 16
  | fat32 => 32

/-- `get_fatmax`; also the bound of `is_valid_cnum`. -/
def max : FatType → UInt64
  | fat12 => 0xff4
  | fat16 => 0xfff4
  | fat32 => 0x0ffffff6

/-- `get_eof` -/
def eof : FatType → UInt64
  | fat12 => 0xfff
  | fat16 => 0xffff
  | fat32 => 0xffffffff

end FatType

/-- The assertions of `disk`; in `chk_fitsfat` the quotient is by `get_fatent_bits()-2`. -/
def Bpb.asserts (b : Bpb) : Except Stop Bool := do
  let clusterCount ← b.getClusterCount
  let fatBytes ← b.getFatBytes
  let most ← udiv (fatBytes * 8) ((b.fatType clusterCount).entBits - 2)
  return b.bytesPerSector.toUInt64 &&& (512 - 1) == 0 && decide (b.reservedSectorC > 0) &&
    decide (clusterCount ≤ most)

/-- An image that passes the assertions of `disk`, by its layout and the entries of the first FAT. -/
structure Image where
  bpb : Bpb
  clusterCount : UInt64
  count_eq : bpb.getClusterCount = .ok clusterCount
  passes : bpb.asserts = .ok true
  ent : UInt64 → UInt64
  ent_lt : ∀ cn, (ent cn).toNat < 2 ^ (bpb.fatType clusterCount).entBits.toNat

namespace Image

variable (img : Image)

/-- `get_fat_type` -/
def fatType : FatType := img.bpb.fatType img.clusterCount

/-- The length of `ent12`, `ent16` or `ent32`. -/
def entCount : UInt64 := 2 + img.clusterCount

/-- `cluster_bad_range` -/
def clusterBadRange (v : UInt64) : Bool :=
  if v = 1 then true
  else decide (img.clusterCount + 2 ≤ v) && decide (v < img.fatType.max)

/-- `is_valid_cnum` -/
def isValidCnum (cnum : UInt64) : Bool :=
  if cnum < 2 then false
  else if img.fatType.max < cnum then false
  else true

/-- `is_eof` -/
def isEof (cnum : UInt64) : Bool := decide (cnum = img.fatType.eof)

/-- `fat_next`; no value where the index is outside of the array. -/
def fatNext (cn : UInt64) : Option UInt64 := if cn < img.entCount then some (img.ent cn) else none

/-- `fat_chain_nth_cnum`, with the number of turns that are left, `i - 1`. -/
def fatChainNthCnum (cur : UInt64) : ℕ → Option UInt64
  | 0 => some cur
  | turns + 1 =>
    if img.isEof cur then some cur
    else (img.fatNext cur).bind fun next => fatChainNthCnum next turns

/-- How far `fat_chain_count` has come. -/
inductive Count
  | running (cur count : UInt64)
  | done (count : UInt64)
  | outside
  deriving DecidableEq

/-- `fat_chain_count`, after some turns of its loop. -/
def fatChainCount (cur count : UInt64) : ℕ → Count
  | 0 => .running cur count
  | turns + 1 =>
    if img.isValidCnum cur then
      match img.fatNext cur with
      | some next => fatChainCount next (count + 1) turns
      | none => .outside
    else .done count

end Image

end Fsl.Vfat
