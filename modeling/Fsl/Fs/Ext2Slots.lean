import Fsl.Fs.Ext2
import Fsl.Lib.PtrTree

/-!
# The pointers of an ext2 inode

The block lookup of ext2 reads one pointer of the tree below an inode, and a relink packet writes
one. This file gives each of them its slot in the tree.
-/

namespace Fsl.Ext2

open Pread PtrTree PtrTree.Slot

/-! ## Block sizes -/

/-- Blocks of `2 ^ (10 + s)` bytes, with `2 ^ (8 + s)` pointers. -/
structure Geom (M : Memo) (s : ℕ) : Prop where
  le : s ≤ 53
  blockSize : M.getBlockSize.toNat = 2 ^ (10 + s)
  perIndir : M.blocksPerIndir.toNat = 2 ^ (8 + s)

theorem assertNonzero_ok {x y : UInt64} {d : Disk} (h : (assertNonzero x).run .little d = .ok y) :
    y = x ∧ x ≠ 0 := by
  unfold assertNonzero at h
  by_cases hx : x = 0
  · rw [if_pos hx] at h
    cases h
  · rw [if_neg hx] at h
    cases h
    exact ⟨rfl, hx⟩

theorem Geom.of_shift {M : Memo} {v : UInt64} (hsz : M.getBlockSize = 1024 <<< v)
    (hne : M.getBlockSize ≠ 0) (hpi : M.blocksPerIndir = M.getBlockSize / 4) :
    ∃ s, Geom M s := by
  have hshift : M.getBlockSize.toNat = 2 ^ (10 + v.toNat % 64) % 2 ^ 64 := by
    rw [hsz, UInt64.toNat_shiftLeft, Nat.shiftLeft_eq, pow_add]
    rfl
  have hs : v.toNat % 64 ≤ 53 := by
    by_contra hlt
    refine hne (UInt64.toNat_inj.mp ?_)
    obtain ⟨j, hj⟩ : ∃ j, 10 + v.toNat % 64 = 64 + j := ⟨v.toNat % 64 - 54, by omega⟩
    rw [hshift, hj, pow_add, Nat.mul_mod_right]
    rfl
  have hlt : 2 ^ (10 + v.toNat % 64) < 2 ^ 64 := Nat.pow_lt_pow_right (by omega) (by omega)
  rw [Nat.mod_eq_of_lt hlt] at hshift
  refine ⟨v.toNat % 64, hs, hshift, ?_⟩
  rw [hpi, UInt64.toNat_div, hshift, show 10 + v.toNat % 64 = (8 + v.toNat % 64) + 2 by omega,
    pow_add _ _ 2]
  exact Nat.mul_div_cancel _ (by norm_num)

/-- What the tool has read from the superblock when it starts. -/
theorem loadMemo_ok {d : Disk} {M : Memo} (h : loadMemo.run .little d = .ok M) :
    ∃ s, Geom M s := by
  unfold loadMemo at h
  simp only [Prog.run_bind] at h
  obtain ⟨_, -, h⟩ := bind_eq_ok h
  obtain ⟨_, -, h⟩ := bind_eq_ok h
  obtain ⟨_, -, h⟩ := bind_eq_ok h
  obtain ⟨_, -, h⟩ := bind_eq_ok h
  obtain ⟨v, -, h⟩ := bind_eq_ok h
  obtain ⟨bsz, hbsz, h⟩ := bind_eq_ok h
  obtain ⟨_, -, h⟩ := bind_eq_ok h
  obtain ⟨_, -, h⟩ := bind_eq_ok h
  obtain ⟨_, -, h⟩ := bind_eq_ok h
  obtain ⟨bpi, hbpi, h⟩ := bind_eq_ok h
  cases h
  obtain ⟨rfl, hne⟩ := assertNonzero_ok hbsz
  obtain ⟨rfl, -⟩ := assertNonzero_ok hbpi
  exact Geom.of_shift rfl hne rfl

variable {M : Memo} {s : ℕ}

theorem Geom.perIndir_lt (hg : Geom M s) : 2 ^ (8 + s) ≤ 2 ^ 61 :=
  Nat.pow_le_pow_right (by omega) (by have := hg.le; omega)

theorem Geom.le_perIndir (s : ℕ) : 256 ≤ 2 ^ (8 + s) :=
  le_trans (show 256 ≤ 2 ^ 8 by norm_num) (Nat.pow_le_pow_right (by omega) (by omega))

/-- The address of a pointer in a block, as the compiled code computes it. -/
theorem Geom.toNat_blkPtr (hg : Geom M s) (b i : UInt64) :
    (blkPtr (blocks M b) i).toNat = 32 * (b.toNat * 2 ^ (8 + s) + i.toNat) % 2 ^ 64 := by
  have hbits : 2 ^ (10 + s) * 8 = 32 * 2 ^ (8 + s) := by
    rw [show 10 + s = (8 + s) + 2 by omega, pow_add _ _ 2]
    ring
  rw [blkPtr, blocks, UInt64.toNat_add, UInt64.toNat_mul, UInt64.toNat_mul, UInt64.toNat_mul,
    hg.blockSize]
  show (b.toNat * (2 ^ (10 + s) * 8 % 2 ^ 64) % 2 ^ 64 + 32 * i.toNat % 2 ^ 64) % 2 ^ 64 = _
  rw [hbits, Nat.mul_mod_mod, ← Nat.add_mod]
  congr 1
  ring

/-! ## Slots -/

/-- The pointers of an inode, as cells. -/
def inodeRoot (ino : UInt64) : Root where
  direct i := ino.toNat / 32 + 10 + i
  indir := ino.toNat / 32 + 22
  bindir := ino.toNat / 32 + 23

/-- The cell of pointer `i` of block `b`. -/
def entry (s b i : ℕ) : ℕ := b * 2 ^ (8 + s) + i

/-- The cell of a slot. -/
abbrev slotCell (d : Disk) (s : ℕ) (ino : UInt64) (t : Slot) : ℕ :=
  addr (entry s) (inodeRoot ino) (d.cell 32) t

/-- The block number in a slot. -/
abbrev slotBlk (d : Disk) (s : ℕ) (ino : UInt64) (t : Slot) : ℕ :=
  val (entry s) (inodeRoot ino) (d.cell 32) t

/-- Code for the address of a slot. -/
def slotAddr (M : Memo) (ino : UInt64) : Slot → Prog UInt64
  | direct i => iBlockDirect ino (UInt64.ofNat i)
  | indir => iBlockIndir ino
  | bindir => iBlockBiindir ino
  | ind i => do return blkPtr (← indirLookup M ino) (UInt64.ofNat i)
  | bi q => do return blkPtr (← biindirLookup M ino) (UInt64.ofNat q)
  | leaf q r => do
    let base ← biindirLookup M ino
    let b ← Prog.field (blkPtr base (UInt64.ofNat q)) 32
    return blkPtr (blocks M b) (UInt64.ofNat r)

/-- Code that reads a slot. -/
def readSlot (M : Memo) (ino : UInt64) (t : Slot) : Prog UInt64 :=
  slotAddr M ino t >>= (Prog.field · 32)

/-- Code that writes a slot. -/
def writeSlot (M : Memo) (ino : UInt64) (t : Slot) (b : UInt64) : Prog (List WlogEnt) := do
  return [writeVal (← slotAddr M ino t) 32 b]

/-- The inode lies on a disk of whole lines, at a whole cell, and is not a fast symlink. -/
structure Readable (d : Disk) (ino : UInt64) : Prop where
  lines : 32 ∣ d.size
  aligned : 32 ∣ ino.toNat
  inside : ino.toNat + 1024 ≤ 8 * d.size
  data : (isFastSymlink ino).run .little d = .ok false

/-- Cell `c` lies on the disk. -/
def OnDisk (d : Disk) (c : ℕ) : Prop := 32 * c + 32 ≤ 8 * d.size

instance (d : Disk) (c : ℕ) : Decidable (OnDisk d c) := Nat.decLe _ _

variable {d : Disk} {ino : UInt64}

theorem Readable.run_inoPtr (h : Readable d ino) {off : UInt64} {c : ℕ} (hoff : off.toNat = 32 * c)
    (hc : c < 32) :
    ∃ a, (inoPtr ino off).run .little d = .ok a ∧ a.toNat = 32 * (ino.toNat / 32 + c) := by
  refine ⟨ino + off, ?_, ?_⟩
  · rw [inoPtr, Prog.run_bind, h.data]
    rfl
  · have hin := h.inside
    have hal := h.aligned
    have hsize := d.size_lt
    rw [UInt64.toNat_add, hoff]
    omega

/-- The slot above a slot, and the slots above that, lie on the disk, and the cell of the slot has a
64-bit address. -/
def Reached (d : Disk) (s : ℕ) (ino : UInt64) (t : Slot) : Prop :=
  (∀ t' ∈ t.path, t' ≠ t → OnDisk d (slotCell d s ino t')) ∧ slotCell d s ino t < 2 ^ 59

theorem Readable.run_cell (h : Readable d ino) {a : UInt64} {c : ℕ} (ha : a.toNat = 32 * c) :
    (Prog.field a 32).run .little d =
      if OnDisk d c then .ok (UInt64.ofNat (d.cell 32 c)) else .error .assertion :=
  Prog.run_field_cell h.lines (by decide) (by decide) ha

theorem toNat_ofNat_cell (d : Disk) (c : ℕ) : (UInt64.ofNat (d.cell 32 c)).toNat = d.cell 32 c :=
  UInt64.toNat_ofNat_of_lt' (lt_trans (d.cell_lt 32 c) (by norm_num [UInt64.size]))

/-- The address of a pointer in the block that cell `c` names. -/
theorem Geom.toNat_blkPtr_cell (hg : Geom M s) {c i : ℕ} (hlt : entry s (d.cell 32 c) i < 2 ^ 59) :
    (blkPtr (blocks M (UInt64.ofNat (d.cell 32 c))) (UInt64.ofNat i)).toNat =
      32 * entry s (d.cell 32 c) i := by
  have hi : (UInt64.ofNat i).toNat = i :=
    UInt64.toNat_ofNat_of_lt' (by unfold entry at hlt; norm_num [UInt64.size]; omega)
  rw [hg.toNat_blkPtr, toNat_ofNat_cell, hi]
  exact Nat.mod_eq_of_lt (by unfold entry at hlt; omega)

theorem Readable.run_indirLookup (h : Readable d ino) :
    (indirLookup M ino).run .little d =
      .ok (blocks M (UInt64.ofNat (d.cell 32 (inodeRoot ino).indir))) := by
  have hoff : (704 : UInt64).toNat = 32 * 22 := rfl
  obtain ⟨a, ha, hat⟩ := h.run_inoPtr hoff (by omega)
  have hin : OnDisk d (ino.toNat / 32 + 22) := by
    have hin := h.inside
    unfold OnDisk
    omega
  change a.toNat = 32 * (inodeRoot ino).indir at hat
  change OnDisk d (inodeRoot ino).indir at hin
  rw [indirLookup, iBlockIndir, Prog.run_bind, Prog.run_bind, ha]
  rw [ok_bind, h.run_cell hat, if_pos hin, ok_bind, Prog.run_pure]

theorem Readable.run_biindirLookup (h : Readable d ino) :
    (biindirLookup M ino).run .little d =
      .ok (blocks M (UInt64.ofNat (d.cell 32 (inodeRoot ino).bindir))) := by
  have hoff : (736 : UInt64).toNat = 32 * 23 := rfl
  obtain ⟨a, ha, hat⟩ := h.run_inoPtr hoff (by omega)
  have hin : OnDisk d (ino.toNat / 32 + 23) := by
    have hin := h.inside
    unfold OnDisk
    omega
  change a.toNat = 32 * (inodeRoot ino).bindir at hat
  change OnDisk d (inodeRoot ino).bindir at hin
  rw [biindirLookup, iBlockBiindir, Prog.run_bind, Prog.run_bind, ha]
  rw [ok_bind, h.run_cell hat, if_pos hin, ok_bind, Prog.run_pure]

theorem Readable.run_slotAddr (h : Readable d ino) (hg : Geom M s) {t : Slot}
    (hd : ∀ i, t = direct i → i < 12) (hr : Reached d s ino t) :
    ∃ a, (slotAddr M ino t).run .little d = .ok a ∧ a.toNat = 32 * slotCell d s ino t := by
  obtain ⟨hpath, hlt⟩ := hr
  cases t with
  | direct i =>
    have hi := hd i rfl
    have hoff : (320 + 32 * UInt64.ofNat i).toNat = 32 * (10 + i) := by
      rw [UInt64.toNat_add, UInt64.toNat_mul, UInt64.toNat_ofNat_of_lt' (by norm_num [UInt64.size]; omega)]
      show (320 + 32 * i % 2 ^ 64) % 2 ^ 64 = _
      omega
    obtain ⟨a, ha, hat⟩ := h.run_inoPtr hoff (by omega)
    refine ⟨a, ha, hat.trans ?_⟩
    show _ = 32 * (ino.toNat / 32 + 10 + i)
    omega
  | indir =>
    have hoff : (704 : UInt64).toNat = 32 * 22 := rfl
    exact h.run_inoPtr hoff (by omega)
  | bindir =>
    have hoff : (736 : UInt64).toNat = 32 * 23 := rfl
    exact h.run_inoPtr hoff (by omega)
  | ind i =>
    refine ⟨_, ?_, hg.toNat_blkPtr_cell hlt⟩
    rw [slotAddr, Prog.run_bind, h.run_indirLookup, ok_bind, Prog.run_pure]
  | bi q =>
    refine ⟨_, ?_, hg.toNat_blkPtr_cell hlt⟩
    rw [slotAddr, Prog.run_bind, h.run_biindirLookup, ok_bind, Prog.run_pure]
  | leaf q r =>
    have hbi : OnDisk d (entry s (d.cell 32 (inodeRoot ino).bindir) q) :=
      hpath (bi q) (by simp [path]) (by simp)
    have hcell : (blkPtr (blocks M (UInt64.ofNat (d.cell 32 (inodeRoot ino).bindir)))
        (UInt64.ofNat q)).toNat = 32 * entry s (d.cell 32 (inodeRoot ino).bindir) q := by
      have hsize := d.size_lt
      exact hg.toNat_blkPtr_cell (by unfold OnDisk at hbi; omega)
    have hleaf : (blkPtr (blocks M (UInt64.ofNat (d.cell 32
        (entry s (d.cell 32 (inodeRoot ino).bindir) q)))) (UInt64.ofNat r)).toNat =
          32 * entry s (d.cell 32 (entry s (d.cell 32 (inodeRoot ino).bindir) q)) r :=
      hg.toNat_blkPtr_cell hlt
    refine ⟨_, ?_, hleaf⟩
    rw [slotAddr, Prog.run_bind, h.run_biindirLookup, ok_bind, Prog.run_bind, h.run_cell hcell,
      if_pos hbi, ok_bind, Prog.run_pure]

/-- A slot that is reached reads as its block number if it lies on the disk, and stops the tool
otherwise. -/
theorem Readable.run_readSlot (h : Readable d ino) (hg : Geom M s) {t : Slot}
    (hd : ∀ i, t = direct i → i < 12) (hr : Reached d s ino t) :
    (readSlot M ino t).run .little d =
      if OnDisk d (slotCell d s ino t) then .ok (UInt64.ofNat (slotBlk d s ino t))
      else .error .assertion := by
  obtain ⟨a, ha, hat⟩ := h.run_slotAddr hg hd hr
  rw [readSlot, Prog.run_bind, ha]
  exact h.run_cell hat

/-- A slot whose way is broken stops the tool. -/
theorem Readable.run_leaf_stops (h : Readable d ino) (hg : Geom M s) {q r : ℕ}
    (hlt : slotCell d s ino (bi q) < 2 ^ 59) (hout : ¬ OnDisk d (slotCell d s ino (bi q))) :
    (slotAddr M ino (leaf q r)).run .little d = .error .assertion := by
  have hcell : (blkPtr (blocks M (UInt64.ofNat (d.cell 32 (inodeRoot ino).bindir)))
      (UInt64.ofNat q)).toNat = 32 * entry s (d.cell 32 (inodeRoot ino).bindir) q :=
    hg.toNat_blkPtr_cell hlt
  change ¬ OnDisk d (entry s (d.cell 32 (inodeRoot ino).bindir) q) at hout
  rw [slotAddr, Prog.run_bind, h.run_biindirLookup, ok_bind, Prog.run_bind, h.run_cell hcell,
    if_neg hout, error_bind]

/-! ## Where the lookup reads -/

theorem Geom.toNat_add (hg : Geom M s) {k : UInt64} (hk : k.toNat < 2 ^ 62) :
    (k + M.blocksPerIndir).toNat = k.toNat + 2 ^ (8 + s) := by
  have hlt := hg.perIndir_lt
  rw [UInt64.toNat_add, hg.perIndir]
  exact Nat.mod_eq_of_lt (by omega)

/-- The slot of block `n` of a file, with `p` pointers to a block. -/
def blkSlot (p n : ℕ) : Slot :=
  if n < 12 then direct n
  else if n < 12 + p then ind (n - 12)
  else leaf ((n - 12 - p) / p) ((n - 12 - p) % p)

theorem Geom.indirInBiLookupblk_eq (hg : Geom M s) (ino n : UInt64) :
    indirInBiLookupblk M ino n =
      readSlot M ino (bi ((n - (12 + M.blocksPerIndir)).toNat / 2 ^ (8 + s))) := by
  have hq : (n - (12 + M.blocksPerIndir)) / M.blocksPerIndir =
      UInt64.ofNat ((n - (12 + M.blocksPerIndir)).toNat / 2 ^ (8 + s)) :=
    eq_ofNat (by rw [UInt64.toNat_div, hg.perIndir])
  rw [indirInBiLookupblk, readSlot, slotAddr, hq, bind_assoc]
  rfl

/-- The address of a pointer behind the single-indirect block, for every index. -/
theorem Geom.leafAddr_eq (hg : Geom M s) (ino n : UInt64) :
    (do
      let indirBlk ← indirInBiLookup M ino n
      return blkPtr indirBlk (biindirIndirOffset M n)) =
    slotAddr M ino (leaf ((n - (12 + M.blocksPerIndir)).toNat / 2 ^ (8 + s))
      ((n - (12 + M.blocksPerIndir)).toNat % 2 ^ (8 + s))) := by
  have hr : biindirIndirOffset M n =
      UInt64.ofNat ((n - (12 + M.blocksPerIndir)).toNat % 2 ^ (8 + s)) :=
    eq_ofNat (by rw [biindirIndirOffset, UInt64.toNat_mod, hg.perIndir])
  rw [indirInBiLookup, hg.indirInBiLookupblk_eq, hr, readSlot, slotAddr, slotAddr]
  simp only [bind_assoc, pure_bind]

theorem Geom.leaf_eq (hg : Geom M s) (ino n : UInt64) :
    (do
      let indirBlk ← indirInBiLookup M ino n
      Prog.field (blkPtr indirBlk (biindirIndirOffset M n)) 32) =
    readSlot M ino (leaf ((n - (12 + M.blocksPerIndir)).toNat / 2 ^ (8 + s))
      ((n - (12 + M.blocksPerIndir)).toNat % 2 ^ (8 + s))) := by
  rw [readSlot, ← hg.leafAddr_eq]
  simp only [bind_assoc, pure_bind]

/-- The test of `get_nth_blknum` for the double-indirect range, which is wider than the range. -/
theorem Geom.lt_bound (hg : Geom M s) (hs : s ≤ 20) {n : UInt64}
    (hn : n.toNat < 12 + 2 ^ (8 + s) + 2 ^ (8 + s) * 2 ^ (8 + s)) :
    n < M.blocksPerIndir * (M.blocksPerIndir + (12 + M.blocksPerIndir)) := by
  have hp : 2 ^ (8 + s) ≤ 2 ^ 28 := Nat.pow_le_pow_right (by omega) (by omega)
  have hp' := Geom.le_perIndir s
  rw [UInt64.lt_iff_toNat_lt, UInt64.toNat_mul, UInt64.toNat_add, hg.toNat_add (by decide),
    hg.perIndir]
  generalize 2 ^ (8 + s) = p at *
  have hsq : p * p ≤ 2 ^ 28 * p := Nat.mul_le_mul_right p hp
  rw [Nat.mod_eq_of_lt (a := p + _) (by show p + (12 + p) < _; omega),
    show p * (p + ((12 : UInt64).toNat + p)) = 2 * (p * p) + 12 * p by
      show p * (p + (12 + p)) = _
      ring]
  rw [Nat.mod_eq_of_lt (by omega)]
  omega

theorem Geom.getNthBlknum_eq (hg : Geom M s) {n : UInt64} (ino : UInt64)
    (hn : n.toNat < 12 + 2 ^ (8 + s) ∨
      s ≤ 20 ∧ n.toNat < 12 + 2 ^ (8 + s) + 2 ^ (8 + s) * 2 ^ (8 + s)) :
    getNthBlknum M ino n = readSlot M ino (blkSlot (2 ^ (8 + s)) n.toNat) := by
  have h12 : n < 12 ↔ n.toNat < 12 := UInt64.lt_iff_toNat_lt
  have hind : n < 12 + M.blocksPerIndir ↔ n.toNat < 12 + 2 ^ (8 + s) := by
    rw [UInt64.lt_iff_toNat_lt, hg.toNat_add (by decide)]
    rfl
  unfold getNthBlknum blkSlot
  by_cases hlt : n.toNat < 12
  · rw [if_pos (h12.mpr hlt), if_pos hlt, readSlot, slotAddr, UInt64.ofNat_toNat]
  · rw [if_neg (mt h12.mp hlt), if_neg hlt]
    by_cases hlt' : n.toNat < 12 + 2 ^ (8 + s)
    · have hsub : n - 12 = UInt64.ofNat (n.toNat - 12) :=
        eq_ofNat (UInt64.toNat_sub_of_le _ _ (by rw [UInt64.le_iff_toNat_le]; show 12 ≤ _; omega))
      rw [if_pos (hind.mpr hlt'), if_pos hlt', readSlot, slotAddr, hsub]
      simp only [bind_assoc, pure_bind]
    · obtain ⟨hs, hn⟩ := hn.resolve_left hlt'
      have hsub : (n - (12 + M.blocksPerIndir)).toNat = n.toNat - 12 - 2 ^ (8 + s) := by
        have htot : (12 + M.blocksPerIndir).toNat = 12 + 2 ^ (8 + s) := hg.toNat_add (by decide)
        rw [UInt64.toNat_sub_of_le _ _ (by rw [UInt64.le_iff_toNat_le, htot]; omega), htot]
        omega
      rw [if_neg (mt hind.mp hlt'), if_neg hlt', if_pos (hg.lt_bound hs hn), hg.leaf_eq, hsub]

/-- The slot that `get_nth_meta_blknum` reads for index `n`. It is the intended one up to the
double-indirect root. -/
def metaRead (s n : ℕ) : Slot :=
  let p := 2 ^ (8 + s)
  if n < 12 then direct n
  else if n = 12 then indir
  else if n < 13 + p then ind (n - 13)
  else if n = 13 + p then bindir
  else
    let x := n - 14 - p
    if x = 0 then bi (2 ^ (56 - s) - 1)
    else if x % p = 0 then bi ((x - 1 - x / p) / p)
    else leaf ((x - 1 - x / p) / p) ((x - 1 - x / p) % p)

/-- In the double-indirect range the index is one short: the first one wraps around. -/
theorem Geom.sub_range (hg : Geom M s) {n : UInt64} {x : ℕ} (hn : n.toNat = 11 + 2 ^ (8 + s) + x)
    (hx : 0 < x) : (n - (12 + M.blocksPerIndir)).toNat = x - 1 := by
  have htot : (12 + M.blocksPerIndir).toNat = 12 + 2 ^ (8 + s) := hg.toNat_add (by decide)
  rw [toNat_sub hn htot (by omega)]
  omega

theorem Geom.sub_range_zero (hg : Geom M s) {n : UInt64} (hn : n.toNat = 11 + 2 ^ (8 + s)) :
    (n - (12 + M.blocksPerIndir)).toNat / 2 ^ (8 + s) = 2 ^ (56 - s) - 1 := by
  have htot : (12 + M.blocksPerIndir).toNat = 12 + 2 ^ (8 + s) := hg.toNat_add (by decide)
  have hp := hg.perIndir_lt
  have hpow : 2 ^ 64 = 2 ^ (56 - s) * 2 ^ (8 + s) := by
    rw [← pow_add]
    congr 1
    have := hg.le
    omega
  have hsub : (n - (12 + M.blocksPerIndir)).toNat = 2 ^ 64 - 1 := by
    rw [UInt64.toNat_sub, htot, hn]
    omega
  have hpos := Geom.le_perIndir s
  have hfac : 2 ^ (56 - s) * 2 ^ (8 + s) - 1 =
      (2 ^ (56 - s) - 1) * 2 ^ (8 + s) + (2 ^ (8 + s) - 1) := by
    have hone : 1 ≤ 2 ^ (56 - s) := Nat.one_le_two_pow
    obtain ⟨j, hj⟩ : ∃ j, 2 ^ (56 - s) = j + 1 := ⟨2 ^ (56 - s) - 1, by omega⟩
    rw [hj, Nat.succ_mul, Nat.add_sub_cancel]
    omega
  rw [hsub, hpow, hfac, Nat.mul_comm, Nat.mul_add_div (by omega), Nat.div_eq_of_lt (by omega)]
  rfl

/-- `get_nth_meta_blknum` behind the double-indirect root. -/
theorem Geom.metaRead_range (hg : Geom M s) (hs : s ≤ 20) {n l : UInt64} {x : ℕ} (ino : UInt64)
    (hn : n.toNat = 12 + 2 ^ (8 + s) + x) (hl : l.toNat = x)
    (hx : x < 2 ^ (8 + s) + 2 ^ (8 + s) * 2 ^ (8 + s)) :
    (if l ≥ M.blocksPerIndir + M.blocksPerIndir * M.blocksPerIndir then pure 99999999999999
      else if l % M.blocksPerIndir = 0 then
        indirInBiLookupblk M ino (n - (l / M.blocksPerIndir + 1))
      else getNthBlknum M ino (n - (l / M.blocksPerIndir + 1))) =
      readSlot M ino (if x = 0 then bi (2 ^ (56 - s) - 1)
        else if x % 2 ^ (8 + s) = 0 then bi ((x - 1 - x / 2 ^ (8 + s)) / 2 ^ (8 + s))
        else leaf ((x - 1 - x / 2 ^ (8 + s)) / 2 ^ (8 + s))
          ((x - 1 - x / 2 ^ (8 + s)) % 2 ^ (8 + s))) := by
  have hp := Geom.le_perIndir s
  have hp28 : 2 ^ (8 + s) ≤ 2 ^ 28 := Nat.pow_le_pow_right (by omega) (by omega)
  have hsq : 2 ^ (8 + s) * 2 ^ (8 + s) ≤ 2 ^ 28 * 2 ^ (8 + s) := Nat.mul_le_mul_right _ hp28
  have hpi := hg.perIndir
  have hdiv : x / 2 ^ (8 + s) ≤ x := Nat.div_le_self _ _
  have hle : ¬ l ≥ M.blocksPerIndir + M.blocksPerIndir * M.blocksPerIndir := by
    rw [ge_iff_le, UInt64.le_iff_toNat_le, UInt64.toNat_add, UInt64.toNat_mul, hpi, hl]
    rw [Nat.mod_eq_of_lt (a := 2 ^ (8 + s) * 2 ^ (8 + s)) (by omega), Nat.mod_eq_of_lt (by omega)]
    omega
  have hquot : (l / M.blocksPerIndir + 1).toNat = x / 2 ^ (8 + s) + 1 := by
    rw [UInt64.toNat_add, UInt64.toNat_div, hpi, hl]
    exact Nat.mod_eq_of_lt (by show x / _ + 1 < _; omega)
  have hmod : l % M.blocksPerIndir = 0 ↔ x % 2 ^ (8 + s) = 0 := by
    rw [← UInt64.toNat_inj, UInt64.toNat_mod, hpi, hl]
    rfl
  have hsub : (n - (l / M.blocksPerIndir + 1)).toNat =
      12 + 2 ^ (8 + s) + x - (x / 2 ^ (8 + s) + 1) := toNat_sub hn hquot (by omega)
  rw [if_neg hle]
  by_cases hz : x = 0
  · have hm : x % 2 ^ (8 + s) = 0 := by rw [hz, Nat.zero_mod]
    have h11 : (n - (l / M.blocksPerIndir + 1)).toNat = 11 + 2 ^ (8 + s) := by
      rw [hsub, hz, Nat.zero_div]
      omega
    rw [if_pos (hmod.mpr hm), if_pos hz, hg.indirInBiLookupblk_eq, hg.sub_range_zero h11]
  have hlt : x / 2 ^ (8 + s) < x := Nat.div_lt_self (by omega) (by omega)
  have hback : (n - (l / M.blocksPerIndir + 1)).toNat =
      11 + 2 ^ (8 + s) + (x - x / 2 ^ (8 + s)) := by omega
  have hy : x - x / 2 ^ (8 + s) - 1 = x - 1 - x / 2 ^ (8 + s) := by omega
  rw [if_neg hz]
  by_cases hm : x % 2 ^ (8 + s) = 0
  · rw [if_pos (hmod.mpr hm), if_pos hm, hg.indirInBiLookupblk_eq, hg.sub_range hback (by omega), hy]
  · have hy' : x - 1 - x / 2 ^ (8 + s) < 2 ^ (8 + s) * 2 ^ (8 + s) := by
      by_contra hge
      have hq : 2 ^ (8 + s) ≤ x / 2 ^ (8 + s) := (Nat.le_div_iff_mul_le (by omega)).mpr (by omega)
      omega
    have hn1 : ¬ (n - (l / M.blocksPerIndir + 1)).toNat < 12 := by omega
    have hn2 : ¬ (n - (l / M.blocksPerIndir + 1)).toNat < 12 + 2 ^ (8 + s) := by omega
    have hy2 : (n - (l / M.blocksPerIndir + 1)).toNat - 12 - 2 ^ (8 + s) =
        x - 1 - x / 2 ^ (8 + s) := by omega
    rw [if_neg (mt hmod.mp hm), if_neg hm, hg.getNthBlknum_eq ino (Or.inr ⟨hs, by omega⟩), blkSlot,
      if_neg hn1, if_neg hn2, hy2]

theorem Geom.getNthMetaBlknum_eq (hg : Geom M s) {n : UInt64} (ino : UInt64)
    (hn : n.toNat ≤ 13 + 2 ^ (8 + s) ∨
      s ≤ 20 ∧ n.toNat < 14 + 2 * 2 ^ (8 + s) + 2 ^ (8 + s) * 2 ^ (8 + s)) :
    getNthMetaBlknum M ino n = readSlot M ino (metaRead s n.toNat) := by
  have hp := Geom.le_perIndir s
  have hpi := hg.perIndir
  have h12 : n < 12 ↔ n.toNat < 12 := UInt64.lt_iff_toNat_lt
  have h1 : 12 ≤ n.toNat → (n - 12).toNat = n.toNat - 12 := toNat_sub rfl rfl
  have h2 : 13 ≤ n.toNat → (n - 12 - 1).toNat = n.toNat - 13 := fun h =>
    (toNat_sub (h1 (by omega)) (show (1 : UInt64).toNat = 1 from rfl) (by omega)).trans (by omega)
  have h3 : 1 ≤ n.toNat → (n - 1).toNat = n.toNat - 1 := toNat_sub rfl rfl
  have h4 : 13 + 2 ^ (8 + s) ≤ n.toNat →
      (n - 12 - 1 - M.blocksPerIndir).toNat = n.toNat - 13 - 2 ^ (8 + s) := fun h =>
    toNat_sub (h2 (by omega)) hpi (by omega)
  unfold getNthMetaBlknum metaRead
  dsimp only
  by_cases hlt : n.toNat < 12
  · rw [if_pos (h12.mpr hlt), if_pos hlt, hg.getNthBlknum_eq ino (Or.inl (by omega)), blkSlot,
      if_pos hlt]
  have hz : n - 12 = 0 ↔ n.toNat = 12 := by
    rw [← UInt64.toNat_inj, h1 (by omega)]
    show n.toNat - 12 = 0 ↔ _
    omega
  rw [if_neg (mt h12.mp hlt), if_neg hlt]
  by_cases hz' : n.toNat = 12
  · rw [if_pos (hz.mpr hz'), if_pos hz']
    rfl
  have hind : n - 12 - 1 < M.blocksPerIndir ↔ n.toNat < 13 + 2 ^ (8 + s) := by
    rw [UInt64.lt_iff_toNat_lt, h2 (by omega), hpi]
    omega
  rw [if_neg (mt hz.mp hz'), if_neg hz']
  by_cases hind' : n.toNat < 13 + 2 ^ (8 + s)
  · have hn1 : ¬ n.toNat - 1 < 12 := by omega
    have hn2 : n.toNat - 1 < 12 + 2 ^ (8 + s) := by omega
    rw [if_pos (hind.mpr hind'), if_pos hind', hg.getNthBlknum_eq ino (Or.inl (by rw [h3 (by omega)]; omega)),
      h3 (by omega), blkSlot, if_neg hn1, if_pos hn2, Nat.sub_sub]
  have hb : n - 12 - 1 - M.blocksPerIndir = 0 ↔ n.toNat = 13 + 2 ^ (8 + s) := by
    rw [← UInt64.toNat_inj, h4 (by omega)]
    show _ = 0 ↔ _
    omega
  rw [if_neg (mt hind.mp hind'), if_neg hind']
  by_cases hb' : n.toNat = 13 + 2 ^ (8 + s)
  · rw [if_pos (hb.mpr hb'), if_pos hb']
    rfl
  obtain ⟨hs, hn⟩ := hn.resolve_left (by omega)
  have hl : (n - 12 - 1 - M.blocksPerIndir - 1).toNat = n.toNat - 14 - 2 ^ (8 + s) :=
    (toNat_sub (h4 (by omega)) (show (1 : UInt64).toNat = 1 from rfl) (by omega)).trans (by omega)
  have hn2 : (n - 1 - 1).toNat = 12 + 2 ^ (8 + s) + (n.toNat - 14 - 2 ^ (8 + s)) :=
    (toNat_sub (h3 (by omega)) (show (1 : UInt64).toNat = 1 from rfl) (by omega)).trans (by omega)
  rw [if_neg (mt hb.mp hb'), if_neg hb', hg.metaRead_range hs ino hn2 hl (by omega)]

end Fsl.Ext2
