import Fsl.Fs.Ext2Slots

/-!
# The numbering of the blocks of an ext2 file

For defragmentation the data blocks and the indirect blocks of a file are numbered together, each
indirect block right before the blocks it points to. `get_nth_meta_blknum`, `is_fmeta_meta`,
`size_to_metablocks` and `block_relink_meta` each compute with this numbering. They agree up to the
double-indirect root and not behind it.
-/

namespace Fsl.Ext2

open Pread PtrTree PtrTree.Slot

/-! ## The numbering -/

/-- The slots of a file of `k` blocks, with `p` pointers to a block. -/
def InFile (p k : ℕ) : Slot → Prop
  | direct i => i < 12 ∧ i < k
  | indir => 12 < k
  | bindir => 12 + p < k
  | ind i => i < p ∧ 12 + i < k
  | bi q => q < p ∧ 12 + p + q * p < k
  | leaf q r => q < p ∧ r < p ∧ 12 + p + (q * p + r) < k

/-- The slots of a file as a set. -/
def fileSlots (p k : ℕ) : Set Slot := {t | InFile p k t}

/-- The slot with number `n`. -/
def metaSlot (p n : ℕ) : Slot :=
  if n < 12 then direct n
  else if n = 12 then indir
  else if n < 13 + p then ind (n - 13)
  else if n = 13 + p then bindir
  else if (n - 14 - p) % (p + 1) = 0 then bi ((n - 14 - p) / (p + 1))
  else leaf ((n - 14 - p) / (p + 1)) ((n - 14 - p) % (p + 1) - 1)

/-- The number of blocks of a file of `k` blocks together with its indirect blocks. -/
def metaCount (p k : ℕ) : ℕ :=
  if k ≤ 12 then k
  else if k ≤ 12 + p then k + 1
  else k + 2 + (k - 12 - p + (p - 1)) / p

/-- The number of a slot. -/
def metaIndex (p : ℕ) : Slot → ℕ
  | direct i => i
  | indir => 12
  | ind i => 13 + i
  | bindir => 13 + p
  | bi q => 14 + p + q * (p + 1)
  | leaf q r => 14 + p + (q * (p + 1) + (r + 1))

variable {M : Memo} {s : ℕ} {d : Disk} {ino : UInt64}

theorem metaRead_eq_metaSlot {n : ℕ} (h : n ≤ 13 + 2 ^ (8 + s)) :
    metaRead s n = metaSlot (2 ^ (8 + s)) n := by
  unfold metaRead metaSlot
  dsimp only
  by_cases h1 : n < 12
  · rw [if_pos h1, if_pos h1]
  · by_cases h2 : n = 12
    · rw [if_neg h1, if_neg h1, if_pos h2, if_pos h2]
    · by_cases h3 : n < 13 + 2 ^ (8 + s)
      · rw [if_neg h1, if_neg h1, if_neg h2, if_neg h2, if_pos h3, if_pos h3]
      · have h4 : n = 13 + 2 ^ (8 + s) := by omega
        rw [if_neg h1, if_neg h1, if_neg h2, if_neg h2, if_neg h3, if_neg h3, if_pos h4, if_pos h4]

/-- Up to the single-indirect block the numbering is a bijection onto the slots of the file. -/
theorem metaSlot_bijOn {p k : ℕ} (hk : k ≤ 12 + p) :
    Set.BijOn (metaSlot p) {n | n < metaCount p k} (fileSlots p k) := by
  have hcount : metaCount p k = if k ≤ 12 then k else k + 1 := by
    unfold metaCount
    rw [if_pos hk]
  rw [hcount]
  have hbij := @Set.InvOn.bijOn _ _ {n | n < if k ≤ 12 then k else k + 1} (fileSlots p k)
    (metaSlot p) (metaIndex p)
  refine hbij ⟨?_, ?_⟩ ?_ ?_
  · intro n hn
    simp only [Set.mem_ofPred_eq] at hn
    unfold metaSlot
    split_ifs at hn ⊢ <;> simp only [metaIndex] <;> omega
  · intro t ht
    cases t <;> simp only [fileSlots, Set.mem_ofPred_eq, InFile] at ht
    case direct i => exact if_pos ht.1
    case indir => rfl
    case ind i =>
      show metaSlot p (13 + i) = ind i
      rw [metaSlot, if_neg (by omega), if_neg (by omega), if_pos (by omega),
        Nat.add_sub_cancel_left]
    all_goals omega
  · intro n hn
    simp only [Set.mem_ofPred_eq] at hn
    unfold metaSlot
    split_ifs at hn ⊢ <;> simp only [fileSlots, Set.mem_ofPred_eq, InFile] <;> omega
  · intro t ht
    cases t <;> simp only [fileSlots, Set.mem_ofPred_eq, InFile] at ht <;>
      simp only [metaIndex, Set.mem_ofPred_eq] <;> split_ifs <;> omega

/-! ## Sizes -/

/-- The length of a file is a 32-bit field. -/
theorem Geom.toNat_sizeToBlocks (hg : Geom M s) {iSize : UInt64} (hsz : iSize.toNat < 2 ^ 32) :
    (sizeToBlocks M iSize).toNat = (iSize.toNat + (2 ^ (10 + s) - 1)) / 2 ^ (10 + s) ∧
      (sizeToBlocks M iSize).toNat ≤ 2 ^ 22 := by
  have hle : 2 ^ (10 + s) ≤ 2 ^ 63 := Nat.pow_le_pow_right (by omega) (by have := hg.le; omega)
  have hge : 2 ^ 10 ≤ 2 ^ (10 + s) := Nat.pow_le_pow_right (by omega) (by omega)
  have hone : (M.getBlockSize - 1).toNat = 2 ^ (10 + s) - 1 :=
    toNat_sub hg.blockSize rfl (by show 1 ≤ _; omega)
  have heq : (sizeToBlocks M iSize).toNat =
      (iSize.toNat + (2 ^ (10 + s) - 1)) / 2 ^ (10 + s) := by
    rw [sizeToBlocks, UInt64.toNat_div, UInt64.toNat_add, hone, hg.blockSize,
      Nat.mod_eq_of_lt (by omega)]
  refine ⟨heq, ?_⟩
  rw [heq]
  refine Nat.lt_succ_iff.mp ((Nat.div_lt_iff_lt_mul (by omega)).mpr ?_)
  omega

/-- A file that reaches the double-indirect block has small blocks. -/
theorem Geom.small_of_large (hg : Geom M s) {iSize : UInt64} (hsz : iSize.toNat < 2 ^ 32)
    (hk : 12 + 2 ^ (8 + s) ≤ (sizeToBlocks M iSize).toNat) : s ≤ 13 := by
  by_contra hlt
  have hp : 2 ^ 22 ≤ 2 ^ (8 + s) := Nat.pow_le_pow_right (by omega) (by omega)
  have hle := (hg.toNat_sizeToBlocks hsz).2
  omega

theorem Geom.toNat_sizeToMetablocks (hg : Geom M s) {iSize : UInt64} (hsz : iSize.toNat < 2 ^ 32)
    {k : ℕ} (hk : (sizeToBlocks M iSize).toNat = k) :
    (sizeToMetablocks M iSize).toNat =
      if k ≤ 12 then 0
      else if k < 12 + 2 ^ (8 + s) then 1
      else if k < 12 + 2 ^ (8 + s) + 2 ^ (8 + s) * 2 ^ (8 + s) then
        3 + (k - 12 - 2 ^ (8 + s)) / 2 ^ (8 + s)
      else 99999999999 := by
  have hle := (hg.toNat_sizeToBlocks hsz).2
  have hp := Geom.le_perIndir s
  have hpi := hg.perIndir
  have h12 : sizeToBlocks M iSize ≤ 12 ↔ k ≤ 12 := by
    rw [UInt64.le_iff_toNat_le, hk]
    rfl
  have h1 : 12 ≤ k → (sizeToBlocks M iSize - 12).toNat = k - 12 := toNat_sub hk rfl
  unfold sizeToMetablocks
  dsimp only
  by_cases hk12 : k ≤ 12
  · rw [if_pos (h12.mpr hk12), if_pos hk12]
    rfl
  have hind : sizeToBlocks M iSize - 12 < M.blocksPerIndir ↔ k < 12 + 2 ^ (8 + s) := by
    rw [UInt64.lt_iff_toNat_lt, h1 (by omega), hpi]
    omega
  rw [if_neg (mt h12.mp hk12), if_neg hk12]
  by_cases hki : k < 12 + 2 ^ (8 + s)
  · rw [if_pos (hind.mpr hki), if_pos hki]
    rfl
  have hs : s ≤ 13 := hg.small_of_large hsz (by omega)
  have hp21 : 2 ^ (8 + s) ≤ 2 ^ 21 := Nat.pow_le_pow_right (by omega) (by omega)
  have hsq : 2 ^ (8 + s) * 2 ^ (8 + s) ≤ 2 ^ 21 * 2 ^ (8 + s) := Nat.mul_le_mul_right _ hp21
  have h2 : (sizeToBlocks M iSize - 12 - M.blocksPerIndir).toNat = k - 12 - 2 ^ (8 + s) :=
    toNat_sub (h1 (by omega)) hpi (by omega)
  have hbi : sizeToBlocks M iSize - 12 - M.blocksPerIndir < M.blocksPerIndir * M.blocksPerIndir ↔
      k < 12 + 2 ^ (8 + s) + 2 ^ (8 + s) * 2 ^ (8 + s) := by
    rw [UInt64.lt_iff_toNat_lt, h2, UInt64.toNat_mul, hpi, Nat.mod_eq_of_lt (by omega)]
    omega
  rw [if_neg (mt hind.mp hki), if_neg hki]
  by_cases hkb : k < 12 + 2 ^ (8 + s) + 2 ^ (8 + s) * 2 ^ (8 + s)
  · have hdiv : (k - 12 - 2 ^ (8 + s)) / 2 ^ (8 + s) ≤ k - 12 - 2 ^ (8 + s) := Nat.div_le_self _ _
    rw [if_pos (hbi.mpr hkb), if_pos hkb, UInt64.toNat_add, UInt64.toNat_add, UInt64.toNat_div, h2,
      hpi]
    show (2 + ((k - 12 - 2 ^ (8 + s)) / 2 ^ (8 + s) + 1) % 2 ^ 64) % 2 ^ 64 = _
    generalize (k - 12 - 2 ^ (8 + s)) / 2 ^ (8 + s) = q at *
    omega
  · rw [if_neg (mt hbi.mp hkb), if_neg hkb]
    rfl

/-! ## Files -/

/-- The blocks of a file, from its length. -/
abbrev fileBlks (M : Memo) (iSize : UInt64) : ℕ := (sizeToBlocks M iSize).toNat

/-- A file of an image, in the direct, single-indirect and double-indirect ranges, whose indirect
blocks lie on the disk. The disk is small against the address space: with blocks of 64 KiB it has
up to `2 ^ 51` bytes, and more with smaller ones. -/
structure FileOn (d : Disk) (M : Memo) (s : ℕ) (ino iSize : UInt64) : Prop where
  geom : Geom M s
  readable : Readable d ino
  size_eq : (Prog.field (ino + 32) 32).run .little d = .ok iSize
  range : fileBlks M iSize ≤ 12 + 2 ^ (8 + s) + 2 ^ (8 + s) * 2 ^ (8 + s)
  onDisk : ∀ t ∈ fileSlots (2 ^ (8 + s)) (fileBlks M iSize), t.isMeta = true →
    (slotBlk d s ino t + 1) * 2 ^ (10 + s) ≤ d.size
  small : d.size * 2 ^ (s + 1) ≤ 2 ^ 58

variable {iSize : UInt64}

namespace FileOn

theorem size_lt (h : FileOn d M s ino iSize) : iSize.toNat < 2 ^ 32 := by
  have hsize := d.size_lt
  have hin := h.readable.inside
  have hal := h.readable.aligned
  have haddr : (ino + 32).toNat = 32 * (ino.toNat / 32 + 1) := by
    rw [UInt64.toNat_add]
    show (ino.toNat + 32) % 2 ^ 64 = _
    omega
  have hrun := h.size_eq
  rw [h.readable.run_cell haddr] at hrun
  by_cases hd : OnDisk d (ino.toNat / 32 + 1)
  · rw [if_pos hd] at hrun
    rw [← Except.ok.inj hrun, toNat_ofNat_cell]
    exact d.cell_lt 32 _
  · rw [if_neg hd] at hrun
    cases hrun

/-- The number of a block on the disk, in cells. -/
theorem entry_le {b : ℕ} (hb : (b + 1) * 2 ^ (10 + s) ≤ d.size) (i : ℕ) :
    4 * (entry s b i) + 4 * 2 ^ (8 + s) ≤ d.size + 4 * i := by
  have hpow : 2 ^ (10 + s) = 4 * 2 ^ (8 + s) := by
    rw [show 10 + s = (8 + s) + 2 by omega, pow_add _ _ 2]
    ring
  rw [hpow, Nat.add_mul] at hb
  unfold entry
  have hmul : b * (4 * 2 ^ (8 + s)) = 4 * (b * 2 ^ (8 + s)) := by ring
  omega

theorem small_disk (h : FileOn d M s ino iSize) (hs : s ≤ 20) :
    d.size + 8 ≤ 2 ^ (58 - s) ∧ 2 ^ (56 - s) * 4 = 2 ^ (58 - s) ∧ 2 ^ (56 - s) ≤ 2 ^ 56 := by
  have hpow : 2 ^ 58 = 2 ^ (57 - s) * 2 ^ (s + 1) := by
    rw [← pow_add]
    congr 1
    omega
  have hle : d.size ≤ 2 ^ (57 - s) := by
    have hsmall := h.small
    rw [hpow] at hsmall
    exact Nat.le_of_mul_le_mul_right hsmall (Nat.two_pow_pos _)
  have h8 : 8 ≤ 2 ^ (57 - s) := by
    calc 8 = 2 ^ 3 := rfl
      _ ≤ 2 ^ (57 - s) := Nat.pow_le_pow_right (by omega) (by omega)
  have h58 : 2 ^ (58 - s) = 2 * 2 ^ (57 - s) := by
    rw [show 58 - s = (57 - s) + 1 by omega, pow_succ]
    ring
  have h56 : 2 ^ (57 - s) = 2 * 2 ^ (56 - s) := by
    rw [show 57 - s = (56 - s) + 1 by omega, pow_succ]
    ring
  exact ⟨by omega, by omega, Nat.pow_le_pow_right (by omega) (by omega)⟩

theorem block_cell {b i : ℕ} (hb : (b + 1) * 2 ^ (10 + s) ≤ d.size) (hi : i < 2 ^ (8 + s)) :
    OnDisk d (entry s b i) := by
  have hle := entry_le hb i
  unfold OnDisk
  omega

/-- A slot in a block of the file lies on the disk. -/
theorem slot_onDisk (h : FileOn d M s ino iSize) {t : Slot}
    (ht : t ∈ fileSlots (2 ^ (8 + s)) (fileBlks M iSize)) : OnDisk d (slotCell d s ino t) := by
  have hroot : ∀ c, c < 32 → OnDisk d (ino.toNat / 32 + c) := by
    intro c hc
    have hin := h.readable.inside
    unfold OnDisk
    omega
  cases t with
  | direct i =>
    have hi : 10 + i < 32 := by
      have : i < 12 := ht.1
      omega
    have hd := hroot (10 + i) hi
    rwa [← Nat.add_assoc] at hd
  | indir => exact hroot 22 (by omega)
  | bindir => exact hroot 23 (by omega)
  | ind i =>
    obtain ⟨hi, hk⟩ := ht
    exact block_cell (h.onDisk indir (show 12 < _ by omega) rfl) hi
  | bi q =>
    obtain ⟨hq, hk⟩ := ht
    exact block_cell (h.onDisk bindir (show 12 + _ < _ by omega) rfl) hq
  | leaf q r =>
    obtain ⟨hq, hr, hk⟩ := ht
    exact block_cell (h.onDisk (bi q) ⟨hq, by omega⟩ rfl) hr

end FileOn

theorem OnDisk.lt {c : ℕ} (h : OnDisk d c) : c < 2 ^ 59 := by
  have hsize := d.size_lt
  unfold OnDisk at h
  omega

/-- The slots on the way to a slot of a file belong to the file. -/
theorem path_mem_fileSlots {p k : ℕ} {t t' : Slot} (ht : t ∈ fileSlots p k) (h : t' ∈ t.path) :
    t' ∈ fileSlots p k := by
  cases t <;> simp only [path, List.mem_cons, List.not_mem_nil, or_false] at h
  case direct i =>
    subst h
    exact ht
  case indir =>
    subst h
    exact ht
  case bindir =>
    subst h
    exact ht
  case ind i =>
    obtain ⟨hi, hk⟩ := ht
    rcases h with rfl | rfl
    · exact show 12 < k by omega
    · exact ⟨hi, hk⟩
  case bi q =>
    obtain ⟨hq, hk⟩ := ht
    rcases h with rfl | rfl
    · exact show 12 + p < k by omega
    · exact ⟨hq, hk⟩
  case leaf q r =>
    obtain ⟨hq, hr, hk⟩ := ht
    rcases h with rfl | rfl | rfl
    · exact show 12 + p < k by omega
    · exact ⟨hq, by omega⟩
    · exact ⟨hq, hr, hk⟩

namespace FileOn

theorem reached (h : FileOn d M s ino iSize) {t : Slot}
    (ht : t ∈ fileSlots (2 ^ (8 + s)) (fileBlks M iSize)) : Reached d s ino t :=
  ⟨fun _ ht' _ => h.slot_onDisk (path_mem_fileSlots ht ht'), (h.slot_onDisk ht).lt⟩

/-- A slot of the file reads as its block number. -/
theorem run_readSlot (h : FileOn d M s ino iSize) {t : Slot}
    (ht : t ∈ fileSlots (2 ^ (8 + s)) (fileBlks M iSize)) :
    (readSlot M ino t).run .little d = .ok (UInt64.ofNat (slotBlk d s ino t)) := by
  have hd : ∀ i, t = direct i → i < 12 := by
    rintro i rfl
    exact ht.1
  rw [h.readable.run_readSlot h.geom hd (h.reached ht), if_pos (h.slot_onDisk ht)]

/-- The first index behind the double-indirect root stops the tool: it wraps around and asks for a
pointer far behind the end of the disk. -/
theorem run_stray (h : FileOn d M s ino iSize) (hk : 12 + 2 ^ (8 + s) < fileBlks M iSize)
    {n : UInt64} (hn : n.toNat = 14 + 2 ^ (8 + s)) :
    (getNthMetaBlknum M ino n).run .little d = .error .assertion := by
  have hs : s ≤ 13 := h.geom.small_of_large h.size_lt hk.le
  have hp := Geom.le_perIndir s
  obtain ⟨hsmall, hfour, hpow⟩ := h.small_disk (by omega)
  have hblk := entry_le (h.onDisk bindir hk rfl) (2 ^ (56 - s) - 1)
  have hone : 1 ≤ 2 ^ (56 - s) := Nat.one_le_two_pow
  have hbi : bindir ∈ fileSlots (2 ^ (8 + s)) (fileBlks M iSize) := hk
  have hread : metaRead s n.toNat = bi (2 ^ (56 - s) - 1) := by
    unfold metaRead
    dsimp only
    rw [hn, if_neg (by omega), if_neg (by omega), if_neg (by omega), if_neg (by omega),
      if_pos (by omega)]
  have hcell : slotCell d s ino (bi (2 ^ (56 - s) - 1)) =
      entry s (slotBlk d s ino bindir) (2 ^ (56 - s) - 1) := rfl
  have hge : 2 ^ (56 - s) - 1 ≤ slotCell d s ino (bi (2 ^ (56 - s) - 1)) := Nat.le_add_left _ _
  have hout : ¬ OnDisk d (slotCell d s ino (bi (2 ^ (56 - s) - 1))) := by
    unfold OnDisk
    omega
  rw [h.geom.getNthMetaBlknum_eq ino (Or.inr ⟨by omega, by omega⟩), hread,
    h.readable.run_readSlot h.geom (by simp) ⟨?_, by omega⟩, if_neg hout]
  intro t' ht' hne
  simp only [path, List.mem_cons, List.not_mem_nil, or_false] at ht'
  rcases ht' with rfl | rfl
  · exact h.slot_onDisk hbi
  · exact absurd rfl hne

end FileOn

/-! ## `is_fmeta_meta` -/

theorem Geom.isFmetaMeta_eq (hg : Geom M s) {n : UInt64} (hn : n.toNat ≤ 13 + 2 ^ (8 + s)) :
    isFmetaMeta M n = (metaSlot (2 ^ (8 + s)) n.toNat).isMeta := by
  have hpi := hg.perIndir
  have h12 : n < 12 ↔ n.toNat < 12 := UInt64.lt_iff_toNat_lt
  have hz : n = 12 ↔ n.toNat = 12 := UInt64.toNat_inj.symm
  have h1 : 13 ≤ n.toNat → (n - 13).toNat = n.toNat - 13 := toNat_sub rfl rfl
  unfold isFmetaMeta metaSlot
  dsimp only
  by_cases hlt : n.toNat < 12
  · rw [if_pos (h12.mpr hlt), if_pos hlt]
    rfl
  by_cases heq : n.toNat = 12
  · rw [if_neg (mt h12.mp hlt), if_neg hlt, if_pos (hz.mpr heq), if_pos heq]
    rfl
  have hind : n - 13 < M.blocksPerIndir ↔ n.toNat < 13 + 2 ^ (8 + s) := by
    rw [UInt64.lt_iff_toNat_lt, h1 (by omega), hpi]
    omega
  rw [if_neg (mt h12.mp hlt), if_neg hlt, if_neg (mt hz.mp heq), if_neg heq]
  by_cases hlt' : n.toNat < 13 + 2 ^ (8 + s)
  · rw [if_pos (hind.mpr hlt'), if_pos hlt']
    rfl
  · have hbi : n - 13 = M.blocksPerIndir := by
      rw [← UInt64.toNat_inj, h1 (by omega), hpi]
      omega
    rw [if_neg (mt hind.mp hlt'), if_neg hlt', if_pos hbi, if_pos (by omega)]
    rfl

/-! ## The numbering as the code computes it -/

/-- The numbering enumerates the blocks of the file: each index below the computed count reads its
own pointer of the file, each pointer is read by some index, and `is_fmeta_meta` tells the indirect
blocks from the data blocks. -/
def Enumerates (d : Disk) (M : Memo) (s : ℕ) (ino iSize : UInt64) : Prop :=
  ∃ σ : ℕ → Slot,
    Set.BijOn σ {n | n < (sizeToBlocks M iSize + sizeToMetablocks M iSize).toNat}
      (fileSlots (2 ^ (8 + s)) (fileBlks M iSize)) ∧
    ∀ n : UInt64, n < sizeToBlocks M iSize + sizeToMetablocks M iSize →
      (getNthMetaBlknum M ino n).run .little d = .ok (UInt64.ofNat (slotBlk d s ino (σ n.toNat))) ∧
        isFmetaMeta M n = (σ n.toNat).isMeta

theorem FileOn.toNat_sizeToMetablocks (h : FileOn d M s ino iSize) :
    (sizeToMetablocks M iSize).toNat =
      if fileBlks M iSize ≤ 12 then 0
      else if fileBlks M iSize < 12 + 2 ^ (8 + s) then 1
      else if fileBlks M iSize < 12 + 2 ^ (8 + s) + 2 ^ (8 + s) * 2 ^ (8 + s) then
        3 + (fileBlks M iSize - 12 - 2 ^ (8 + s)) / 2 ^ (8 + s)
      else 99999999999 :=
  h.geom.toNat_sizeToMetablocks h.size_lt rfl

theorem FileOn.toNat_count (h : FileOn d M s ino iSize) :
    (sizeToBlocks M iSize + sizeToMetablocks M iSize).toNat =
      fileBlks M iSize + (sizeToMetablocks M iSize).toNat := by
  have hle : fileBlks M iSize ≤ 2 ^ 22 := (h.geom.toNat_sizeToBlocks h.size_lt).2
  have hdiv : (fileBlks M iSize - 12 - 2 ^ (8 + s)) / 2 ^ (8 + s) ≤ fileBlks M iSize :=
    (Nat.div_le_self _ _).trans ((Nat.sub_le _ _).trans (Nat.sub_le _ _))
  have hmeta := h.toNat_sizeToMetablocks
  rw [UInt64.toNat_add]
  change (fileBlks M iSize + (sizeToMetablocks M iSize).toNat) % 2 ^ 64 = _
  generalize fileBlks M iSize = k at *
  generalize (k - 12 - 2 ^ (8 + s)) / 2 ^ (8 + s) = q at *
  refine Nat.mod_eq_of_lt ?_
  split_ifs at hmeta <;> omega

/-- A file with exactly one indirect block has one slot of that kind. -/
theorem eq_indir_of_isMeta {p k : ℕ} (hk : k ≤ 12 + p) {t : Slot} (ht : t ∈ fileSlots p k)
    (hm : t.isMeta = true) : t = indir := by
  cases t with
  | indir => rfl
  | bindir =>
    have : 12 + p < k := ht
    omega
  | bi q =>
    have : 12 + p + q * p < k := ht.2
    omega
  | direct i => cases hm
  | ind i => cases hm
  | leaf q r => cases hm

/-- A file that fills its single-indirect block is not enumerated. If it fills it exactly, two
blocks too many are counted; in a larger one the first index behind the double-indirect root is not
an index of its block. -/
theorem FileOn.not_enumerates (h : FileOn d M s ino iSize)
    (hge : 12 + 2 ^ (8 + s) ≤ fileBlks M iSize) : ¬ Enumerates d M s ino iSize := by
  rintro ⟨σ, hσ, hread⟩
  have hcount := h.toNat_count
  have hp61 := h.geom.perIndir_lt
  have hp := Geom.le_perIndir s
  have hlarge : 14 + 2 ^ (8 + s) < fileBlks M iSize + (sizeToMetablocks M iSize).toNat := by
    rw [h.toNat_sizeToMetablocks]
    generalize (fileBlks M iSize - 12 - 2 ^ (8 + s)) / 2 ^ (8 + s) = q
    split_ifs <;> omega
  have hlt : ∀ n : ℕ, n ≤ 14 + 2 ^ (8 + s) →
      (UInt64.ofNat n).toNat = n ∧
        UInt64.ofNat n < sizeToBlocks M iSize + sizeToMetablocks M iSize := by
    intro n hn
    have hnat : (UInt64.ofNat n).toNat = n :=
      UInt64.toNat_ofNat_of_lt' (by norm_num [UInt64.size]; omega)
    refine ⟨hnat, UInt64.lt_iff_toNat_lt.mpr ?_⟩
    rw [hnat, hcount]
    omega
  by_cases hk : fileBlks M iSize = 12 + 2 ^ (8 + s)
  · -- both roots are numbered as indirect blocks, and only the first is in the file
    have hroot : ∀ n, n = 12 ∨ n = 13 + 2 ^ (8 + s) → σ n = indir := by
      intro n hn
      obtain ⟨hnat, hn'⟩ := hlt n (by omega)
      obtain ⟨-, hm⟩ := hread _ hn'
      have hfile := hσ.mapsTo (show n < _ by rw [← hnat]; exact UInt64.lt_iff_toNat_lt.mp hn')
      rw [h.geom.isFmetaMeta_eq (by omega), hnat] at hm
      refine eq_indir_of_isMeta (by omega) hfile (hm.symm.trans ?_)
      rcases hn with rfl | rfl
      · rfl
      · rw [metaSlot, if_neg (by omega), if_neg (by omega), if_neg (by omega), if_pos rfl]
        rfl
    have heq := hσ.injOn (show 12 < _ by rw [hcount]; omega)
      (show 13 + 2 ^ (8 + s) < _ by rw [hcount]; omega)
      ((hroot 12 (Or.inl rfl)).trans (hroot _ (Or.inr rfl)).symm)
    omega
  · obtain ⟨hnat, hn⟩ := hlt (14 + 2 ^ (8 + s)) le_rfl
    have hstop := (hread _ hn).1
    rw [h.run_stray (by omega) hnat] at hstop
    cases hstop

/-- A file that does not fill its single-indirect block is enumerated. -/
theorem FileOn.enumerates (h : FileOn d M s ino iSize)
    (hk : fileBlks M iSize < 12 + 2 ^ (8 + s)) : Enumerates d M s ino iSize := by
  have hN : (sizeToBlocks M iSize + sizeToMetablocks M iSize).toNat =
      metaCount (2 ^ (8 + s)) (fileBlks M iSize) := by
    rw [h.toNat_count, h.toNat_sizeToMetablocks, metaCount]
    split_ifs <;> omega
  have hbij := metaSlot_bijOn hk.le
  refine ⟨metaSlot (2 ^ (8 + s)), by rw [hN]; exact hbij, fun n hn => ?_⟩
  have hlt : n.toNat < metaCount (2 ^ (8 + s)) (fileBlks M iSize) := by
    rw [← hN]
    exact UInt64.lt_iff_toNat_lt.mp hn
  have hle : n.toNat ≤ 13 + 2 ^ (8 + s) := by
    unfold metaCount at hlt
    split_ifs at hlt <;> omega
  refine ⟨?_, h.geom.isFmetaMeta_eq hle⟩
  rw [h.geom.getNthMetaBlknum_eq ino (Or.inl hle), metaRead_eq_metaSlot hle]
  exact h.run_readSlot (hbij.mapsTo hlt)

/-- The numbering enumerates the blocks of a file exactly when the file does not fill its
single-indirect block. -/
theorem enumerates_iff (h : FileOn d M s ino iSize) :
    Enumerates d M s ino iSize ↔ fileBlks M iSize < 12 + 2 ^ (8 + s) := by
  constructor
  · intro hen
    by_contra hge
    exact h.not_enumerates (not_lt.mp hge) hen
  · exact h.enumerates

/-! ## An image -/

/-- The superblock of an image of 512 blocks of 1 KiB. -/
def sampleSb : ℕ → ℕ
  | 1 => 512
  | 5 => 1
  | 8 => 8192
  | 10 => 128
  | 22 => 128
  | _ => 0

/-- An inode with 12 direct blocks and the indirect blocks 6 and 7. -/
def sampleInode (iSize : ℕ) : ℕ → ℕ
  | 0 => 33188
  | 1 => iSize
  | 22 => 6
  | 23 => 7
  | c => if 10 ≤ c ∧ c < 22 then c + 10 else 0

/-- The cells of block `b`. Block 9 is a copy of the second-level block 8. -/
def sampleBlk (iSize b c : ℕ) : ℕ :=
  match b with
  | 1 => sampleSb c
  | 5 => sampleInode iSize c
  | 6 => 40 + c
  | 7 => if c = 0 then 8 else 0
  | 8 => if c = 0 then 300 else 0
  | 9 => if c = 0 then 300 else 0
  | _ => 0

def sample (iSize : ℕ) : Disk :=
  Disk.ofCells 524288 32 (fun c => sampleBlk iSize (c / 256) (c % 256)) (by norm_num)

def sampleMemo : Memo where
  blksPerGrp := 8192
  getInoSz := 128
  getTotalBlks := 512
  getBlockSize := 1024
  inosPerGrp := 128
  getGroupCount := 1
  blocksPerIndir := 256
  bitAddOffset := 0

theorem sampleBlk_lt {iSize b c : ℕ} (h : iSize < 2 ^ 32) (hc : c < 256) :
    sampleBlk iSize b c < 2 ^ 32 := by
  unfold sampleBlk
  split
  · unfold sampleSb
    split <;> decide
  · unfold sampleInode
    split
    · decide
    · exact h
    · decide
    · decide
    · split <;> omega
  · omega
  all_goals first | decide | (split <;> decide)

theorem cell_sample {iSize b c : ℕ} (h : iSize < 2 ^ 32) (hb : b < 512) (hc : c < 256) :
    (sample iSize).cell 32 (b * 256 + c) = sampleBlk iSize b c := by
  have hdiv : (b * 256 + c) / 256 = b := by omega
  have hmod : (b * 256 + c) % 256 = c := by omega
  rw [Disk.cell, sample, Disk.num_ofCells _ le_rfl (by omega), hdiv, hmod,
    Nat.mod_eq_of_lt (sampleBlk_lt h hc)]

theorem run_sample {iSize b c : ℕ} (h : iSize < 2 ^ 32) (hb : b < 512) (hc : c < 256) {a : UInt64}
    (ha : a.toNat = 32 * (b * 256 + c)) :
    (Prog.field a 32).run .little (sample iSize) = .ok (UInt64.ofNat (sampleBlk iSize b c)) := by
  have h32 : 32 ∣ (sample iSize).size := show 32 ∣ 524288 by decide
  have hin : 32 * (b * 256 + c) + 32 ≤ 8 * (sample iSize).size :=
    show 32 * (b * 256 + c) + 32 ≤ 8 * 524288 by omega
  rw [Prog.run_field_cell h32 _ (by decide) ha, if_pos hin, cell_sample h hb hc]

/-- The 16-bit fields of the image. -/
theorem run_sample_half {iSize b c : ℕ} (hb : b < 512) (hc : c < 256) {a : UInt64}
    (ha : a.toNat = 32 * (b * 256 + c)) :
    (Prog.field a 16).run .little (sample iSize) =
      .ok (UInt64.ofNat (sampleBlk iSize b c % 2 ^ 16)) := by
  have h32 : 32 ∣ (sample iSize).size := show 32 ∣ 524288 by decide
  have hdiv : (b * 256 + c) / 256 = b := by omega
  have hmod : (b * 256 + c) % 256 = c := by omega
  have hin : 32 * (b * 256 + c) + 16 ≤ 8 * (sample iSize).size :=
    show 32 * (b * 256 + c) + 16 ≤ 8 * 524288 by omega
  have hw : WriteWidth a.toNat 16 := by
    rw [ha]
    exact Or.inr (by omega)
  rw [Prog.run_field_num h32 _ hw, ha, if_pos hin, sample,
    Disk.num_ofCells _ (by omega) (by omega), hdiv, hmod]

theorem sample_loaded {iSize : ℕ} (h : iSize < 2 ^ 32) :
    loadMemo.run .little (sample iSize) = .ok sampleMemo := by
  have h1 : ∀ c < 256, (Prog.field (UInt64.ofNat (8 * (1024 + 4 * c))) 32).run .little
      (sample iSize) = .ok (UInt64.ofNat (sampleSb c)) := by
    intro c hc
    refine run_sample (b := 1) h (by omega) hc ?_
    rw [UInt64.toNat_ofNat_of_lt' (by norm_num [UInt64.size]; omega)]
    omega
  have h2 : (sbField 88 16).run .little (sample iSize) = .ok 128 :=
    run_sample_half (b := 1) (c := 22) (by omega) (by omega) rfl
  have f1 : (sbField 4 32).run .little (sample iSize) = .ok 512 := h1 1 (by omega)
  have f5 : (sbField 20 32).run .little (sample iSize) = .ok 1 := h1 5 (by omega)
  have f6 : (sbField 24 32).run .little (sample iSize) = .ok 0 := h1 6 (by omega)
  have f8 : (sbField 32 32).run .little (sample iSize) = .ok 8192 := h1 8 (by omega)
  have f10 : (sbField 40 32).run .little (sample iSize) = .ok 128 := h1 10 (by omega)
  have hnz : ∀ {x : UInt64}, x ≠ 0 → (assertNonzero x).run .little (sample iSize) = .ok x := by
    intro x hx
    rw [assertNonzero, if_neg hx]
    rfl
  rw [loadMemo, Prog.run_bind, Prog.run_bind, f8, ok_bind, hnz (by decide), ok_bind,
    Prog.run_bind, h2, ok_bind, Prog.run_bind, f1, ok_bind, Prog.run_bind, hnz (by decide), ok_bind,
    Prog.run_bind, f6, ok_bind, Prog.run_bind, hnz (by decide), ok_bind, Prog.run_bind, f10, ok_bind,
    Prog.run_bind, f5, ok_bind, Prog.run_bind, hnz (by decide), ok_bind, Prog.run_bind,
    hnz (by decide), ok_bind]
  rfl

theorem sample_slotBlk {iSize : ℕ} (h : iSize < 2 ^ 32) :
    slotBlk (sample iSize) 0 40960 indir = 6 ∧ slotBlk (sample iSize) 0 40960 bindir = 7 ∧
      slotBlk (sample iSize) 0 40960 (bi 0) = 8 := by
  have h6 : slotBlk (sample iSize) 0 40960 indir = 6 :=
    cell_sample (b := 5) (c := 22) h (by omega) (by omega)
  have h7 : slotBlk (sample iSize) 0 40960 bindir = 7 :=
    cell_sample (b := 5) (c := 23) h (by omega) (by omega)
  have h8 : slotBlk (sample iSize) 0 40960 (bi 0) = 8 := by
    show (sample iSize).cell 32 (entry 0 (slotBlk (sample iSize) 0 40960 bindir) 0) = 8
    rw [h7]
    exact cell_sample (b := 7) (c := 0) h (by omega) (by omega)
  exact ⟨h6, h7, h8⟩

theorem sample_geom : Geom sampleMemo 0 := ⟨by omega, rfl, rfl⟩

theorem sample_fileBlks {iSize : ℕ} (h : iSize < 2 ^ 32) :
    fileBlks sampleMemo (UInt64.ofNat iSize) = (iSize + 1023) / 1024 := by
  have hnat : (UInt64.ofNat iSize).toNat = iSize :=
    UInt64.toNat_ofNat_of_lt' (by norm_num [UInt64.size]; omega)
  rw [fileBlks, (sample_geom.toNat_sizeToBlocks (by rw [hnat]; exact h)).1, hnat]
  rfl

/-- The indirect blocks of the sample file. -/
theorem sample_meta {k : ℕ} (hk : k ≤ 269) {t : Slot} (ht : t ∈ fileSlots (2 ^ (8 + 0)) k)
    (hm : t.isMeta = true) : t = indir ∨ t = bindir ∨ t = bi 0 := by
  cases t with
  | indir => exact Or.inl rfl
  | bindir => exact Or.inr (Or.inl rfl)
  | bi q =>
    have hq : 12 + 2 ^ (8 + 0) + q * 2 ^ (8 + 0) < k := ht.2
    have hz : q = 0 := by omega
    exact Or.inr (Or.inr (by rw [hz]))
  | direct i => cases hm
  | ind i => cases hm
  | leaf q r => cases hm

theorem sample_fileOn {iSize : ℕ} (h : iSize ≤ 275456) :
    FileOn (sample iSize) sampleMemo 0 40960 (UInt64.ofNat iSize) := by
  have hlt : iSize < 2 ^ 32 := by omega
  have hblks := sample_fileBlks hlt
  obtain ⟨h6, h7, h8⟩ := sample_slotBlk hlt
  have hsize : (sample iSize).size = 524288 := rfl
  have hmode : (Prog.field 40960 16).run .little (sample iSize) = .ok 33188 :=
    run_sample_half (b := 5) (c := 0) (by omega) (by omega) rfl
  refine ⟨sample_geom, ⟨?_, ?_, ?_, ?_⟩, ?_, ?_, ?_, ?_⟩
  · rw [hsize]
    decide
  · decide
  · rw [hsize]
    decide
  · rw [isFastSymlink, Prog.run_bind, hmode]
    rfl
  · exact run_sample (b := 5) (c := 1) hlt (by omega) (by omega) rfl
  · rw [hblks]
    omega
  · intro t ht hm
    rw [hsize]
    rcases sample_meta (by rw [hblks]; omega) ht hm with rfl | rfl | rfl
    · rw [h6]
      omega
    · rw [h7]
      omega
    · rw [h8]
      omega
  · rw [hsize]
    omega

/-- A file of 20 blocks, eight of them behind its indirect block, is enumerated. -/
theorem enumerates_iff_indirect :
    FileOn (sample 20480) sampleMemo 0 40960 20480 ∧
      Enumerates (sample 20480) sampleMemo 0 40960 20480 := by
  have hfile : FileOn (sample 20480) sampleMemo 0 40960 20480 := sample_fileOn (by omega)
  have hblks : fileBlks sampleMemo 20480 = 20 :=
    sample_fileBlks (show (20480 : ℕ) < 2 ^ 32 by omega)
  refine ⟨hfile, (enumerates_iff hfile).mpr ?_⟩
  rw [hblks]
  omega

/-- A file of 269 blocks, with one data block behind its double-indirect block, is not. -/
theorem not_enumerates_double_indirect :
    loadMemo.run .little (sample 275456) = .ok sampleMemo ∧
      FileOn (sample 275456) sampleMemo 0 40960 275456 ∧
      ¬ Enumerates (sample 275456) sampleMemo 0 40960 275456 := by
  have hfile : FileOn (sample 275456) sampleMemo 0 40960 275456 := sample_fileOn le_rfl
  have hblks : fileBlks sampleMemo 275456 = 269 :=
    sample_fileBlks (show (275456 : ℕ) < 2 ^ 32 by omega)
  refine ⟨sample_loaded (by omega), hfile, hfile.not_enumerates ?_⟩
  rw [hblks]
  omega

end Fsl.Ext2
