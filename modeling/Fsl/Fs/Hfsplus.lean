import Mathlib

/-!
# HFS+ extents

`fs/hfsplus_funcs.fsl`: the blocks of a file are found through a record of eight extents. Scalars are
64-bit words, and an index is not checked against the length of its array.
-/

namespace Fsl.Hfsplus

/-- `hfsplus_extent` -/
structure Extent where
  startBlock : UInt32
  blockCount : UInt32
  deriving DecidableEq, Repr

/-- `er.exts` of an `hfsplus_extent_rec`: the eight extents, and what lies behind them. -/
abbrev Exts := ℕ → Extent

/-- `extrec_blks` -/
def extrecBlks (exts : Exts) : UInt64 :=
  (List.range 8).foldl (fun blkC i => blkC + (exts i).blockCount.toUInt64) 0

/-- The loop of `extrec_idx2blk`, with the number of turns that are left. -/
def idx2blkLoop (exts : Exts) (i : ℕ) (n : UInt64) : ℕ → Option UInt64
  | 0 => none
  | turns + 1 =>
    if n > (exts i).blockCount.toUInt64 then
      idx2blkLoop exts (i + 1) (n - (exts i).blockCount.toUInt64) turns
    else some ((exts i).startBlock.toUInt64 + n)

/-- `extrec_idx2blk`: the index in `disk.blocks`, where the condition of the loop is looked at `turns`
times at most. -/
def extrecIdx2blk (exts : Exts) (n : UInt64) (turns : ℕ) : Option UInt64 := idx2blkLoop exts 0 n turns

/-- The blocks of the extents before extent `i`. -/
def before (exts : Exts) (i : ℕ) : ℕ := ∑ k ∈ Finset.range i, (exts k).blockCount.toNat

/-- Index `n` is found in the extent that it lies in, by looking at the eight extents only. -/
def MapsAt (exts : Exts) (n : UInt64) : Prop :=
  ∃ i, i < 8 ∧ before exts i ≤ n.toNat ∧ n.toNat < before exts (i + 1) ∧
    ∃ turns, turns ≤ 8 ∧ extrecIdx2blk exts n turns =
      some ((exts i).startBlock.toUInt64 + UInt64.ofNat (n.toNat - before exts i))

/-- Where `n` is the first block of extent `i`, this follows the block at the end of extent `j`, the
first one behind which there are `n` blocks. -/
def Adjoins (exts : Exts) (n : UInt64) : Prop :=
  ∀ i j, j < i → i < 8 → before exts i = n.toNat → n.toNat < before exts (i + 1) →
    before exts (j + 1) = n.toNat → (∀ k, k < j → before exts (k + 1) < n.toNat) →
    (exts j).startBlock.toNat + (exts j).blockCount.toNat = (exts i).startBlock.toNat

variable {exts : Exts}

theorem before_succ (exts : Exts) (i : ℕ) :
    before exts (i + 1) = before exts i + (exts i).blockCount.toNat := Finset.sum_range_succ _ _

theorem before_mono (exts : Exts) : Monotone (before exts) :=
  monotone_nat_of_le_succ fun i => by rw [before_succ]; exact Nat.le_add_right _ _

theorem before_le (exts : Exts) (i : ℕ) : before exts i ≤ i * 2 ^ 32 := by
  induction i with
  | zero => exact Nat.zero_le _
  | succ i ih =>
    have hlt := (exts i).blockCount.toNat_lt
    rw [before_succ, Nat.succ_mul]
    omega

/-- `extrec_blks` is the number of blocks of the eight extents. -/
theorem toNat_extrecBlks (exts : Exts) : (extrecBlks exts).toNat = before exts 8 := by
  have hloop : ∀ m, m ≤ 8 →
      ((List.range m).foldl (fun blkC i => blkC + (exts i).blockCount.toUInt64) 0).toNat =
        before exts m := by
    intro m hm
    induction m with
    | zero => rfl
    | succ m ih =>
      have hle := before_le exts (m + 1)
      have hcount : (exts m).blockCount.toUInt64.toNat = (exts m).blockCount.toNat := rfl
      rw [List.range_succ, List.foldl_append, List.foldl_cons, List.foldl_nil, UInt64.toNat_add,
        ih (by omega), hcount, ← before_succ]
      exact Nat.mod_eq_of_lt (by omega)
  exact hloop 8 le_rfl

/-- The loop stops at the first extent behind which there are `n` blocks or more. -/
theorem idx2blkLoop_eq {i j n turns : ℕ} (hij : i ≤ j) (hn : before exts i ≤ n) (hlt : n < 2 ^ 64)
    (hskip : ∀ k, i ≤ k → k < j → before exts (k + 1) < n) (hstop : n ≤ before exts (j + 1))
    (hturns : j < i + turns) :
    idx2blkLoop exts i (UInt64.ofNat (n - before exts i)) turns =
      some ((exts j).startBlock.toUInt64 + UInt64.ofNat (n - before exts j)) := by
  induction turns generalizing i with
  | zero => omega
  | succ turns ih =>
    have hrest : (UInt64.ofNat (n - before exts i)).toNat = n - before exts i :=
      UInt64.toNat_ofNat_of_lt' (by norm_num [UInt64.size]; omega)
    have hcount : (exts i).blockCount.toUInt64.toNat = (exts i).blockCount.toNat := rfl
    have hsucc := before_succ exts i
    rw [idx2blkLoop]
    by_cases hj : i = j
    · subst hj
      rw [if_neg]
      rw [gt_iff_lt, UInt64.lt_iff_toNat_lt, hrest, hcount]
      omega
    · have hnext := hskip i le_rfl (by omega)
      have hsub : UInt64.ofNat (n - before exts i) - (exts i).blockCount.toUInt64 =
          UInt64.ofNat (n - before exts (i + 1)) := by
        refine UInt64.toNat_inj.mp ?_
        rw [UInt64.toNat_sub_of_le _ _ (by rw [UInt64.le_iff_toNat_le, hrest, hcount]; omega), hrest,
          hcount, UInt64.toNat_ofNat_of_lt' (by norm_num [UInt64.size]; omega)]
        omega
      rw [if_pos (by rw [gt_iff_lt, UInt64.lt_iff_toNat_lt, hrest, hcount]; omega), hsub]
      exact ih (by omega) hnext.le (fun k hk => hskip k (by omega)) (by omega)

/-- The extent at which the loop stops, and the one in which `n` lies. -/
theorem exists_extent {n : ℕ} (hn : n < before exts 8) :
    (∃ i, i < 8 ∧ before exts i ≤ n ∧ n < before exts (i + 1)) ∧
      ∃ j, j < 8 ∧ n ≤ before exts (j + 1) ∧ ∀ k, k < j → before exts (k + 1) < n := by
  have hex : ∃ m, n < before exts (m + 1) := ⟨7, hn⟩
  have hex' : ∃ m, n ≤ before exts (m + 1) := ⟨7, hn.le⟩
  constructor
  · refine ⟨Nat.find hex, Nat.lt_succ_of_le (Nat.find_min' hex hn), ?_, Nat.find_spec hex⟩
    cases hi : Nat.find hex with
    | zero => exact Nat.zero_le n
    | succ i => exact not_lt.mp (Nat.find_min hex (by omega))
  · exact ⟨Nat.find hex', Nat.lt_succ_of_le (Nat.find_min' hex' hn.le), Nat.find_spec hex',
      fun k hk => not_le.mp (Nat.find_min hex' hk)⟩

/-- The extent of an index is unique. -/
theorem extent_unique {n i i' : ℕ} (hi : before exts i ≤ n) (hi1 : n < before exts (i + 1))
    (hi' : before exts i' ≤ n) (hi1' : n < before exts (i' + 1)) : i = i' := by
  by_contra hne
  rcases Nat.lt_or_gt_of_ne hne with hlt | hlt
  · have hmono := before_mono exts (show i + 1 ≤ i' from hlt)
    omega
  · have hmono := before_mono exts (show i' + 1 ≤ i from hlt)
    omega

theorem add_ofNat_inj {a b : UInt32} {x y : ℕ} (hx : x < 2 ^ 33) (hy : y < 2 ^ 33) :
    a.toUInt64 + UInt64.ofNat x = b.toUInt64 + UInt64.ofNat y ↔ a.toNat + x = b.toNat + y := by
  have hnat : ∀ (c : UInt32) (z : ℕ), z < 2 ^ 33 →
      (c.toUInt64 + UInt64.ofNat z).toNat = c.toNat + z := by
    intro c z hz
    have hclt := c.toNat_lt
    have hc : c.toUInt64.toNat = c.toNat := rfl
    rw [UInt64.toNat_add, hc, UInt64.toNat_ofNat_of_lt' (by norm_num [UInt64.size]; omega)]
    exact Nat.mod_eq_of_lt (by omega)
  rw [← UInt64.toNat_inj, hnat a x hx, hnat b y hy]

/-- The result does not depend on the number of turns, once there are enough. -/
theorem idx2blkLoop_unique {i turns turns' : ℕ} {n b b' : UInt64}
    (h : idx2blkLoop exts i n turns = some b) (h' : idx2blkLoop exts i n turns' = some b') : b = b' := by
  induction turns generalizing i n turns' with
  | zero => cases h
  | succ turns ih =>
    cases turns' with
    | zero => cases h'
    | succ turns' =>
      rw [idx2blkLoop] at h h'
      by_cases hgt : n > (exts i).blockCount.toUInt64
      · rw [if_pos hgt] at h h'
        exact ih h h'
      · rw [if_neg hgt] at h h'
        exact Option.some.inj (h.symm.trans h')

/-- `extrec_idx2blk` finds an index in its extent exactly if it is not the first block of a later extent,
or this extent begins where the one that the loop stops at ends. -/
theorem mapsAt_iff (exts : Exts) (n : UInt64) (hn : n < extrecBlks exts) :
    MapsAt exts n ↔ Adjoins exts n := by
  have hlt : n.toNat < before exts 8 := by
    rw [← toNat_extrecBlks]
    exact UInt64.lt_iff_toNat_lt.mp hn
  obtain ⟨⟨i, hi8, hi, hi1⟩, j, hj8, hj, hskip⟩ := exists_extent hlt
  have hn64 := n.toNat_lt
  have hrun : idx2blkLoop exts 0 (UInt64.ofNat n.toNat) 8 =
      some ((exts j).startBlock.toUInt64 + UInt64.ofNat (n.toNat - before exts j)) :=
    idx2blkLoop_eq (i := 0) (Nat.zero_le j) (Nat.zero_le n.toNat) hn64 (fun k _ => hskip k) hj
      (by omega)
  rw [UInt64.ofNat_toNat] at hrun
  have hji : j ≤ i := by
    by_contra hgt
    exact absurd (hskip i (by omega)) (by omega)
  have hbj : before exts j ≤ n.toNat := (before_mono exts hji).trans hi
  have hsucci := before_succ exts i
  have hsuccj := before_succ exts j
  have hci := (exts i).blockCount.toNat_lt
  have hcj := (exts j).blockCount.toNat_lt
  constructor
  · rintro ⟨i', -, hi', hi1', turns, -, hres⟩ i'' j'' hji'' - hi'' hi1'' hj'' hskip''
    obtain rfl := extent_unique hi hi1 hi' hi1'
    obtain rfl := extent_unique hi hi1 hi''.le hi1''
    -- both `j` and `j''` are where the loop stops
    have hjj : j'' = j := by
      by_contra hne
      rcases Nat.lt_or_gt_of_ne hne with h | h
      · exact absurd (hskip j'' h) (by omega)
      · exact absurd (hskip'' j h) (by omega)
    subst hjj
    have heq := (add_ofNat_inj (by omega) (by omega)).mp (idx2blkLoop_unique hrun hres)
    omega
  · intro hadj
    refine ⟨i, hi8, hi, hi1, 8, le_rfl, hrun.trans (congrArg some ?_)⟩
    rcases Nat.lt_or_eq_of_le hji with hlt | rfl
    · have hmono := before_mono exts (show j + 1 ≤ i from hlt)
      have hbound := hadj i j hlt hi8 (by omega) hi1 (by omega) hskip
      rw [add_ofNat_inj (by omega) (by omega)]
      omega
    · rfl

/-- Two extents of 4 blocks that do not adjoin. -/
def sampleExts : Exts
  | 0 => ⟨100, 4⟩
  | 1 => ⟨200, 4⟩
  | _ => ⟨0, 0⟩

/-- Block 5 of this file is block 201 of the disk. -/
theorem mapsAt_iff_inside : extrecIdx2blk sampleExts 5 8 = some 201 ∧ MapsAt sampleExts 5 := by
  refine ⟨by decide, (mapsAt_iff sampleExts 5 (by decide)).mpr ?_⟩
  have hne : ∀ i, i < 8 → before sampleExts i ≠ (5 : UInt64).toNat := by decide
  intro i j _ hi heq
  exact absurd heq (hne i hi)

/-- Block 4 is looked for in the first extent, behind its end. -/
theorem not_mapsAt_boundary :
    4 < extrecBlks sampleExts ∧ extrecIdx2blk sampleExts 4 8 = some 104 ∧ ¬ MapsAt sampleExts 4 := by
  refine ⟨by decide, by decide, ?_⟩
  rintro ⟨i, hi, hle, hlt, turns, -, hres⟩
  have hrun : idx2blkLoop sampleExts 0 4 8 = some 104 := by decide
  have heq := idx2blkLoop_unique hrun hres
  revert heq hle hlt
  interval_cases i <;> decide

end Fsl.Hfsplus
