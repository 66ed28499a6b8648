import Fsl.Fs.Ext2Meta

/-!
# Relinking a block of an ext2 file

`block_relink_meta` writes the pointer that its own case analysis of the numbering gives. Where this
is the pointer that `get_nth_meta_blknum` reads, the two form a lens.
-/

namespace Fsl.Ext2

open Pread PtrTree PtrTree.Slot

variable {M : Memo} {s : ℕ} {d : Disk} {ino iSize : UInt64}

/-! ## Where the packet writes -/

/-- The slot that `block_relink_meta` writes for index `n`. -/
def metaWrite (s n : ℕ) : Slot :=
  let p := 2 ^ (8 + s)
  if n ≤ 13 + p then metaSlot p n
  else
    let x := n - 14 - p
    if x % (p + 1) = 0 then bi (x / p)
    else
      let o := (2 ^ 64 - (12 + p) + (12 + x - ((12 + x) / p + 1))) % 2 ^ 64
      leaf (o / p) (o % p)

theorem Geom.isFmetaMeta_range (hg : Geom M s) (hs : s ≤ 20) {n : UInt64} {x : ℕ}
    (hn : n.toNat = 14 + 2 ^ (8 + s) + x) (hx : x < 2 ^ (8 + s) + 2 ^ (8 + s) * 2 ^ (8 + s)) :
    isFmetaMeta M n = decide (x % (2 ^ (8 + s) + 1) = 0) := by
  have hp := Geom.le_perIndir s
  have hp28 : 2 ^ (8 + s) ≤ 2 ^ 28 := Nat.pow_le_pow_right (by omega) (by omega)
  have hsq : 2 ^ (8 + s) * 2 ^ (8 + s) ≤ 2 ^ 28 * 2 ^ (8 + s) := Nat.mul_le_mul_right _ hp28
  have hpi := hg.perIndir
  have hp1 : (M.blocksPerIndir + 1).toNat = 2 ^ (8 + s) + 1 := by
    rw [UInt64.toNat_add, hpi]
    show (2 ^ (8 + s) + 1) % 2 ^ 64 = _
    exact Nat.mod_eq_of_lt (by omega)
  have h1 : (n - 13).toNat = 1 + 2 ^ (8 + s) + x :=
    (toNat_sub hn (show (13 : UInt64).toNat = 13 from rfl) (by omega)).trans (by omega)
  have h2 : (n - 13 - (M.blocksPerIndir + 1)).toNat = x :=
    (toNat_sub h1 hp1 (by omega)).trans (by omega)
  have c1 : ¬ n < 12 := by
    rw [UInt64.lt_iff_toNat_lt, hn]
    show ¬ _ < 12
    omega
  have c2 : ¬ n = 12 := by
    rw [← UInt64.toNat_inj, hn]
    show ¬ _ = 12
    omega
  have c3 : ¬ n - 13 < M.blocksPerIndir := by
    rw [UInt64.lt_iff_toNat_lt, h1, hpi]
    omega
  have c4 : ¬ n - 13 = M.blocksPerIndir := by
    rw [← UInt64.toNat_inj, h1, hpi]
    omega
  have c5 : ¬ n - 13 - (M.blocksPerIndir + 1) >
      M.blocksPerIndir * (M.blocksPerIndir + M.blocksPerIndir) := by
    rw [gt_iff_lt, UInt64.lt_iff_toNat_lt, h2, UInt64.toNat_mul, UInt64.toNat_add, hpi,
      Nat.mod_eq_of_lt (a := 2 ^ (8 + s) + 2 ^ (8 + s)) (by omega), Nat.mul_add,
      Nat.mod_eq_of_lt (by omega)]
    have hsq' : 256 * 2 ^ (8 + s) ≤ 2 ^ (8 + s) * 2 ^ (8 + s) := Nat.mul_le_mul_right _ hp
    omega
  have hm : ((n - 13 - (M.blocksPerIndir + 1)) % (M.blocksPerIndir + 1) = 0) ↔
      x % (2 ^ (8 + s) + 1) = 0 := by
    rw [← UInt64.toNat_inj, UInt64.toNat_mod, h2, hp1]
    rfl
  unfold isFmetaMeta
  dsimp only
  rw [if_neg c1, if_neg c2, if_neg c3, if_neg c4, if_neg c5, beq_eq_decide]
  exact decide_eq_decide.mpr hm

theorem Geom.toNat_fmetaToFblk (hg : Geom M s) (hs : s ≤ 20) {n : UInt64} {x : ℕ}
    (hn : n.toNat = 14 + 2 ^ (8 + s) + x) (hx : x < 2 ^ (8 + s) + 2 ^ (8 + s) * 2 ^ (8 + s))
    (hm : ¬ x % (2 ^ (8 + s) + 1) = 0) :
    (fmetaToFblk M n).toNat = 12 + x - ((12 + x) / 2 ^ (8 + s) + 1) := by
  have hp := Geom.le_perIndir s
  have hp28 : 2 ^ (8 + s) ≤ 2 ^ 28 := Nat.pow_le_pow_right (by omega) (by omega)
  have hsq : 2 ^ (8 + s) * 2 ^ (8 + s) ≤ 2 ^ 28 * 2 ^ (8 + s) := Nat.mul_le_mul_right _ hp28
  have hsq' : 256 * 2 ^ (8 + s) ≤ 2 ^ (8 + s) * 2 ^ (8 + s) := Nat.mul_le_mul_right _ hp
  have hpi := hg.perIndir
  have hp1 : (M.blocksPerIndir + 1).toNat = 2 ^ (8 + s) + 1 := by
    rw [UInt64.toNat_add, hpi]
    show (2 ^ (8 + s) + 1) % 2 ^ 64 = _
    exact Nat.mod_eq_of_lt (by omega)
  have h1 : (n - 1).toNat = 13 + 2 ^ (8 + s) + x :=
    (toNat_sub hn (show (1 : UInt64).toNat = 1 from rfl) (by omega)).trans (by omega)
  have h2 : (n - 1 - (M.blocksPerIndir + 1)).toNat = 12 + x :=
    (toNat_sub h1 hp1 (by omega)).trans (by omega)
  have hdiv : (12 + x) / 2 ^ (8 + s) < 12 + x := Nat.div_lt_self (by omega) (by omega)
  have h3 : ((n - 1 - (M.blocksPerIndir + 1)) / M.blocksPerIndir + 1).toNat =
      (12 + x) / 2 ^ (8 + s) + 1 := by
    rw [UInt64.toNat_add, UInt64.toNat_div, h2, hpi]
    exact Nat.mod_eq_of_lt (by show _ + 1 < _; omega)
  have c1 : ¬ n < 12 := by
    rw [UInt64.lt_iff_toNat_lt, hn]
    show ¬ _ < 12
    omega
  have c2 : ¬ n - 1 < M.blocksPerIndir := by
    rw [UInt64.lt_iff_toNat_lt, h1, hpi]
    omega
  have c3 : ¬ n - 1 - (M.blocksPerIndir + 1) >
      M.blocksPerIndir * (M.blocksPerIndir + M.blocksPerIndir) := by
    rw [gt_iff_lt, UInt64.lt_iff_toNat_lt, h2, UInt64.toNat_mul, UInt64.toNat_add, hpi,
      Nat.mod_eq_of_lt (a := 2 ^ (8 + s) + 2 ^ (8 + s)) (by omega), Nat.mul_add,
      Nat.mod_eq_of_lt (by omega)]
    omega
  have hmeta : ¬ isFmetaMeta M n = true := by
    rw [hg.isFmetaMeta_range hs hn hx, decide_eq_true_eq]
    exact hm
  unfold fmetaToFblk
  dsimp only
  rw [if_neg hmeta, if_neg c1, if_neg c2, if_neg c3]
  exact toNat_sub h2 h3 (by omega)

/-- The writes of `block_relink_meta` when the conditions of its statements are known. -/
theorem emit_blockRelinkMeta (ino n b : UInt64) {c1 c2 c3 c4 c5 : Bool}
    (h1 : decide (n < 12) = c1) (h2 : decide (n = 12) = c2)
    (h3 : (decide (n > 12) && decide (n < M.blocksPerIndir + 12 + 1)) = c3)
    (h4 : decide (n = 12 + (1 + M.blocksPerIndir)) = c4)
    (h5 : decide (n > 12 + (1 + M.blocksPerIndir)) = c5) :
    emit (pkts M) 1 .blockRelinkMeta [ino, n, b] = (do
      let w1 ← writeIf c1 (iBlockDirect ino n) 32 b
      let w2 ← writeIf c2 (iBlockIndir ino) 32 b
      let w3 ← writeIf c3 (do return blkPtr (← indirLookup M ino) (n - (12 + 1))) 32 b
      let w4 ← writeIf c4 (iBlockBiindir ino) 32 b
      let w5 ← writeIf (c5 && isFmetaMeta M n)
        (do
          let biindirBlk ← biindirLookup M ino
          return blkPtr biindirBlk ((n - (12 + (2 + M.blocksPerIndir))) / M.blocksPerIndir)) 32 b
      let w6 ← writeIf (c5 && !isFmetaMeta M n)
        (do
          let indirBlk ← indirInBiLookup M ino (fmetaToFblk M n)
          return blkPtr indirBlk (biindirIndirOffset M (fmetaToFblk M n))) 32 b
      return w1 ++ (w2 ++ (w3 ++ (w4 ++ (w5 ++ w6))))) := by
  subst h1 h2 h3 h4 h5
  rw [emit_no_calls rfl]
  simp only [pkts, blockRelinkMeta, List.map_cons, List.map_nil, emitFuncs, onInode, bind_assoc,
    pure_bind, List.append_nil]

/-- The packet writes one slot. -/
theorem Geom.blockRelinkMeta_eq (hg : Geom M s) {n : UInt64} (ino b : UInt64)
    (hn : n.toNat ≤ 13 + 2 ^ (8 + s) ∨
      s ≤ 20 ∧ n.toNat < 14 + 2 * 2 ^ (8 + s) + 2 ^ (8 + s) * 2 ^ (8 + s)) :
    emit (pkts M) 1 .blockRelinkMeta [ino, n, b] =
      writeSlot M ino (metaWrite s n.toNat) b := by
  have hp := Geom.le_perIndir s
  have hp61 := hg.perIndir_lt
  have hpi := hg.perIndir
  have ht1 : (1 + M.blocksPerIndir).toNat = 1 + 2 ^ (8 + s) := hg.toNat_add (by decide)
  have ht2 : (12 + (1 + M.blocksPerIndir)).toNat = 13 + 2 ^ (8 + s) := by
    rw [UInt64.toNat_add, ht1]
    show (12 + (1 + 2 ^ (8 + s))) % 2 ^ 64 = _
    omega
  have ht3 : (M.blocksPerIndir + 12 + 1).toNat = 13 + 2 ^ (8 + s) := by
    rw [UInt64.toNat_add, UInt64.toNat_add, hpi]
    show ((2 ^ (8 + s) + 12) % 2 ^ 64 + 1) % 2 ^ 64 = _
    omega
  have h1 : decide (n < 12) = decide (n.toNat < 12) :=
    decide_eq_decide.mpr UInt64.lt_iff_toNat_lt
  have h2 : decide (n = 12) = decide (n.toNat = 12) := decide_eq_decide.mpr UInt64.toNat_inj.symm
  have h3 : (decide (n > 12) && decide (n < M.blocksPerIndir + 12 + 1)) =
      decide (12 < n.toNat ∧ n.toNat < 13 + 2 ^ (8 + s)) := by
    rw [← Bool.decide_and, decide_eq_decide, gt_iff_lt, UInt64.lt_iff_toNat_lt,
      UInt64.lt_iff_toNat_lt, ht3]
    rfl
  have h4 : decide (n = 12 + (1 + M.blocksPerIndir)) = decide (n.toNat = 13 + 2 ^ (8 + s)) := by
    rw [decide_eq_decide, ← UInt64.toNat_inj, ht2]
  have h5 : decide (n > 12 + (1 + M.blocksPerIndir)) = decide (13 + 2 ^ (8 + s) < n.toNat) := by
    rw [decide_eq_decide, gt_iff_lt, UInt64.lt_iff_toNat_lt, ht2]
  rw [emit_blockRelinkMeta ino n b h1 h2 h3 h4 h5]
  unfold metaWrite metaSlot writeSlot
  dsimp only
  by_cases c1 : n.toNat < 12
  · have e2 : ¬ n.toNat = 12 := by omega
    have e3 : ¬ 12 < n.toNat := by omega
    have e4 : ¬ n.toNat = 13 + 2 ^ (8 + s) := by omega
    have e5 : ¬ 13 + 2 ^ (8 + s) < n.toNat := by omega
    have e6 : n.toNat ≤ 13 + 2 ^ (8 + s) := by omega
    simp only [c1, e2, e3, e4, e5, e6, writeIf, decide_true, decide_false, if_true, Bool.false_and,
      Bool.false_eq_true, if_false, pure_bind, List.append_nil, bind_pure, slotAddr,
      UInt64.ofNat_toNat, bind_assoc, false_and]
  by_cases c2 : n.toNat = 12
  · have e4 : ¬ 12 = 13 + 2 ^ (8 + s) := by omega
    have e5 : ¬ 13 + 2 ^ (8 + s) < 12 := by omega
    have e6 : 12 ≤ 13 + 2 ^ (8 + s) := by omega
    simp only [c2, e4, e5, e6, writeIf, decide_true, decide_false, if_true, Bool.false_and,
      Bool.false_eq_true, if_false, pure_bind, List.append_nil, List.nil_append, slotAddr,
      bind_assoc, false_and, lt_irrefl]
  have c3 : 12 < n.toNat := by omega
  by_cases c4 : n.toNat < 13 + 2 ^ (8 + s)
  · have e4 : ¬ n.toNat = 13 + 2 ^ (8 + s) := by omega
    have e5 : ¬ 13 + 2 ^ (8 + s) < n.toNat := by omega
    have e6 : n.toNat ≤ 13 + 2 ^ (8 + s) := by omega
    have hidx : n - (12 + 1) = UInt64.ofNat (n.toNat - 13) :=
      eq_ofNat (toNat_sub rfl rfl (by show 13 ≤ _; omega))
    simp only [c1, c2, c3, c4, e4, e5, e6, writeIf, decide_true, decide_false, if_true,
      Bool.false_and, Bool.false_eq_true, if_false, pure_bind, List.append_nil, List.nil_append,
      slotAddr, bind_assoc, true_and, hidx]
  by_cases c5 : n.toNat = 13 + 2 ^ (8 + s)
  · have e1 : ¬ 13 + 2 ^ (8 + s) < 12 := by omega
    have e2 : ¬ 13 + 2 ^ (8 + s) = 12 := by omega
    simp only [c5, e1, e2, writeIf, decide_true, decide_false, if_true, Bool.false_and,
      Bool.false_eq_true, if_false, pure_bind, List.append_nil, List.nil_append, slotAddr,
      bind_assoc, and_false, lt_irrefl, le_refl]
  -- behind the double-indirect root
  obtain ⟨hs, hn⟩ := hn.resolve_left (by omega)
  obtain ⟨x, hx⟩ : ∃ x, n.toNat = 14 + 2 ^ (8 + s) + x := ⟨n.toNat - (14 + 2 ^ (8 + s)), by omega⟩
  have hxlt : x < 2 ^ (8 + s) + 2 ^ (8 + s) * 2 ^ (8 + s) := by omega
  have c6 : 13 + 2 ^ (8 + s) < n.toNat := by omega
  have c7 : ¬ n.toNat ≤ 13 + 2 ^ (8 + s) := by omega
  have hsub : n.toNat - 14 - 2 ^ (8 + s) = x := by omega
  have hmeta := hg.isFmetaMeta_range hs hx hxlt
  by_cases hm : x % (2 ^ (8 + s) + 1) = 0
  · have hidx : (n - (12 + (2 + M.blocksPerIndir))) / M.blocksPerIndir =
        UInt64.ofNat (x / 2 ^ (8 + s)) := by
      have ht4 : (12 + (2 + M.blocksPerIndir)).toNat = 14 + 2 ^ (8 + s) := by
        rw [UInt64.toNat_add, hg.toNat_add (by decide)]
        show (12 + (2 + 2 ^ (8 + s))) % 2 ^ 64 = _
        omega
      refine eq_ofNat ?_
      rw [UInt64.toNat_div, hpi, toNat_sub hx ht4 (by omega), Nat.add_sub_cancel_left]
    simp only [c1, c2, c4, c5, c6, c7, hsub, hmeta, hm, hidx, writeIf, decide_true, decide_false,
      if_true, Bool.true_and, Bool.not_true, Bool.false_eq_true, if_false, pure_bind,
      List.append_nil, List.nil_append, slotAddr, bind_assoc, and_false]
  · have hoff : (fmetaToFblk M n - (12 + M.blocksPerIndir)).toNat =
        (2 ^ 64 - (12 + 2 ^ (8 + s)) + (12 + x - ((12 + x) / 2 ^ (8 + s) + 1))) % 2 ^ 64 := by
      rw [UInt64.toNat_sub, hg.toNat_add (by decide), hg.toNat_fmetaToFblk hs hx hxlt hm]
      rfl
    simp only [c1, c2, c4, c5, c6, c7, hsub, hmeta, hm, writeIf, decide_true, decide_false,
      if_true, Bool.and_false, Bool.and_true, Bool.not_false, Bool.false_eq_true, if_false, pure_bind,
      List.nil_append, bind_assoc, and_false, ← hoff,
      ← hg.leafAddr_eq]

/-! ## What the write changes -/

/-- The indirect blocks of the file are distinct and the inode lies in none of them. -/
structure Distinct (d : Disk) (M : Memo) (s : ℕ) (ino iSize : UInt64) : Prop where
  inj : Set.InjOn (slotBlk d s ino)
    {t | t ∈ fileSlots (2 ^ (8 + s)) (fileBlks M iSize) ∧ t.isMeta = true}
  apart : ∀ t ∈ fileSlots (2 ^ (8 + s)) (fileBlks M iSize), t.isMeta = true →
    ∀ c, c < 32 → (ino.toNat / 32 + c) / 2 ^ (8 + s) ≠ slotBlk d s ino t

/-- Block `b` lies on the disk and is used neither by the file nor for its inode. -/
structure Unused (d : Disk) (M : Memo) (s : ℕ) (ino iSize b : UInt64) : Prop where
  lt : b.toNat < 2 ^ 32
  onDisk : (b.toNat + 1) * 2 ^ (10 + s) ≤ d.size
  unused : ∀ t ∈ fileSlots (2 ^ (8 + s)) (fileBlks M iSize), slotBlk d s ino t ≠ b.toNat
  apart : ∀ c, c < 32 → (ino.toNat / 32 + c) / 2 ^ (8 + s) ≠ b.toNat

/-- Block `b` holds a copy of the pointers in the block of an indirect slot. -/
def CopyOf (d : Disk) (s : ℕ) (ino b : UInt64) (t : Slot) : Prop :=
  t.isMeta = true → ∀ i, i < 2 ^ (8 + s) →
    d.cell 32 (entry s b.toNat i) = d.cell 32 (entry s (slotBlk d s ino t) i)

theorem entry_inj {b b' i i' : ℕ} (hi : i < 2 ^ (8 + s)) (hi' : i' < 2 ^ (8 + s))
    (h : entry s b i = entry s b' i') : b = b' ∧ i = i' := by
  have hdiv := congrArg (· / 2 ^ (8 + s)) h
  have hmod := congrArg (· % 2 ^ (8 + s)) h
  have hpos := Nat.two_pow_pos (8 + s)
  simp only [entry, Nat.mul_comm _ (2 ^ (8 + s)), Nat.mul_add_div hpos, Nat.mul_add_mod,
    Nat.div_eq_of_lt hi, Nat.div_eq_of_lt hi', Nat.mod_eq_of_lt hi, Nat.mod_eq_of_lt hi',
    Nat.add_zero] at hdiv hmod
  exact ⟨hdiv, hmod⟩

theorem entry_div {b i : ℕ} (hi : i < 2 ^ (8 + s)) : entry s b i / 2 ^ (8 + s) = b := by
  rw [entry, Nat.mul_comm, Nat.mul_add_div (Nat.two_pow_pos _), Nat.div_eq_of_lt hi, Nat.add_zero]

/-- The index of a slot of the file in its block. -/
theorem lt_of_parent {p k : ℕ} {t t' : Slot} {i : ℕ} (ht : t ∈ fileSlots p k)
    (h : t.parent = some (t', i)) : i < p := by
  cases t <;> simp only [parent, Option.some.injEq, Prod.mk.injEq, reduceCtorEq] at h
  case ind j =>
    obtain ⟨rfl, rfl⟩ := h
    exact ht.1
  case bi q =>
    obtain ⟨rfl, rfl⟩ := h
    exact ht.1
  case leaf q r =>
    obtain ⟨rfl, rfl⟩ := h
    exact ht.2.1

/-- The pointers in the inode of a file. -/
theorem root_cell (s : ℕ) (ino : UInt64) {p k : ℕ} {t : Slot} (ht : t ∈ fileSlots p k) (h : t.parent = none) :
    ∃ c, 10 ≤ c ∧ c < 32 ∧ (∀ d, slotCell d s ino t = ino.toNat / 32 + c) ∧
      (t = direct (c - 10) ∧ c < 22 ∨ t = indir ∧ c = 22 ∨ t = bindir ∧ c = 23) := by
  cases t with
  | direct i =>
    have hi : i < 12 := ht.1
    exact ⟨10 + i, by omega, by omega, fun _ => Nat.add_assoc _ _ _,
      Or.inl ⟨by rw [Nat.add_sub_cancel_left], by omega⟩⟩
  | indir => exact ⟨22, by omega, by omega, fun _ => rfl, Or.inr (Or.inl ⟨rfl, rfl⟩)⟩
  | bindir => exact ⟨23, by omega, by omega, fun _ => rfl, Or.inr (Or.inr ⟨rfl, rfl⟩)⟩
  | ind i => cases h
  | bi q => cases h
  | leaf q r => cases h

theorem Distinct.inUse (hd : Distinct d M s ino iSize) :
    InUse (entry s) (inodeRoot ino) (d.cell 32)
      (fileSlots (2 ^ (8 + s)) (fileBlks M iSize)) := by
  refine InUse.of_distinct (p := 2 ^ (8 + s)) (fun b b' i i' hi hi' h => entry_inj hi hi' h)
    (fun t ht t' ht' => path_mem_fileSlots ht ht') (fun t ht t' i h => lt_of_parent ht h) hd.inj
    ?_ ?_
  · rintro t ⟨ht, hp⟩ t' ⟨ht', hp'⟩ heq
    obtain ⟨c, -, -, hc, hslot⟩ := root_cell s ino ht hp
    obtain ⟨c', -, -, hc', hslot'⟩ := root_cell s ino ht' hp'
    have hcc : c = c' := by
      have h1 := hc d
      have h2 := hc' d
      change slotCell d s ino t = slotCell d s ino t' at heq
      omega
    subst hcc
    rcases hslot with ⟨rfl, h1⟩ | ⟨rfl, h1⟩ | ⟨rfl, h1⟩ <;>
      rcases hslot' with ⟨rfl, h2⟩ | ⟨rfl, h2⟩ | ⟨rfl, h2⟩ <;> first | rfl | omega
  · intro t ht hp t' ht' hm i hi heq
    obtain ⟨c, -, hlt, hc, -⟩ := root_cell s ino ht hp
    refine hd.apart t' ht' hm c hlt ?_
    rw [← hc d]
    exact (congrArg (· / 2 ^ (8 + s)) heq).trans (entry_div hi)

/-- The bytes of the inode before its pointers decide whether it can be read. -/
theorem Readable.of_num {e : Disk} (h : Readable d ino) (hsize : e.size = d.size)
    (hmode : e.num ino.toNat 16 = d.num ino.toNat 16) : Readable e ino := by
  have hw : WriteWidth ino.toNat 16 := by
    have hal := h.aligned
    exact Or.inr (by omega)
  have hdata := h.data
  refine ⟨by rw [hsize]; exact h.lines, h.aligned, by rw [hsize]; exact h.inside, ?_⟩
  rw [isFastSymlink, Prog.run_bind, Prog.run_field_num h.lines _ hw] at hdata
  rw [isFastSymlink, Prog.run_bind, Prog.run_field_num (by rw [hsize]; exact h.lines) _ hw, hsize,
    hmode]
  exact hdata

namespace FileOn

/-- No slot of the file is one of the first cells of the inode. -/
theorem slotCell_ne (hd : Distinct d M s ino iSize) {t : Slot}
    (ht : t ∈ fileSlots (2 ^ (8 + s)) (fileBlks M iSize)) {c : ℕ} (hc : c < 10) :
    slotCell d s ino t ≠ ino.toNat / 32 + c := by
  cases hp : t.parent with
  | none =>
    obtain ⟨c', hge, -, hcell, -⟩ := root_cell s ino ht hp
    rw [hcell d]
    omega
  | some x =>
    obtain ⟨t', i⟩ := x
    have hcell : slotCell d s ino t = entry s (slotBlk d s ino t') i := addr_of_parent hp
    intro heq
    refine hd.apart t' (path_mem_fileSlots ht (mem_path_of_parent hp)) (isMeta_of_parent hp) c
      (by omega) ?_
    rw [← heq, hcell, entry_div (lt_of_parent ht hp)]

/-- Writing an unused block number to a slot of the file changes the block of this slot and of no
other; the file stays in order. -/
theorem relink (h : FileOn d M s ino iSize) (hd : Distinct d M s ino iSize) {b : UInt64}
    (hb : Unused d M s ino iSize b) {t : Slot}
    (ht : t ∈ fileSlots (2 ^ (8 + s)) (fileBlks M iSize)) (hcopy : CopyOf d s ino b t) :
    ∃ ws, (writeSlot M ino t b).run .little d = .ok ws ∧ ws.length = 1 ∧
      (∀ we ∈ ws, we.Fits d.size) ∧
      FileOn (d.applyAll ws) M s ino iSize ∧ slotBlk (d.applyAll ws) s ino t = b.toNat ∧
      ∀ t' ∈ fileSlots (2 ^ (8 + s)) (fileBlks M iSize), t' ≠ t →
        slotBlk (d.applyAll ws) s ino t' = slotBlk d s ino t' := by
  have hdir : ∀ i, t = direct i → i < 12 := by
    rintro i rfl
    exact ht.1
  obtain ⟨a, ha, hat⟩ := h.readable.run_slotAddr h.geom hdir (h.reached ht)
  obtain ⟨hfits, hcell, hnum⟩ :=
    writeVal_cell (w := 32) (s := 32) (b := b) (by decide) (by decide) rfl hat (h.slot_onDisk ht)
  rw [Nat.mod_eq_of_lt hb.lt] at hcell
  have hsize : (d.applyAll [writeVal a 32 b]).size = d.size := Disk.size_applyAll _ _
  -- block `b` holds what the lookups below the slot will find
  have hlens : slotBlk (d.applyAll [writeVal a 32 b]) s ino t = b.toNat ∧
      ∀ t' ∈ fileSlots (2 ^ (8 + s)) (fileBlks M iSize), t' ≠ t →
        slotBlk (d.applyAll [writeVal a 32 b]) s ino t' = slotBlk d s ino t' := by
    unfold slotBlk
    rw [hcell]
    refine hd.inUse.val_relink ht fun t' ht' i hp => ⟨?_, ?_⟩
    · rw [hcopy (isMeta_of_parent hp) i (lt_of_parent ht' hp)]
      exact (congrArg (d.cell 32) (addr_of_parent hp)).symm
    · intro heq
      have hblk : entry s b.toNat i / 2 ^ (8 + s) = b.toNat := entry_div (lt_of_parent ht' hp)
      rw [heq] at hblk
      cases hq : t.parent with
      | none =>
        obtain ⟨c, -, hlt, hc, -⟩ := root_cell s ino ht hq
        have hc' := hc d
        rw [show addr (entry s) (inodeRoot ino) (d.cell 32) t = _ from hc'] at hblk
        exact hb.apart c hlt hblk
      | some x =>
        obtain ⟨t'', j⟩ := x
        rw [addr_of_parent hq, entry_div (lt_of_parent ht hq)] at hblk
        exact hb.unused t'' (path_mem_fileSlots ht (mem_path_of_parent hq)) hblk
  have hal := h.readable.aligned
  have hread : Readable (d.applyAll [writeVal a 32 b]) ino := by
    have hne := slotCell_ne hd ht (c := 0) (by omega)
    exact h.readable.of_num hsize (hnum _ _ (by omega))
  have hfile : FileOn (d.applyAll [writeVal a 32 b]) M s ino iSize := by
    refine ⟨h.geom, hread, ?_, h.range, ?_, by rw [hsize]; exact h.small⟩
    · have hne := slotCell_ne hd ht (c := 1) (by omega)
      have hsz := h.size_eq
      have hdsize := d.size_lt
      have hin := h.readable.inside
      have haddr : (ino + 32).toNat = 32 * (ino.toNat / 32 + 1) := by
        rw [UInt64.toNat_add]
        show (ino.toNat + 32) % 2 ^ 64 = _
        omega
      have hon : OnDisk (d.applyAll [writeVal a 32 b]) (ino.toNat / 32 + 1) ↔
          OnDisk d (ino.toNat / 32 + 1) := by
        unfold OnDisk
        rw [hsize]
      rw [h.readable.run_cell haddr] at hsz
      rw [hread.run_cell haddr, if_congr hon rfl rfl, ← hsz, Disk.cell, Disk.cell,
        hnum _ _ (by omega)]
    · intro t' ht' hm
      rw [hsize]
      by_cases htt : t' = t
      · rw [htt, hlens.1]
        exact hb.onDisk
      · rw [hlens.2 t' ht' htt]
        exact h.onDisk t' ht' hm
  refine ⟨[writeVal a 32 b], ?_, rfl, List.forall_mem_singleton.mpr hfits, hfile, hlens⟩
  rw [writeSlot, Prog.run_bind, ha]
  rfl

end FileOn

/-! ## The numbering and the slots of the file -/

/-- Indices behind the double-indirect root, counted from there. -/
theorem lt_of_metaCount {p k x : ℕ} (hp : 0 < p) (h : 14 + p + x < metaCount p k) :
    12 + p < k ∧ x < (k - 12 - p) + (k - 12 - p + (p - 1)) / p := by
  unfold metaCount at h
  generalize (k - 12 - p + (p - 1)) / p = c at *
  split_ifs at h <;> omega

/-- The data block that index `x` stands for in the code. -/
theorem index_lt {p j x : ℕ} (hp : 0 < p) (hx : 0 < x) (h : x < j + (j + (p - 1)) / p) :
    x - 1 - x / p < j := by
  by_contra hge
  rcases Nat.eq_zero_or_pos j with rfl | hj
  · rw [Nat.zero_add, Nat.zero_add, Nat.div_eq_of_lt (by omega)] at h
    omega
  have hc : (j + (p - 1)) / p * p ≤ j + (p - 1) := Nat.div_mul_le_self _ _
  have hlt : x < (x / p + 1) * p := by
    have hdm := Nat.div_add_mod' x p
    have hml := Nat.mod_lt x hp
    rw [Nat.add_mul]
    omega
  generalize x / p = u at *
  generalize (j + (p - 1)) / p = c at *
  have hle : (u + 2) * p ≤ c * p := Nat.mul_le_mul_right p (by omega)
  have hexp : (u + 2) * p = (u + 1) * p + p := by ring
  omega

theorem second_level_lt {p j q : ℕ} (hp : 0 < p) (h : q * (p + 1) < j + (j + (p - 1)) / p) :
    q * p < j := by
  by_contra hge
  have hceil : (j + (p - 1)) / p ≤ q := by
    refine Nat.lt_succ_iff.mp ((Nat.div_lt_iff_lt_mul hp).mpr ?_)
    rw [Nat.succ_mul]
    omega
  rw [Nat.mul_add, Nat.mul_one] at h
  omega

theorem blk_mem {p k y : ℕ} (hp : 0 < p) (hk : k ≤ 12 + p + p * p) (hy : y < k - 12 - p) :
    bi (y / p) ∈ fileSlots p k ∧ leaf (y / p) (y % p) ∈ fileSlots p k := by
  have hq : y / p < p := Nat.div_lt_of_lt_mul (by omega)
  have hr : y % p < p := Nat.mod_lt y hp
  have hdm : y / p * p + y % p = y := Nat.div_add_mod' y p
  exact ⟨⟨hq, by omega⟩, ⟨hq, hr, by omega⟩⟩

/-- Every index but the first one behind the double-indirect root reads a slot of the file. -/
theorem metaRead_mem {k n : ℕ} (hk : k ≤ 12 + 2 ^ (8 + s) + 2 ^ (8 + s) * 2 ^ (8 + s))
    (hn : n < metaCount (2 ^ (8 + s)) k) (hne : n ≠ 14 + 2 ^ (8 + s)) :
    metaRead s n ∈ fileSlots (2 ^ (8 + s)) k := by
  have hp : 0 < 2 ^ (8 + s) := Nat.two_pow_pos _
  by_cases hle : n ≤ 13 + 2 ^ (8 + s)
  · rw [metaRead_eq_metaSlot hle]
    unfold metaCount at hn
    unfold metaSlot
    generalize (k - 12 - 2 ^ (8 + s) + (2 ^ (8 + s) - 1)) / 2 ^ (8 + s) = c at *
    split_ifs at hn ⊢ <;> simp only [fileSlots, Set.mem_ofPred_eq, InFile] <;> omega
  · obtain ⟨x, rfl⟩ : ∃ x, n = 14 + 2 ^ (8 + s) + x := ⟨n - (14 + 2 ^ (8 + s)), by omega⟩
    obtain ⟨-, hx⟩ := lt_of_metaCount hp hn
    have hy := index_lt hp (by omega) hx
    obtain ⟨hbi, hleaf⟩ := blk_mem hp hk hy
    unfold metaRead
    dsimp only
    rw [if_neg (by omega), if_neg (by omega), if_neg (by omega), if_neg (by omega),
      show 14 + 2 ^ (8 + s) + x - 14 - 2 ^ (8 + s) = x by omega, if_neg (by omega)]
    split
    · exact hbi
    · exact hleaf

theorem metaIndex_metaSlot {p n : ℕ} (hn : n ≤ 13 + p) : metaIndex p (metaSlot p n) = n := by
  unfold metaSlot
  split_ifs <;> simp only [metaIndex] <;> omega

theorem le_metaIndex_metaRead {n : ℕ} (hn : 14 + 2 ^ (8 + s) ≤ n) :
    14 + 2 ^ (8 + s) ≤ metaIndex (2 ^ (8 + s)) (metaRead s n) := by
  have hp := Geom.le_perIndir s
  unfold metaRead
  dsimp only
  rw [if_neg (by omega), if_neg (by omega), if_neg (by omega), if_neg (by omega)]
  split_ifs <;> exact Nat.le_add_right _ _

/-! ## The lens -/

/-- Relinking index `n` to block `b`: the packet commits, then the lookup of `n` gives `b` and that
of every other index of the numbering gives what it gave. -/
def RelinksMeta (d : Disk) (M : Memo) (s : ℕ) (ino iSize n b : UInt64) : Prop :=
  ∃ d', Commits .little (pkts M) 1 .blockRelinkMeta [ino, n, b] d d' ∧
    (getNthMetaBlknum M ino n).run .little d' = .ok b ∧
    ∀ m : UInt64, m.toNat < metaCount (2 ^ (8 + s)) (fileBlks M iSize) → m ≠ n →
      (getNthMetaBlknum M ino m).run .little d' = (getNthMetaBlknum M ino m).run .little d

namespace FileOn

/-- The bound under which the lookup is a lookup of slots. -/
theorem in_range (h : FileOn d M s ino iSize) {n : ℕ}
    (hn : n < metaCount (2 ^ (8 + s)) (fileBlks M iSize)) :
    n ≤ 13 + 2 ^ (8 + s) ∨
      s ≤ 20 ∧ n < 14 + 2 * 2 ^ (8 + s) + 2 ^ (8 + s) * 2 ^ (8 + s) := by
  by_cases hle : n ≤ 13 + 2 ^ (8 + s)
  · exact Or.inl hle
  · have hp := Geom.le_perIndir s
    obtain ⟨x, rfl⟩ : ∃ x, n = 14 + 2 ^ (8 + s) + x := ⟨n - (14 + 2 ^ (8 + s)), by omega⟩
    obtain ⟨hk, hx⟩ := lt_of_metaCount (Nat.two_pow_pos _) hn
    have hs : s ≤ 13 := h.geom.small_of_large h.size_lt hk.le
    have hrange := h.range
    have hceil : (fileBlks M iSize - 12 - 2 ^ (8 + s) + (2 ^ (8 + s) - 1)) / 2 ^ (8 + s) ≤
        2 ^ (8 + s) := by
      refine Nat.lt_succ_iff.mp ((Nat.div_lt_iff_lt_mul (by omega)).mpr ?_)
      rw [Nat.succ_mul]
      omega
    exact Or.inr ⟨by omega, by omega⟩

theorem run_getNthMetaBlknum (h : FileOn d M s ino iSize) {n : UInt64}
    (hn : n.toNat < metaCount (2 ^ (8 + s)) (fileBlks M iSize)) (hne : n.toNat ≠ 14 + 2 ^ (8 + s)) :
    (getNthMetaBlknum M ino n).run .little d =
      .ok (UInt64.ofNat (slotBlk d s ino (metaRead s n.toNat))) := by
  rw [h.geom.getNthMetaBlknum_eq ino (h.in_range hn)]
  exact h.run_readSlot (metaRead_mem h.range hn hne)

/-- Up to the double-indirect root the reader and the writer agree. -/
theorem relinksMeta (h : FileOn d M s ino iSize) (hd : Distinct d M s ino iSize) {n b : UInt64}
    (hb : Unused d M s ino iSize b) (hcopy : CopyOf d s ino b (metaSlot (2 ^ (8 + s)) n.toNat))
    (hn : n.toNat < metaCount (2 ^ (8 + s)) (fileBlks M iSize))
    (hle : n.toNat ≤ 13 + 2 ^ (8 + s)) : RelinksMeta d M s ino iSize n b := by
  have hmem : metaSlot (2 ^ (8 + s)) n.toNat ∈ fileSlots (2 ^ (8 + s)) (fileBlks M iSize) := by
    rw [← metaRead_eq_metaSlot hle]
    exact metaRead_mem h.range hn (by omega)
  obtain ⟨ws, hws, hlen, hfits, hfile, hself, hother⟩ := h.relink hd hb hmem hcopy
  refine ⟨d.applyAll ws, ⟨ws, ?_, by omega, hfits, rfl⟩, ?_, fun m hm hne => ?_⟩
  · rw [h.geom.blockRelinkMeta_eq ino b (Or.inl hle), metaWrite]
    dsimp only
    rw [if_pos hle, hws]
  · rw [hfile.run_getNthMetaBlknum hn (by omega), metaRead_eq_metaSlot hle, hself,
      UInt64.ofNat_toNat]
  · by_cases hstray : m.toNat = 14 + 2 ^ (8 + s)
    · have hk : 12 + 2 ^ (8 + s) < fileBlks M iSize :=
        (lt_of_metaCount (x := 0) (Nat.two_pow_pos _) (by omega)).1
      rw [hfile.run_stray hk hstray, h.run_stray hk hstray]
    · have hslot : metaRead s m.toNat ≠ metaSlot (2 ^ (8 + s)) n.toNat := by
        have hmn : m.toNat ≠ n.toNat := fun heq => hne (UInt64.toNat_inj.mp heq)
        intro heq
        have hidx := metaIndex_metaSlot hle
        rw [← heq] at hidx
        by_cases hm' : m.toNat ≤ 13 + 2 ^ (8 + s)
        · rw [metaRead_eq_metaSlot hm', metaIndex_metaSlot hm'] at hidx
          exact hmn hidx
        · have hge := le_metaIndex_metaRead (s := s) (n := m.toNat) (by omega)
          omega
      rw [hfile.run_getNthMetaBlknum hm hstray, h.run_getNthMetaBlknum hm hstray,
        hother _ (metaRead_mem h.range hm hstray) hslot]

/-- A write to another slot of the file than the one that is read is no relink. -/
theorem not_relinksMeta_of_slot (h : FileOn d M s ino iSize) (hd : Distinct d M s ino iSize)
    {n b : UInt64} (hb : Unused d M s ino iSize b)
    (hn : n.toNat < metaCount (2 ^ (8 + s)) (fileBlks M iSize))
    (hmem : metaWrite s n.toNat ∈ fileSlots (2 ^ (8 + s)) (fileBlks M iSize))
    (hcopy : CopyOf d s ino b (metaWrite s n.toNat))
    (hne : metaRead s n.toNat ≠ metaWrite s n.toNat) :
    ¬ RelinksMeta d M s ino iSize n b := by
  rintro ⟨d', ⟨ws', hws', -, -, rfl⟩, hget, -⟩
  obtain ⟨ws, hws, -, -, hfile, -, hother⟩ := h.relink hd hb hmem hcopy
  rw [h.geom.blockRelinkMeta_eq ino b (h.in_range hn), hws] at hws'
  cases hws'
  by_cases hstray : n.toNat = 14 + 2 ^ (8 + s)
  · have hk : 12 + 2 ^ (8 + s) < fileBlks M iSize :=
      (lt_of_metaCount (x := 0) (Nat.two_pow_pos _) (by omega)).1
    rw [hfile.run_stray hk hstray] at hget
    cases hget
  · have hread := metaRead_mem h.range hn hstray
    rw [hfile.run_getNthMetaBlknum hn hstray, hother _ hread hne] at hget
    refine hb.unused _ hread ?_
    rw [← Except.ok.inj hget, UInt64.toNat_ofNat_of_lt']
    exact lt_trans (d.cell_lt 32 _) (by norm_num [UInt64.size])

/-- Where the writer wraps around, the packet stops. -/
theorem run_writeSlot_stray (h : FileOn d M s ino iSize)
    (hk : 12 + 2 ^ (8 + s) < fileBlks M iSize) {q : ℕ} (hq : 2 ^ (56 - s) - 2 ≤ q)
    (hq' : q < 2 ^ (56 - s)) (r : ℕ) (b : UInt64) :
    (writeSlot M ino (leaf q r) b).run .little d = .error .assertion := by
  have hs : s ≤ 13 := h.geom.small_of_large h.size_lt hk.le
  obtain ⟨hsmall, hfour, hpow⟩ := h.small_disk (by omega)
  have hblk := entry_le (h.onDisk bindir hk rfl) q
  have hcell : slotCell d s ino (bi q) = entry s (slotBlk d s ino bindir) q := rfl
  have hge : q ≤ slotCell d s ino (bi q) := Nat.le_add_left _ _
  have hout : ¬ OnDisk d (slotCell d s ino (bi q)) := by
    unfold OnDisk
    omega
  rw [writeSlot, Prog.run_bind, h.readable.run_leaf_stops h.geom (by omega) hout, error_bind]

/-- Behind the double-indirect root the writer misses the slot of the reader, or stops. -/
theorem not_relinksMeta (h : FileOn d M s ino iSize) (hd : Distinct d M s ino iSize) {n b : UInt64}
    (hb : Unused d M s ino iSize b) (hcopy : CopyOf d s ino b (metaSlot (2 ^ (8 + s)) n.toNat))
    (hn : n.toNat < metaCount (2 ^ (8 + s)) (fileBlks M iSize))
    (hgt : 13 + 2 ^ (8 + s) < n.toNat) : ¬ RelinksMeta d M s ino iSize n b := by
  have hp := Geom.le_perIndir s
  have hp0 : 0 < 2 ^ (8 + s) := Nat.two_pow_pos _
  obtain ⟨x, hx⟩ : ∃ x, n.toNat = 14 + 2 ^ (8 + s) + x := ⟨n.toNat - (14 + 2 ^ (8 + s)), by omega⟩
  obtain ⟨hk, hxlt⟩ := lt_of_metaCount hp0 (hx ▸ hn)
  have hsub : n.toNat - 14 - 2 ^ (8 + s) = x := by omega
  have hread : metaRead s n.toNat =
      if x = 0 then bi (2 ^ (56 - s) - 1)
      else if x % 2 ^ (8 + s) = 0 then bi ((x - 1 - x / 2 ^ (8 + s)) / 2 ^ (8 + s))
      else leaf ((x - 1 - x / 2 ^ (8 + s)) / 2 ^ (8 + s))
        ((x - 1 - x / 2 ^ (8 + s)) % 2 ^ (8 + s)) := by
    unfold metaRead
    dsimp only
    rw [if_neg (by omega), if_neg (by omega), if_neg (by omega), if_neg (by omega), hsub]
  have hs : s ≤ 13 := h.geom.small_of_large h.size_lt hk.le
  have hfar : 2 ^ 43 ≤ 2 ^ (56 - s) := Nat.pow_le_pow_right (by omega) (by omega)
  by_cases hm : x % (2 ^ (8 + s) + 1) = 0
  · -- the writer takes the pointer of the double-indirect block, the reader the data block before
    obtain ⟨q, hq⟩ : ∃ q, x = q * (2 ^ (8 + s) + 1) := exists_eq_mul_left_of_dvd (Nat.dvd_of_mod_eq_zero hm)
    have hqj := second_level_lt hp0 (hq ▸ hxlt)
    have hrange := h.range
    have hqp : q < 2 ^ (8 + s) := lt_of_mul_lt_mul_right
      (show q * 2 ^ (8 + s) < 2 ^ (8 + s) * 2 ^ (8 + s) by omega) (Nat.zero_le _)
    have hxq : x = 2 ^ (8 + s) * q + q := by
      rw [hq]
      ring
    have hdiv : x / 2 ^ (8 + s) = q := by
      rw [hxq, Nat.mul_add_div hp0, Nat.div_eq_of_lt hqp, Nat.add_zero]
    have hmod : x % 2 ^ (8 + s) = q := by
      rw [hxq, Nat.mul_add_mod, Nat.mod_eq_of_lt hqp]
    have hwrite : metaWrite s n.toNat = bi q := by
      unfold metaWrite
      dsimp only
      rw [if_neg (by omega), hsub, if_pos hm, hdiv]
    have hslot : metaSlot (2 ^ (8 + s)) n.toNat = bi q := by
      unfold metaSlot
      rw [if_neg (by omega), if_neg (by omega), if_neg (by omega), if_neg (by omega), hsub, if_pos hm,
        hq, Nat.mul_div_cancel _ (by omega)]
    refine h.not_relinksMeta_of_slot hd hb hn ?_ ?_ ?_
    · rw [hwrite]
      exact ⟨hqp, by omega⟩
    · rw [hwrite, ← hslot]
      exact hcopy
    · rw [hwrite, hread, hmod]
      by_cases hz : x = 0
      · have hq0 : q = 0 := by rw [← hdiv, hz, Nat.zero_div]
        rw [if_pos hz, hq0]
        intro heq
        have := Slot.bi.inj heq
        omega
      · have hq0 : ¬ q = 0 := by
          rintro rfl
          omega
        rw [if_neg hz, if_neg hq0]
        simp
  · have hz : ¬ x = 0 := by
      rintro rfl
      exact hm (Nat.zero_mod _)
    have hdiv : x / 2 ^ (8 + s) ≤ (12 + x) / 2 ^ (8 + s) := Nat.div_le_div_right (by omega)
    have hdivx : (12 + x) / 2 ^ (8 + s) ≤ x := by
      refine Nat.lt_succ_iff.mp ((Nat.div_lt_iff_lt_mul hp0).mpr ?_)
      calc 12 + x < (x + 1) * 256 := by omega
        _ ≤ (x + 1) * 2 ^ (8 + s) := Nat.mul_le_mul_left _ hp
    have hy := index_lt hp0 (by omega) hxlt
    by_cases hf : 12 + 2 ^ (8 + s) ≤ 12 + x - ((12 + x) / 2 ^ (8 + s) + 1)
    · -- the writer takes an earlier data block
      obtain ⟨y', hy'⟩ : ∃ y', 12 + x - ((12 + x) / 2 ^ (8 + s) + 1) = 12 + 2 ^ (8 + s) + y' :=
        Nat.exists_eq_add_of_le hf
      have hwrite : metaWrite s n.toNat = leaf (y' / 2 ^ (8 + s)) (y' % 2 ^ (8 + s)) := by
        have hwrap : (2 ^ 64 - (12 + 2 ^ (8 + s)) + (12 + 2 ^ (8 + s) + y')) % 2 ^ 64 = y' := by
          have hnlt := n.toNat_lt
          have hp61 := h.geom.perIndir_lt
          have hyx : y' ≤ x := by
            generalize (12 + x) / 2 ^ (8 + s) = u at hy'
            omega
          omega
        unfold metaWrite
        dsimp only
        rw [if_neg (by omega), hsub, if_neg hm, hy', hwrap]
      refine h.not_relinksMeta_of_slot hd hb hn ?_ ?_ ?_
      · rw [hwrite]
        exact (blk_mem hp0 h.range (by omega)).2
      · rw [hwrite]
        intro hmeta
        cases hmeta
      · rw [hwrite, hread, if_neg hz]
        by_cases hmod : x % 2 ^ (8 + s) = 0
        · rw [if_pos hmod]
          simp
        · rw [if_neg hmod]
          intro heq
          obtain ⟨hq, hr⟩ := Slot.leaf.inj heq
          have hdm := Nat.div_add_mod (x - 1 - x / 2 ^ (8 + s)) (2 ^ (8 + s))
          rw [hq, hr, Nat.div_add_mod] at hdm
          omega
    · -- the writer wraps around
      rintro ⟨d', ⟨ws, hws, -⟩, -⟩
      obtain ⟨c, hc⟩ : ∃ c, 12 + x - ((12 + x) / 2 ^ (8 + s) + 1) + c = 12 + 2 ^ (8 + s) :=
        ⟨_, Nat.add_sub_cancel' (not_le.mp hf).le⟩
      have hp61 := h.geom.perIndir_lt
      have hwrap : (2 ^ 64 - (12 + 2 ^ (8 + s)) + (12 + x - ((12 + x) / 2 ^ (8 + s) + 1))) % 2 ^ 64 =
          2 ^ 64 - c := by omega
      have hwrite : metaWrite s n.toNat =
          leaf ((2 ^ 64 - c) / 2 ^ (8 + s)) ((2 ^ 64 - c) % 2 ^ (8 + s)) := by
        unfold metaWrite
        dsimp only
        rw [if_neg (by omega), hsub, if_neg hm, hwrap]
      have hpow : 2 ^ 64 = 2 ^ (56 - s) * 2 ^ (8 + s) := by
        rw [← pow_add]
        congr 1
        omega
      have hlow : 2 ^ (56 - s) - 2 ≤ (2 ^ 64 - c) / 2 ^ (8 + s) := by
        refine (Nat.le_div_iff_mul_le hp0).mpr ?_
        rw [Nat.sub_mul, ← hpow]
        omega
      have hhigh : (2 ^ 64 - c) / 2 ^ (8 + s) < 2 ^ (56 - s) := by
        refine (Nat.div_lt_iff_lt_mul hp0).mpr ?_
        rw [← hpow]
        omega
      rw [h.geom.blockRelinkMeta_eq ino b (h.in_range hn), hwrite,
        h.run_writeSlot_stray hk hlow hhigh] at hws
      cases hws

end FileOn

/-- `block_relink_meta` and `get_nth_meta_blknum` form a lens exactly up to the double-indirect
root of the numbering. -/
theorem relinksMeta_iff (h : FileOn d M s ino iSize) (hd : Distinct d M s ino iSize) {n b : UInt64}
    (hb : Unused d M s ino iSize b) (hcopy : CopyOf d s ino b (metaSlot (2 ^ (8 + s)) n.toNat))
    (hn : n.toNat < metaCount (2 ^ (8 + s)) (fileBlks M iSize)) :
    RelinksMeta d M s ino iSize n b ↔ n.toNat ≤ 13 + 2 ^ (8 + s) := by
  constructor
  · intro hlens
    by_contra hgt
    exact h.not_relinksMeta hd hb hcopy hn (not_le.mp hgt) hlens
  · exact h.relinksMeta hd hb hcopy hn

/-- The blocks of the sample file of 269 blocks. -/
def sampleNum : Slot → ℕ
  | direct i => 20 + i
  | indir => 6
  | ind i => 40 + i
  | bindir => 7
  | bi q => 8 + q
  | leaf q r => 300 + (q + r)

theorem sample_blk {t : Slot} (ht : t ∈ fileSlots (2 ^ (8 + 0)) 269) :
    slotBlk (sample 275456) 0 40960 t = sampleNum t := by
  have hlt : (275456 : ℕ) < 2 ^ 32 := by omega
  obtain ⟨h6, h7, h8⟩ := sample_slotBlk hlt
  cases t with
  | direct i =>
    have hi : i < 12 := ht.1
    have hcell : (40960 : UInt64).toNat / 32 + 10 + i = 5 * 256 + (10 + i) := by
      show 1280 + 10 + i = _
      omega
    show (sample 275456).cell 32 ((40960 : UInt64).toNat / 32 + 10 + i) = _
    rw [hcell, cell_sample hlt (by omega) (by omega)]
    show sampleInode 275456 (10 + i) = 20 + i
    interval_cases i <;> rfl
  | ind i =>
    obtain ⟨hi, -⟩ := ht
    show (sample 275456).cell 32 (entry 0 (slotBlk (sample 275456) 0 40960 indir) i) = _
    rw [h6]
    exact cell_sample (b := 6) hlt (by omega) (by omega)
  | indir => exact h6
  | bindir => exact h7
  | bi q =>
    have hq : q = 0 := by
      have : 12 + 2 ^ (8 + 0) + q * 2 ^ (8 + 0) < 269 := ht.2
      omega
    subst hq
    exact h8
  | leaf q r =>
    have hqr : 12 + 2 ^ (8 + 0) + (q * 2 ^ (8 + 0) + r) < 269 := ht.2.2
    have hq : q = 0 := by omega
    have hr : r = 0 := by omega
    subst hq hr
    show (sample 275456).cell 32 (entry 0 (slotBlk (sample 275456) 0 40960 (bi 0)) 0) = _
    rw [h8]
    exact cell_sample (b := 8) (c := 0) hlt (by omega) (by omega)

/-- All blocks of the sample file are distinct. -/
theorem sample_injOn :
    Set.InjOn (slotBlk (sample 275456) 0 40960) (fileSlots (2 ^ (8 + 0)) 269) := by
  intro t ht t' ht' heq
  rw [sample_blk ht, sample_blk ht'] at heq
  cases t <;> cases t' <;> simp only [fileSlots, Set.mem_ofPred_eq, InFile] at ht ht' <;>
    simp only [sampleNum] at heq <;> first | rfl | omega | grind

theorem sample_distinct : Distinct (sample 275456) sampleMemo 0 40960 275456 := by
  have hblks : fileBlks sampleMemo 275456 = 269 :=
    sample_fileBlks (show (275456 : ℕ) < 2 ^ 32 by omega)
  refine ⟨?_, ?_⟩
  · rw [hblks]
    exact sample_injOn.mono fun t ht => ht.1
  · rw [hblks]
    intro t ht _ c hc heq
    have hdiv : ((40960 : UInt64).toNat / 32 + c) / 2 ^ (8 + 0) = 5 := by
      show (1280 + c) / 256 = 5
      omega
    rw [hdiv, sample_blk ht] at heq
    cases t <;> simp only [sampleNum] at heq <;> omega

theorem sample_unused : Unused (sample 275456) sampleMemo 0 40960 275456 9 := by
  have hblks : fileBlks sampleMemo 275456 = 269 :=
    sample_fileBlks (show (275456 : ℕ) < 2 ^ 32 by omega)
  refine ⟨by decide, show (9 + 1) * 2 ^ (10 + 0) ≤ 524288 by omega, ?_, ?_⟩
  · rw [hblks]
    intro t ht
    rw [sample_blk ht]
    show sampleNum t ≠ 9
    cases t <;> simp only [sampleNum, fileSlots, Set.mem_ofPred_eq, InFile] at * <;> omega
  · intro c hc
    show (1280 + c) / 256 ≠ 9
    omega

/-- Relinking the first block of the sample file. -/
theorem relinksMeta_iff_first :
    Unused (sample 275456) sampleMemo 0 40960 275456 9 ∧
      RelinksMeta (sample 275456) sampleMemo 0 40960 275456 0 9 := by
  have hblks : fileBlks sampleMemo 275456 = 269 :=
    sample_fileBlks (show (275456 : ℕ) < 2 ^ 32 by omega)
  have hfile : FileOn (sample 275456) sampleMemo 0 40960 275456 := sample_fileOn le_rfl
  refine ⟨sample_unused, (relinksMeta_iff hfile sample_distinct sample_unused ?_ ?_).mpr
    (Nat.zero_le _)⟩
  · intro hm
    cases hm
  · rw [hblks]
    decide

/-- Relinking the second-level block of the sample file, number 270 of its 272 blocks: block 9 is a
copy of it, and the lookup of 270 does not find block 9. -/
theorem not_relinksMeta_second_level :
    loadMemo.run .little (sample 275456) = .ok sampleMemo ∧
      FileOn (sample 275456) sampleMemo 0 40960 275456 ∧
      Set.InjOn (slotBlk (sample 275456) 0 40960) (fileSlots (2 ^ (8 + 0)) 269) ∧
      Unused (sample 275456) sampleMemo 0 40960 275456 9 ∧
      CopyOf (sample 275456) 0 40960 9 (metaSlot (2 ^ (8 + 0)) 270) ∧
      270 < metaCount (2 ^ (8 + 0)) (fileBlks sampleMemo 275456) ∧
      ¬ RelinksMeta (sample 275456) sampleMemo 0 40960 275456 270 9 := by
  have hlt : (275456 : ℕ) < 2 ^ 32 := by omega
  have hfile : FileOn (sample 275456) sampleMemo 0 40960 275456 := sample_fileOn le_rfl
  have hblks : fileBlks sampleMemo 275456 = 269 := sample_fileBlks hlt
  have hslot : metaSlot (2 ^ (8 + 0)) 270 = bi 0 := by decide
  have hcount : 270 < metaCount (2 ^ (8 + 0)) (fileBlks sampleMemo 275456) := by
    rw [hblks]
    decide
  have hcopy : CopyOf (sample 275456) 0 40960 9 (metaSlot (2 ^ (8 + 0)) 270) := by
    rw [hslot]
    intro _ i hi
    rw [(sample_slotBlk hlt).2.2]
    exact (cell_sample (b := 9) hlt (by omega) hi).trans (cell_sample (b := 8) hlt (by omega) hi).symm
  exact ⟨sample_loaded hlt, hfile, sample_injOn, sample_unused, hcopy, hcount,
    hfile.not_relinksMeta sample_distinct sample_unused hcopy hcount (by decide)⟩

end Fsl.Ext2
