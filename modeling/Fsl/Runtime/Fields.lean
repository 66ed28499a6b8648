import Fsl.Runtime.Reloc

/-!
# Fields of a disk

How writes and copies change the numbers in the fields of a disk. An array of `w`-bit fields is a
function of the cell number: cell `c` of width `w` lies at bit `w * c`.
-/

namespace Fsl

open BitNum Pread

/-- Two runs of `n` bits do not meet. -/
def Apart (n a b : ℕ) : Prop := a + n ≤ b ∨ b + n ≤ a

/-- Elements of an array. -/
theorem apart_mul {i j : ℕ} (base n : ℕ) (h : i ≠ j) : Apart n (base + i * n) (base + j * n) := by
  rcases Nat.lt_or_gt_of_ne h with hlt | hlt
  · have hle := Nat.mul_le_mul_right n (Nat.succ_le_of_lt hlt)
    rw [Nat.succ_mul] at hle
    exact Or.inl (by omega)
  · have hle := Nat.mul_le_mul_right n (Nat.succ_le_of_lt hlt)
    rw [Nat.succ_mul] at hle
    exact Or.inr (by omega)

/-- Single bits. -/
theorem apart_one_iff {a b : ℕ} : Apart 1 a b ↔ a ≠ b := by
  unfold Apart
  omega

namespace Disk

variable {d : Disk} {off n off' n' val : ℕ}

theorem bit_eq_false (d : Disk) {k : ℕ} (hk : 8 * d.size ≤ k) : d.bit k = false := by
  rw [bit, bitOf, d.byte_eq_zero (k / 8) (by omega)]
  exact Nat.zero_testBit _

/-- A field is a number below `2 ^ n` with the bits of the disk. -/
theorem eq_num {v : ℕ} (hv : v < 2 ^ n) (h : ∀ i, i < n → v.testBit i = d.bit (off + i)) :
    v = d.num off n := by
  refine eq_ofBits fun i => ?_
  by_cases hi : i < n
  · rw [h i hi, decide_eq_true hi, Bool.true_and]
  · rw [decide_eq_false hi, Bool.false_and]
    exact Nat.testBit_lt_two_pow (lt_of_lt_of_le hv (Nat.pow_le_pow_right (by omega) (by omega)))

theorem num_congr {e : Disk} (h : ∀ k, off ≤ k → k < off + n → d.bit k = e.bit k) :
    d.num off n = e.num off n :=
  ofBits_congr fun i hi => h (off + i) (by omega) (by omega)

theorem num_setField_self (hin : off + n ≤ 8 * d.size) :
    (d.setField off val n).num off n = val % 2 ^ n := by
  refine (eq_num (Nat.mod_lt _ (Nat.two_pow_pos n)) fun i hi => ?_).symm
  have hcov : off ≤ off + i ∧ off + i < off + n := by omega
  rw [bit_setField _ _ _ _ (by omega), if_pos hcov, Nat.add_sub_cancel_left, Nat.testBit_mod_two_pow,
    decide_eq_true hi, Bool.true_and]

/-- A write leaves the fields apart from it alone. -/
theorem num_setField_of_disjoint (h : off' + n' ≤ off ∨ off + n ≤ off') :
    (d.setField off val n).num off' n' = d.num off' n' := by
  refine num_congr fun k hk hk' => ?_
  by_cases hin : k < 8 * d.size
  · have hout : ¬ (off ≤ k ∧ k < off + n) := by omega
    rw [bit_setField _ _ _ _ hin, if_neg hout]
  · rw [bit_eq_false _ (by rw [size_setField]; omega), bit_eq_false _ (by omega)]

theorem applyAll_append (d : Disk) (l l' : List WlogEnt) :
    d.applyAll (l ++ l') = (d.applyAll l).applyAll l' := List.foldl_append

/-- A field that no write of the log touches. -/
theorem num_applyAll_of_apart {l : List WlogEnt}
    (h : ∀ we ∈ l, off + n ≤ we.bitAddr.toNat ∨ we.bitAddr.toNat + we.bits ≤ off) :
    (d.applyAll l).num off n = d.num off n := by
  induction l generalizing d with
  | nil => rfl
  | cons we l ih =>
    obtain ⟨hwe, hl⟩ := List.forall_mem_cons.mp h
    rw [applyAll_cons, ih hl]
    exact num_setField_of_disjoint hwe

/-- A bit that no write of the log covers, on the disk or behind it. -/
theorem bit_applyAll_of_apart {l : List WlogEnt} {k : ℕ}
    (h : ∀ we ∈ l, k < we.bitAddr.toNat ∨ we.bitAddr.toNat + we.bits ≤ k) :
    (d.applyAll l).bit k = d.bit k := by
  by_cases hk : k < 8 * d.size
  · exact bit_applyAll_of_not_mem hk fun we hwe hcov => by
      have := h we hwe
      omega
  · rw [bit_eq_false _ (by rw [size_applyAll]; omega), bit_eq_false _ (by omega)]

/-- The same value written to fields that are apart from each other. -/
theorem num_applyAll_map {w : ℕ} {a : ℕ → ℕ} {we : ℕ → WlogEnt} {ns : List ℕ} (hns : ns.Nodup)
    (haddr : ∀ k ∈ ns, (we k).bitAddr.toNat = a k ∧ (we k).bits = w ∧ (we k).val.toNat = val)
    (hapart : ∀ k ∈ ns, ∀ l ∈ ns, k ≠ l → Apart w (a k) (a l))
    (hin : ∀ k ∈ ns, a k + w ≤ 8 * d.size) {k : ℕ} (hk : k ∈ ns) :
    (d.applyAll (ns.map we)).num (a k) w = val % 2 ^ w := by
  induction ns generalizing d with
  | nil => cases hk
  | cons m ns ih =>
    obtain ⟨hnot, hns⟩ := List.nodup_cons.mp hns
    obtain ⟨hm, hrest⟩ := List.forall_mem_cons.mp haddr
    rw [List.map_cons, applyAll_cons]
    rcases List.mem_cons.mp hk with rfl | hk'
    · rw [num_applyAll_of_apart]
      · rw [WlogEnt.apply, hm.1, hm.2.1, hm.2.2]
        exact num_setField_self (hin _ List.mem_cons_self)
      · intro e he
        obtain ⟨l, hl, rfl⟩ := List.mem_map.mp he
        rw [(hrest l hl).1, (hrest l hl).2.1]
        refine hapart k List.mem_cons_self l (List.mem_cons_of_mem _ hl) fun heq => ?_
        exact hnot (heq ▸ hl)
    · exact ih hns hrest
        (fun i hi l hl => hapart i (List.mem_cons_of_mem _ hi) l (List.mem_cons_of_mem _ hl))
        (fun i hi => hin i (List.mem_cons_of_mem _ hi)) hk'

theorem bit_copyBlock {src dst sz : ℕ} (hdisj : src + sz ≤ dst ∨ dst + sz ≤ src)
    (hin : dst + sz ≤ d.size) (k : ℕ) : (d.copyBlock src dst sz).bit k =
      if 8 * dst ≤ k ∧ k < 8 * (dst + sz) then d.bit (8 * src + (k - 8 * dst)) else d.bit k := by
  rw [bit, bitOf, byte_copyBlock hdisj hin]
  by_cases hk : 8 * dst ≤ k ∧ k < 8 * (dst + sz)
  · have hbyte : dst ≤ k / 8 ∧ k / 8 < dst + sz := by omega
    have hdiv : (8 * src + (k - 8 * dst)) / 8 = src + (k / 8 - dst) := by omega
    have hmod : (8 * src + (k - 8 * dst)) % 8 = k % 8 := by omega
    rw [if_pos hk, if_pos hbyte, bit, bitOf, hdiv, hmod]
  · have hbyte : ¬ (dst ≤ k / 8 ∧ k / 8 < dst + sz) := by omega
    rw [if_neg hk, if_neg hbyte]
    rfl

/-! ## Cells -/

/-- The number in cell `c` of width `w`. -/
def cell (d : Disk) (w c : ℕ) : ℕ := d.num (w * c) w

theorem cell_lt (d : Disk) (w c : ℕ) : d.cell w c < 2 ^ w := num_lt _ _ _

/-- A cell of two cells. -/
theorem cell_two_mul (d : Disk) (w c : ℕ) :
    d.cell (2 * w) c = d.cell w (2 * c) + 2 ^ w * d.cell w (2 * c + 1) := by
  have hlow : 2 * w * c = w * (2 * c) := by ring
  have hsplit := ofBits_add (fun i => d.bit (w * (2 * c) + i)) w w
  rw [← Nat.two_mul] at hsplit
  rw [cell, hlow]
  refine hsplit.trans ?_
  congr 2
  refine ofBits_congr fun i _ => ?_
  rw [Nat.mul_succ, Nat.add_assoc]

/-- A write of a cell leaves the other cells alone. -/
theorem cell_setField_of_ne {w c c' : ℕ} (hc : c' ≠ c) :
    (d.setField (w * c) val w).cell w c' = d.cell w c' := by
  refine num_setField_of_disjoint ?_
  rcases Nat.lt_or_gt_of_ne hc with h | h
  · left
    calc w * c' + w = w * (c' + 1) := by rw [Nat.mul_succ]
      _ ≤ w * c := Nat.mul_le_mul_left _ h
  · right
    calc w * c + w = w * (c + 1) := by rw [Nat.mul_succ]
      _ ≤ w * c' := Nat.mul_le_mul_left _ h

/-- A write of a cell is an update of the array. -/
theorem cell_setField {w c : ℕ} (hin : w * c + w ≤ 8 * d.size) :
    (d.setField (w * c) val w).cell w = Function.update (d.cell w) c (val % 2 ^ w) := by
  funext c'
  by_cases hc : c' = c
  · subst hc
    rw [Function.update_self, cell, num_setField_self hin]
  · rw [Function.update_of_ne hc, cell_setField_of_ne hc]

/-- The disk of `size` bytes with the given cells. -/
def ofCells (size w : ℕ) (f : ℕ → ℕ) (h : size < 2 ^ 61) : Disk :=
  ofBitFn size (fun k => (f (k / w)).testBit (k % w)) h

@[simp] theorem size_ofCells (size w : ℕ) (f : ℕ → ℕ) (h : size < 2 ^ 61) :
    (ofCells size w f h).size = size := rfl

/-- A field within a cell. -/
theorem num_ofCells_within {size w c k n : ℕ} {f : ℕ → ℕ} (h : size < 2 ^ 61) (hn : k + n ≤ w)
    (hin : w * c + w ≤ 8 * size) :
    (ofCells size w f h).num (w * c + k) n = f c / 2 ^ k % 2 ^ n := by
  refine (eq_num (Nat.mod_lt _ (Nat.two_pow_pos n)) fun i hi => ?_).symm
  have hw : 0 < w := by omega
  have hi' : k + i < w := by omega
  rw [ofCells, Nat.add_assoc, bit_ofBitFn _ _ (by omega), Nat.mul_add_div hw, Nat.mul_add_mod,
    Nat.div_eq_of_lt hi', Nat.mod_eq_of_lt hi', Nat.add_zero, Nat.testBit_mod_two_pow,
    decide_eq_true hi, Bool.true_and, Nat.testBit_div_two_pow, Nat.add_comm]

/-- The first bits of a cell. -/
theorem num_ofCells {size w c n : ℕ} {f : ℕ → ℕ} (h : size < 2 ^ 61) (hn : n ≤ w)
    (hin : w * c + w ≤ 8 * size) : (ofCells size w f h).num (w * c) n = f c % 2 ^ n := by
  have hfield := num_ofCells_within (k := 0) (f := f) h ((Nat.zero_add n).trans_le hn) hin
  rwa [Nat.add_zero, pow_zero, Nat.div_one] at hfield

theorem cell_ofCells {size w c : ℕ} {f : ℕ → ℕ} (h : size < 2 ^ 61) (hin : w * c + w ≤ 8 * size)
    (hf : f c < 2 ^ w) : (ofCells size w f h).cell w c = f c := by
  rw [cell, num_ofCells h le_rfl hin, Nat.mod_eq_of_lt hf]

end Disk

/-- A write of a cell of whole bytes fits the disk, updates the array of cells and leaves the fields
apart from it alone. -/
theorem writeVal_cell {d : Disk} {w c : ℕ} (h : 1 ≤ w ∧ w ≤ 64) (h8 : 8 ∣ w) {a b s : UInt64}
    (hs : s.toNat = w) (ha : a.toNat = w * c) (hc : w * c + w ≤ 8 * d.size) :
    (writeVal a s b).Fits d.size ∧
      (d.applyAll [writeVal a s b]).cell w = Function.update (d.cell w) c (b.toNat % 2 ^ w) ∧
      ∀ off n, off + n ≤ w * c ∨ w * c + w ≤ off →
        (d.applyAll [writeVal a s b]).num off n = d.num off n := by
  have hbits : (writeVal a s b).bits = w := by
    show s.toNat % 256 = w
    omega
  have happly : d.applyAll [writeVal a s b] = d.setField (w * c) b.toNat w := by
    show d.setField a.toNat b.toNat (writeVal a s b).bits = _
    rw [hbits, ha]
  refine ⟨⟨?_, ?_, ?_⟩, ?_, ?_⟩
  · rw [hbits]
    show WriteWidth a.toNat w
    rw [ha]
    exact Or.inr ⟨Nat.mod_eq_zero_of_dvd (Dvd.dvd.mul_right h8 c), Nat.mod_eq_zero_of_dvd h8,
      Nat.le_of_dvd h.1 h8, h.2⟩
  · rw [hbits]
    show a.toNat + w ≤ _
    rw [ha]
    exact hc
  · rw [hbits]
    intro h1
    rw [h1] at h8
    exact absurd (Nat.le_of_dvd one_pos h8) (by decide)
  · rw [happly]
    exact Disk.cell_setField hc
  · intro off n hd
    rw [happly]
    exact Disk.num_setField_of_disjoint hd

/-! ## Words -/

theorem eq_ofNat {a : UInt64} {k : ℕ} (h : a.toNat = k) : a = UInt64.ofNat k := by
  rw [← h, UInt64.ofNat_toNat]

theorem toNat_sub {a b : UInt64} {i j : ℕ} (ha : a.toNat = i) (hb : b.toNat = j) (h : j ≤ i) :
    (a - b).toNat = i - j := by
  rw [UInt64.toNat_sub_of_le _ _ (by rw [UInt64.le_iff_toNat_le]; omega), ha, hb]

/-! ## Code that reads cells -/

/-- Reading a cell of whole bytes. -/
theorem Prog.run_field_cell {d : Disk} (h32 : 32 ∣ d.size) {addr : UInt64} {w c : ℕ}
    (h : 1 ≤ w ∧ w ≤ 64) (h8 : 8 ∣ w) (haddr : addr.toNat = w * c) :
    (Prog.field addr w h).run .little d =
      if w * c + w ≤ 8 * d.size then .ok (UInt64.ofNat (d.cell w c)) else .error .assertion := by
  have hw : WriteWidth addr.toNat w := by
    refine Or.inr ⟨?_, ?_, ?_, h.2⟩
    · rw [haddr]
      exact Nat.mod_eq_zero_of_dvd (Dvd.dvd.mul_right h8 c)
    · exact Nat.mod_eq_zero_of_dvd h8
    · exact Nat.le_of_dvd h.1 h8
  rw [Prog.run_field_num h32 h hw, haddr]
  rfl

end Fsl
