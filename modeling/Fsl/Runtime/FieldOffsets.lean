import Fsl.Runtime.Children

/-!
# Two offsets of an array element

The deep scan keeps the offset of the next element and moves it by the size of each element it
follows; an element that it cannot follow counts as `tf_typesize` of the parent. `ti_field_off` adds up
the sizes of all elements, or multiplies. The index of the scan has 32 bits.
-/

namespace Fsl.Children

open Walk

namespace FieldArray

variable (f : FieldArray)

/-- The scan comes to the index, with this offset. -/
inductive Reaches : UInt32 → UInt64 → Prop
  | init : Reaches 0 f.fieldbitoff
  | skip {i i' : UInt32} {off off' : UInt64} : Reaches i off →
      f.scanNext (i, off) = .skip (i', off') → Reaches i' off'
  | take {i j i' : UInt32} {off off' : UInt64} : Reaches i off →
      f.scanNext (i, off) = .take j (i', off') → Reaches i' off'

/-- Each element is followed by the scan where `ti_field_off` says that it is. -/
def OffsetsAgree : Prop :=
  ∀ i off, f.Reaches i off → i.toUInt64 < f.elemcount → f.tiFieldOff i = .ok off

/-- Both move by the same number of bits from an element to the next one. -/
structure SameSteps : Prop where
  /-- An element that cannot be followed has a size, and it is `tf_typesize`. -/
  skipped : f.fixed = false → ∀ i off, f.Reaches i off → i + 1 ≠ 0 →
    (i + 1).toUInt64 < f.elemcount → f.follow off i.toUInt64 = .ok false →
    f.size off i.toUInt64 = .ok f.typesize
  /-- An element of an array that is said to have elements of one size has that size. -/
  followed : f.fixed = true → ∀ i off sz, f.Reaches i off → i + 1 ≠ 0 →
    (i + 1).toUInt64 < f.elemcount → f.follow off i.toUInt64 = .ok true →
    f.size off i.toUInt64 = .ok sz → sz = f.typesize
  /-- Where the index comes back to 0, in an array of `2 ^ 32` elements or more, it does so at the offset
  of the first element. -/
  again : f.elemcount ≠ 0 → ∀ off, f.Reaches 0 off → off = f.fieldbitoff

variable {f}

/-! ## The offset from the index -/

theorem toNat_succ {i : UInt32} (h : i + 1 ≠ 0) : (i + 1).toNat = i.toNat + 1 := by
  have hlt := i.toNat_lt
  rw [UInt32.toNat_add]
  refine Nat.mod_eq_of_lt (Nat.lt_of_le_of_ne (by simpa using hlt) fun heq => h ?_)
  rw [← UInt32.toNat_inj, UInt32.toNat_add, heq]
  rfl

theorem succ_lt_iff {i : UInt32} (h : i + 1 ≠ 0) :
    (i + 1).toUInt64 < f.elemcount ↔ i.toUInt64 < f.elemcount ∧ i.toUInt64 < f.elemcount - 1 := by
  rw [toUInt64_lt_iff, toUInt64_lt_iff, toUInt64_lt_iff, toNat_succ h]
  have hcount := f.elemcount.toNat_lt
  constructor
  · intro hlt
    have hone : (1 : UInt64) ≤ f.elemcount := UInt64.le_iff_toNat_le.mpr (by simp; omega)
    have hsub : (f.elemcount - 1).toNat = f.elemcount.toNat - 1 := by
      rw [UInt64.toNat_sub_of_le _ _ hone, UInt64.toNat_one]
    omega
  · rintro ⟨hlt, hlt'⟩
    have hone : (1 : UInt64) ≤ f.elemcount := UInt64.le_iff_toNat_le.mpr (by simp; omega)
    have hsub : (f.elemcount - 1).toNat = f.elemcount.toNat - 1 := by
      rw [UInt64.toNat_sub_of_le _ _ hone, UInt64.toNat_one]
    omega

theorem tiFieldOff_zero : f.tiFieldOff 0 = .ok f.fieldbitoff := by
  show Except.ok (0 + f.fieldbitoff) = _
  rw [UInt64.zero_add]

theorem tiFieldOff_sum (hf : f.fixed = false) (i : UInt32) :
    f.tiFieldOff i = (f.computeArrayBits i.toNat).map fun sz => sz + f.fieldbitoff := by
  by_cases hi : 0 < i
  · rw [tiFieldOff, if_pos ⟨hi, hf⟩]
    cases f.computeArrayBits i.toNat <;> rfl
  · have hzero : i = 0 := by simpa using hi
    subst hzero
    rfl

theorem tiFieldOff_mul (hf : f.fixed = true) (i : UInt32) :
    f.tiFieldOff i = .ok (f.typesize * i.toUInt64 + f.fieldbitoff) := by
  by_cases hi : 0 < i
  · have hnot : ¬ (0 < i ∧ f.fixed = false) := by simp [hf]
    rw [tiFieldOff, if_neg hnot, if_pos hi]
    rfl
  · have hzero : i = 0 := by simpa using hi
    subst hzero
    rw [tiFieldOff_zero]
    simp

/-- From an element to the next one. -/
theorem tiFieldOff_succ_sum (hf : f.fixed = false) {i : UInt32} {off : UInt64}
    (h : f.tiFieldOff i = .ok off) (hi : i + 1 ≠ 0) :
    f.tiFieldOff (i + 1) = (f.size off i.toUInt64).map fun sz => off + sz := by
  rw [tiFieldOff_sum hf] at h ⊢
  cases hbits : f.computeArrayBits i.toNat with
  | error e =>
    rw [hbits] at h
    cases h
  | ok bits =>
    rw [hbits] at h
    have hoff : bits + f.fieldbitoff = off := Except.ok.inj h
    rw [computeArrayBits_next hbits (toNat_succ hi), UInt64.add_comm f.fieldbitoff, hoff]
    cases f.size off i.toUInt64 with
    | error e => rfl
    | ok sz =>
      have hsum : bits + sz + f.fieldbitoff = off + sz := by grind
      exact congrArg Except.ok hsum

theorem tiFieldOff_succ_mul (hf : f.fixed = true) {i : UInt32} {off : UInt64}
    (h : f.tiFieldOff i = .ok off) (hi : i + 1 ≠ 0) :
    f.tiFieldOff (i + 1) = .ok (off + f.typesize) := by
  rw [tiFieldOff_mul hf] at h ⊢
  have hcast : (i + 1).toUInt64 = i.toUInt64 + 1 := by
    refine UInt64.toNat_inj.mp ?_
    have hlt := i.toNat_lt
    rw [UInt32.toNat_toUInt64, toNat_succ hi, UInt64.toNat_add, UInt32.toNat_toUInt64,
      UInt64.toNat_one]
    omega
  have hoff : f.typesize * i.toUInt64 + f.fieldbitoff = off := Except.ok.inj h
  have hnext : f.typesize * (i + 1).toUInt64 + f.fieldbitoff = off + f.typesize := by grind
  rw [hnext]

/-! ## The offset of the scan -/

theorem lt_of_scanNext {i : UInt32} {off : UInt64} (h : f.scanNext (i, off) ≠ .last) :
    i.toUInt64 < f.elemcount := by
  by_contra hlt
  exact h (scanNext_of_not hlt)

theorem scanNext_eq_skip {i i' : UInt32} {off off' : UInt64}
    (h : f.scanNext (i, off) = .skip (i', off')) :
    f.follow off i.toUInt64 = .ok false ∧ i' = i + 1 ∧ off' = off + f.typesize := by
  have hlt : i.toUInt64 < f.elemcount := lt_of_scanNext fun hlast => by
    rw [hlast] at h
    cases h
  rw [scanNext_of_lt hlt] at h
  split at h
  case h_1 => cases h
  case h_2 hf =>
    cases h
    exact ⟨hf, rfl, rfl⟩
  case h_3 =>
    split at h
    · split at h <;> cases h
    · cases h

theorem scanNext_eq_take {i j i' : UInt32} {off off' : UInt64}
    (h : f.scanNext (i, off) = .take j (i', off')) :
    f.follow off i.toUInt64 = .ok true ∧ i' = i + 1 ∧
      (i.toUInt64 < f.elemcount - 1 → ∃ sz, f.size off i.toUInt64 = .ok sz ∧ off' = off + sz) := by
  have hlt : i.toUInt64 < f.elemcount := lt_of_scanNext fun hlast => by
    rw [hlast] at h
    cases h
  rw [scanNext_of_lt hlt] at h
  split at h
  case h_1 => cases h
  case h_2 => cases h
  case h_3 hf =>
    split at h
    next hlast =>
      split at h
      · cases h
      next sz hsz =>
        cases h
        exact ⟨hf, rfl, fun _ => ⟨sz, hsz, rfl⟩⟩
    next hlast =>
      cases h
      exact ⟨hf, rfl, fun hlt' => absurd hlt' hlast⟩

theorem Reaches.skipped {i : UInt32} {off : UInt64} (h : f.Reaches i off)
    (hlt : i.toUInt64 < f.elemcount) (hf : f.follow off i.toUInt64 = .ok false) :
    f.Reaches (i + 1) (off + f.typesize) := by
  refine h.skip ?_
  rw [scanNext_of_lt hlt, hf]

theorem Reaches.followed {i : UInt32} {off sz : UInt64} (h : f.Reaches i off)
    (hlt : i.toUInt64 < f.elemcount) (hlast : i.toUInt64 < f.elemcount - 1)
    (hf : f.follow off i.toUInt64 = .ok true) (hsz : f.size off i.toUInt64 = .ok sz) :
    f.Reaches (i + 1) (off + sz) := by
  refine h.take (j := i) ?_
  rw [scanNext_of_followed hlt hf, if_pos hlast, hsz]

theorem SameSteps.first (s : f.SameSteps) {i : UInt32} {off : UInt64} (hr : f.Reaches i off)
    (hi : i = 0) (hlt : i.toUInt64 < f.elemcount) : f.tiFieldOff i = .ok off := by
  subst hi
  have hne : f.elemcount ≠ 0 := by
    intro hzero
    rw [hzero] at hlt
    exact absurd hlt UInt64.not_lt_zero
  rw [s.again hne off hr]
  exact tiFieldOff_zero

/-- For every typed array of every parent, the scan follows each element where `ti_field_off` says it
is, exactly if both move by the same number of bits from an element to the next one. -/
theorem offsetsAgree_iff (f : FieldArray) : f.OffsetsAgree ↔ f.SameSteps := by
  constructor
  · intro h
    constructor
    · intro hfix i off hr hi hlt hf
      have hlt' := ((succ_lt_iff hi).mp hlt).1
      have hnext := h _ _ (hr.skipped hlt' hf) hlt
      rw [tiFieldOff_succ_sum hfix (h i off hr hlt') hi] at hnext
      cases hsz : f.size off i.toUInt64 with
      | error e =>
        rw [hsz] at hnext
        cases hnext
      | ok sz =>
        rw [hsz] at hnext
        have hsum : off + sz = off + f.typesize := Except.ok.inj hnext
        have heq : sz = f.typesize := by grind
        rw [heq]
    · intro hfix i off sz hr hi hlt hf hsz
      obtain ⟨hlt', hlast⟩ := (succ_lt_iff hi).mp hlt
      have hnext := h _ _ (hr.followed hlt' hlast hf hsz) hlt
      rw [tiFieldOff_succ_mul hfix (h i off hr hlt') hi] at hnext
      have hsum : off + f.typesize = off + sz := Except.ok.inj hnext
      grind
    · intro hne off hr
      have hpos : (0 : UInt32).toUInt64 < f.elemcount := by
        rw [toUInt64_lt_iff]
        exact Nat.pos_of_ne_zero fun hzero => hne (UInt64.toNat_inj.mp hzero)
      have hzero := h 0 off hr hpos
      rw [tiFieldOff_zero] at hzero
      exact (Except.ok.inj hzero).symm
  · intro s i off hr
    induction hr with
    | init => exact fun _ => tiFieldOff_zero
    | @skip i i' off off' hr hs ih =>
      intro hlt
      by_cases hzero : i' = 0
      · exact s.first (hr.skip hs) hzero hlt
      · obtain ⟨hf, rfl, rfl⟩ := scanNext_eq_skip hs
        have hoff := ih ((succ_lt_iff hzero).mp hlt).1
        cases hfix : f.fixed with
        | true => exact tiFieldOff_succ_mul hfix hoff hzero
        | false =>
          rw [tiFieldOff_succ_sum hfix hoff hzero, s.skipped hfix i off hr hzero hlt hf]
          rfl
    | @take i j i' off off' hr hs ih =>
      intro hlt
      by_cases hzero : i' = 0
      · exact s.first (hr.take hs) hzero hlt
      · obtain ⟨hf, rfl, hnext⟩ := scanNext_eq_take hs
        obtain ⟨hlt', hlast⟩ := (succ_lt_iff hzero).mp hlt
        have hoff := ih hlt'
        obtain ⟨sz, hsz, rfl⟩ := hnext hlast
        cases hfix : f.fixed with
        | true =>
          rw [tiFieldOff_succ_mul hfix hoff hzero, s.followed hfix i off sz hr hzero hlt hf hsz]
        | false =>
          rw [tiFieldOff_succ_sum hfix hoff hzero, hsz]
          rfl

/-- The index of an array of fewer than `2 ^ 32` elements does not come back to 0. -/
theorem reaches_zero (hcount : f.elemcount.toNat < 2 ^ 32) {i : UInt32} {off : UInt64}
    (h : f.Reaches i off) (hi : i = 0) : off = f.fieldbitoff := by
  have hpast : ∀ j : UInt32, j + 1 = 0 → ¬ j.toUInt64 < f.elemcount := by
    intro j hj hlt
    rw [toUInt64_lt_iff] at hlt
    have hsucc := congrArg UInt32.toNat hj
    have hjlt := j.toNat_lt
    rw [UInt32.toNat_add, UInt32.toNat_one, UInt32.toNat_zero] at hsucc
    omega
  cases h with
  | init => rfl
  | @skip i' _ off' _ hr hs =>
    obtain ⟨-, hnext, -⟩ := scanNext_eq_skip hs
    have hlt := lt_of_scanNext fun hlast => by
      rw [hlast] at hs
      cases hs
    exact absurd hlt (hpast _ (hnext.symm.trans hi))
  | @take i' j _ off' _ hr hs =>
    obtain ⟨-, hnext, -⟩ := scanNext_eq_take hs
    have hlt := lt_of_scanNext fun hlast => by
      rw [hlast] at hs
      cases hs
    exact absurd hlt (hpast _ (hnext.symm.trans hi))

/-- In an array of fewer than `2 ^ 32` elements the sizes of the elements are all that matters. -/
theorem sameSteps_iff_of_lt (hcount : f.elemcount.toNat < 2 ^ 32) :
    f.SameSteps ↔
      (f.fixed = false → ∀ i off, f.Reaches i off → i + 1 ≠ 0 → (i + 1).toUInt64 < f.elemcount →
        f.follow off i.toUInt64 = .ok false → f.size off i.toUInt64 = .ok f.typesize) ∧
      (f.fixed = true → ∀ i off sz, f.Reaches i off → i + 1 ≠ 0 → (i + 1).toUInt64 < f.elemcount →
        f.follow off i.toUInt64 = .ok true → f.size off i.toUInt64 = .ok sz → sz = f.typesize) :=
  ⟨fun s => ⟨s.skipped, s.followed⟩,
    fun h => ⟨h.1, h.2, fun _ _ hr => reaches_zero hcount hr rfl⟩⟩

/-- Three elements of 16, 24 and 8 bits, of a parent that takes an element for 16 bits; the second one
cannot be followed. -/
def threeElems : FieldArray where
  elemcount := 3
  fieldbitoff := 0
  typesize := 16
  fixed := false
  size off _ := .ok (if off = 0 then 16 else if off = 16 then 24 else 8)
  follow off _ := .ok (off ≠ 16)

/-- The scan follows the third element at bit 32; it is at bit 40. -/
theorem not_offsetsAgree_threeElems :
    threeElems.Reaches 2 32 ∧ threeElems.tiFieldOff 2 = .ok 40 ∧ ¬ threeElems.OffsetsAgree := by
  have hinit : threeElems.Reaches 0 0 := Reaches.init
  have hfirst : threeElems.Reaches 1 16 := hinit.followed (by decide) (by decide) rfl rfl
  have hsecond : threeElems.Reaches 2 32 := hfirst.skipped (by decide) rfl
  have hoff : threeElems.tiFieldOff 2 = .ok 40 := rfl
  refine ⟨hsecond, hoff, fun h => ?_⟩
  have heq := h 2 32 hsecond (by decide)
  rw [hoff] at heq
  exact absurd (Except.ok.inj heq) (by decide)

end FieldArray

end Fsl.Children
