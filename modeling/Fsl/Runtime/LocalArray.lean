import Fsl.Runtime.Fuse

/-!
# Elements of primitive arrays

`__getLocalArray` reads one element of an array of primitives. It compares the offset of the element
in the array with the size of the array, both of them products of 64-bit words; an index that is the
number of elements passes.
-/

namespace Fsl.Fuse

open Virt

/-- The field that `__getLocalArray` asks `__getLocal` for: its offset and its width. -/
def arrayField (idx bitsInType baseOffset bitsInArray : UInt64) : Except Stop (UInt64 × UInt64) := do
  fslAssert (bitsInType ≤ 64)
  let arrayOff := bitsInType * idx
  fslAssert (¬ arrayOff > bitsInArray)
  return (baseOffset + bitsInType * idx, bitsInType)

/-- `__getLocalArray` -/
def getLocalArray (mode : Mode) (clo : Closure) (idx bitsInType baseOffset bitsInArray : UInt64) :
    RtM (UInt64 × Closure) := do
  let (realOff, numBits) ← arrayField idx bitsInType baseOffset bitsInArray
  getLocalIo mode clo realOff numBits

/-- The size of the array in the call that `EvalCtx::resolveArrayInType` makes: `AOPMul` of the size
of an element and the number of elements. -/
def bitsInArray (size elems : UInt64) : UInt64 := size * elems

/-- Unless `__getLocalArray` stops on its assertion, it reads one field with `__getLocal`; neither of the
products has wrapped around, and the field lies in the array. -/
def StaysInside (idx width base count : UInt64) : Prop :=
  ∀ off n, arrayField idx width base (bitsInArray width count) = .ok (off, n) →
    (∀ mode clo, getLocalArray mode clo idx width base (bitsInArray width count) =
      getLocalIo mode clo off n) ∧
    width.toNat * idx.toNat < 2 ^ 64 ∧ width.toNat * count.toNat < 2 ^ 64 ∧
      base.toNat ≤ off.toNat ∧ off.toNat + n.toNat ≤ base.toNat + width.toNat * count.toNat

section Inside

variable {idx width base count : UInt64}

theorem arrayField_of_le (h64 : width ≤ 64) {bits : UInt64} (h : width * idx ≤ bits) :
    arrayField idx width base bits = .ok (base + width * idx, width) := by
  have hle : ¬ width * idx > bits := UInt64.not_lt.mpr h
  rw [arrayField, fslAssert_of h64, ok_bind]
  show (fslAssert (¬ width * idx > bits) >>= _) = _
  rw [fslAssert_of hle]
  rfl

theorem arrayField_of_lt (h64 : width ≤ 64) {bits : UInt64} (h : bits < width * idx) :
    arrayField idx width base bits = .error .assertion := by
  rw [arrayField, fslAssert_of h64, ok_bind]
  show (fslAssert (¬ width * idx > bits) >>= _) = _
  rw [fslAssert_of_not (not_not.mpr h)]
  rfl

/-- The element is read where `__getLocal` finds it, for every closure. -/
theorem getLocalArray_of_le (mode : Mode) (clo : Closure) (h64 : width ≤ 64) {bits : UInt64}
    (h : width * idx ≤ bits) :
    getLocalArray mode clo idx width base bits =
      getLocalIo mode clo (base + width * idx) width := by
  rw [getLocalArray, arrayField_of_le h64 h]
  rfl

/-- An access that is not refused stays inside of the array exactly if the index is below the number
of elements and neither the size of the array nor the offset of the element wraps around. It is
refused if, after the products have wrapped around, the offset in the array exceeds the size. -/
theorem staysInside_iff (h0 : 0 < width) (h64 : width ≤ 64) :
    StaysInside idx width base count ↔
      width.toNat * count.toNat % 2 ^ 64 < width.toNat * idx.toNat % 2 ^ 64 ∨
      (idx < count ∧ width.toNat * count.toNat < 2 ^ 64 ∧
        base.toNat + width.toNat * idx.toNat < 2 ^ 64) := by
  have hw : 0 < width.toNat := UInt64.lt_iff_toNat_lt.mp h0
  have hbase := base.toNat_lt
  have hcheck : bitsInArray width count < width * idx ↔
      width.toNat * count.toNat % 2 ^ 64 < width.toNat * idx.toNat % 2 ^ 64 := by
    rw [bitsInArray, UInt64.lt_iff_toNat_lt, UInt64.toNat_mul, UInt64.toNat_mul]
  by_cases hstop : bitsInArray width count < width * idx
  · refine iff_of_true (fun off n h => ?_) (.inl (hcheck.mp hstop))
    rw [arrayField_of_lt h64 hstop] at h
    cases h
  rw [or_iff_right (fun h => hstop (hcheck.mpr h))]
  have hrun : arrayField idx width base (bitsInArray width count) =
      .ok (base + width * idx, width) := arrayField_of_le h64 (UInt64.not_lt.mp hstop)
  have hoff : (base + width * idx).toNat =
      (base.toNat + width.toNat * idx.toNat % 2 ^ 64) % 2 ^ 64 := by
    rw [UInt64.toNat_add, UInt64.toNat_mul]
  have hnext : width.toNat * (idx.toNat + 1) = width.toNat * idx.toNat + width.toNat :=
    Nat.mul_succ _ _
  constructor
  · intro h
    obtain ⟨-, hidx, hcount, hlow, hhigh⟩ := h _ _ hrun
    rw [hoff, Nat.mod_eq_of_lt hidx] at hlow hhigh
    have hsum : base.toNat + width.toNat * idx.toNat < 2 ^ 64 := by omega
    rw [Nat.mod_eq_of_lt hsum] at hhigh
    refine ⟨UInt64.lt_iff_toNat_lt.mpr ?_, hcount, hsum⟩
    have hle : width.toNat * (idx.toNat + 1) ≤ width.toNat * count.toNat := by omega
    exact Nat.le_of_mul_le_mul_left hle hw
  · rintro ⟨hlt, hcount, hsum⟩ off n hfield
    rw [hrun] at hfield
    cases hfield
    have hle : width.toNat * (idx.toNat + 1) ≤ width.toNat * count.toNat :=
      Nat.mul_le_mul_left _ (UInt64.lt_iff_toNat_lt.mp hlt)
    have hidx : width.toNat * idx.toNat < 2 ^ 64 := by omega
    rw [hoff, Nat.mod_eq_of_lt hidx, Nat.mod_eq_of_lt hsum]
    have hread : ∀ mode clo, getLocalArray mode clo idx width base (bitsInArray width count) =
        getLocalIo mode clo (base + width * idx) width :=
      fun mode clo => getLocalArray_of_le mode clo h64 (UInt64.not_lt.mp hstop)
    exact ⟨hread, hidx, hcount, by omega, by omega⟩

end Inside

/-- The last of four bytes. -/
theorem staysInside_last : (0 : UInt64) < 8 ∧ (8 : UInt64) ≤ 64 ∧ StaysInside 3 8 0 4 :=
  ⟨by decide, by decide, (staysInside_iff (by decide) (by decide)).mpr (.inr (by decide))⟩

/-- The byte behind four bytes is read as their fifth. -/
theorem not_staysInside_past :
    arrayField 4 8 0 (bitsInArray 8 4) = .ok (32, 8) ∧ ¬ StaysInside 4 8 0 4 := by
  have hrun : arrayField 4 8 0 (bitsInArray 8 4) = .ok (32, 8) := by decide
  refine ⟨hrun, fun h => ?_⟩
  obtain ⟨-, -, -, -, hhigh⟩ := h _ _ hrun
  exact absurd hhigh (by decide)

end Fsl.Fuse
