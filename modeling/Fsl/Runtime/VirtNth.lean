import Fsl.Runtime.Prog
import Fsl.Runtime.VirtNest

/-!
# The elements of a virtual type

`fsl_virt_get_nth` adds up the sizes of the elements before the one that is asked for. A size is
computed by code that reads through the mapping itself. In the loop a read past the end of the
mapping is a failed assertion; for the last element it sets a flag. Element 0 is not looked at.
-/

namespace Fsl.Virt

open DirectMapped

/-- `OFFSET_INVALID` -/
def offsetInvalid : UInt64 := -1

/-- `OFFSET_EOF` -/
def offsetEof : UInt64 := -2

/-! ## Sizes -/

section Size

variable {m : Type → Type} [Monad m] [MonadExceptOf Stop m] [MonadLiftT (Except Stop) m]

variable (xl : Bool → UInt64 → m (Option UInt64)) (rd : UInt64 → UInt64 → Except Stop UInt64)

/-- `fsl_virt_xlate`: the address, and `ex_err_unsafe_op`. -/
def xlateFlag (inUnsafeOp err : Bool) (bitOff : UInt64) : m (UInt64 × Bool) := do
  let a ← xl inUnsafeOp bitOff
  return (a.getD (-1), err || a.isNone)

/-- `__getLocal` in a mapping, with the flag. -/
def getLocalFlag (inUnsafeOp err : Bool) (bitOff numBits : UInt64) : m (UInt64 × Bool) := do
  fslAssert (numBits ≤ 64)
  fslAssert (0 < numBits)
  let (a, err) ← xlateFlag xl inUnsafeOp err bitOff
  let (last, err) ← xlateFlag xl inUnsafeOp err (bitOff + spread numBits)
  fslAssert (a + spread numBits = last)
  let ret ← (rd a numBits : m UInt64)
  fslAssert (numBits = 1 → ret < 2)
  return (ret, err)

/-- The code of a `tt_size`, with the flag. -/
def runSize (inUnsafeOp : Bool) : Bool → Prog UInt64 → m (UInt64 × Bool)
  | err, .done v => return (v, err)
  | _, .stop e => throw e
  | err, .read addr width k => do
    let (v, err) ← getLocalFlag xl rd inUnsafeOp err addr (UInt64.ofNat width)
    runSize inUnsafeOp err (k v)

end Size

/-! ## The loop -/

section Nth

variable {m : Type → Type} [Monad m]

-- the size of the element at an offset, in an unsafe operation or not, and the flag
variable (size : Bool → UInt64 → m (UInt64 × Bool)) (totalBits : UInt64)

/-- `fsl_virt_nth_verify_bounds` -/
def nthVerifyBounds (curOff : UInt64) : m Bool := do
  let (curSize, err) ← size true curOff
  if err then return false
  return !decide (curSize + curOff > totalBits)

/-- The loop of `fsl_virt_get_nth` and what follows it; the two sums of the source are the same. -/
def nthLoop : ℕ → UInt64 → m UInt64
  | 0, total => do
    if ← nthVerifyBounds size totalBits total then return total
    return offsetEof
  | k + 1, total => do
    let (curSize, _) ← size false total
    if totalBits ≤ total + curSize then return offsetInvalid
    if curSize = 0 then return offsetEof
    nthLoop k (total + curSize)

/-- `fsl_virt_get_nth` -/
def virtGetNth (targetIdx : UInt32) : m UInt64 :=
  if targetIdx = 0 then pure 0 else nthLoop size totalBits targetIdx.toNat 0

end Nth

/-! ## Sizes without the cache -/

section Pure

variable (range : UInt64 → Source) (g : Geom)

/-- `fsl_virt_xlate_rtm`, with the cache as the state. -/
def xlateCached (inUnsafeOp : Bool) (bitOff : UInt64) : StateT Cache (Except Stop) (Option UInt64) :=
  fun c => xlateRtm range g inUnsafeOp c bitOff

/-- `fsl_virt_xlate_rtm` without a cache. -/
def xlatePure (inUnsafeOp : Bool) (bitOff : UInt64) : Except Stop (Option UInt64) := do
  fslAssert (bitOff % 8 = 0)
  if g.totalBits ≤ bitOff ∧ inUnsafeOp = true then return none
  fslAssert (bitOff < g.totalBits)
  let a ← addressInt range g bitOff
  return some a

variable {range g}

theorem xlateCached_refines (inUnsafeOp : Bool) (bitOff : UInt64) :
    Refines (Homed (bases range)) Eq (xlateCached range g inUnsafeOp bitOff)
      (xlatePure range g inUnsafeOp bitOff) := by
  intro c hc
  have hcached : xlateCached range g inUnsafeOp bitOff c = xlateRtm range g inUnsafeOp c bitOff := rfl
  rw [hcached]
  by_cases halign : bitOff % 8 = 0
  · by_cases hpast : g.totalBits ≤ bitOff ∧ inUnsafeOp = true
    · simp only [xlatePure, xlateRtm, fslAssert_of halign, ok_bind, if_pos hpast]
      exact ⟨none, c, rfl, rfl, hc⟩
    · by_cases hlt : bitOff < g.totalBits
      · have hrun : xlateRtm range g inUnsafeOp c bitOff = (do
            let p ← xlateBase range c (toInt (g.index bitOff))
            fslAssert (p.1 + bitOff % g.srcsz ≠ 0)
            return (some (p.1 + bitOff % g.srcsz), p.2)) := by
          simp only [xlateRtm, fslAssert_of halign, if_neg hpast, fslAssert_of hlt, ok_bind]
        have hpure : xlatePure range g inUnsafeOp bitOff = (addressInt range g bitOff).map some := by
          simp only [xlatePure, fslAssert_of halign, if_neg hpast, fslAssert_of hlt, ok_bind]
          cases addressInt range g bitOff <;> rfl
        rw [hrun, hpure, addressInt]
        by_cases hslot : 0 ≤ (toInt (g.index bitOff)).tmod 8
        · obtain ⟨c', hbase, hc'⟩ := xlateBase_eq hc hslot (bases_ofInt range _)
          rw [if_pos hslot, hbase, xlateMiss_toInt, address, ok_bind]
          by_cases hzero : (range (narrow (g.index bitOff))).off + bitOff % g.srcsz ≠ 0
          · simp only [fslAssert_of hzero, ok_bind]
            exact ⟨_, c', rfl, rfl, hc'⟩
          · simp only [fslAssert_of_not hzero]
            rfl
        · rw [if_neg hslot, xlateBase_of_neg hslot]
          rfl
      · simp only [xlatePure, xlateRtm, fslAssert_of halign, ok_bind, if_neg hpast,
          fslAssert_of_not hlt]
        rfl
  · simp only [xlatePure, xlateRtm, fslAssert_of_not halign]
    rfl

variable {rd : UInt64 → UInt64 → Except Stop UInt64}

theorem xlateFlag_refines (inUnsafeOp err : Bool) (bitOff : UInt64) :
    Refines (Homed (bases range)) Eq
      (xlateFlag (xlateCached range g) inUnsafeOp err bitOff)
      (xlateFlag (xlatePure range g) inUnsafeOp err bitOff) := by
  refine Refines.bind (xlateCached_refines inUnsafeOp bitOff) ?_
  rintro a _ rfl
  exact Refines.pure rfl

theorem getLocalFlag_refines (inUnsafeOp err : Bool) (bitOff numBits : UInt64) :
    Refines (Homed (bases range)) Eq
      (getLocalFlag (xlateCached range g) rd inUnsafeOp err bitOff numBits)
      (getLocalFlag (xlatePure range g) rd inUnsafeOp err bitOff numBits) := by
  refine fslAssert_bind_refines fun _ => fslAssert_bind_refines fun _ => ?_
  refine Refines.bind (xlateFlag_refines inUnsafeOp err bitOff) ?_
  rintro ⟨a, e⟩ _ rfl
  refine Refines.bind (xlateFlag_refines inUnsafeOp e _) ?_
  rintro ⟨last, e'⟩ _ rfl
  refine fslAssert_bind_refines fun _ => ?_
  refine Refines.bind (Refines.lift (rd a numBits)) ?_
  rintro ret _ rfl
  exact fslAssert_bind_refines fun _ => Refines.pure rfl

theorem runSize_refines (inUnsafeOp err : Bool) (p : Prog UInt64) :
    Refines (Homed (bases range)) Eq (runSize (xlateCached range g) rd inUnsafeOp err p)
      (runSize (xlatePure range g) rd inUnsafeOp err p) := by
  induction p generalizing err with
  | done v => exact Refines.pure rfl
  | stop e => exact Refines.throw e
  | read addr width k ih =>
    refine Refines.bind (getLocalFlag_refines inUnsafeOp err addr _) ?_
    rintro ⟨v, e⟩ _ rfl
    exact ih v e

end Pure

section Refine

variable {σ : Type} {I : σ → Prop} {size : Bool → UInt64 → StateT σ (Except Stop) (UInt64 × Bool)}
variable {size' : Bool → UInt64 → Except Stop (UInt64 × Bool)} {totalBits : UInt64}

theorem nthVerifyBounds_refines (h : ∀ u off, Refines I Eq (size u off) (size' u off))
    (curOff : UInt64) :
    Refines I Eq (nthVerifyBounds size totalBits curOff) (nthVerifyBounds size' totalBits curOff) := by
  refine Refines.bind (h true curOff) ?_
  rintro ⟨curSize, err⟩ _ rfl
  exact Refines.ite (fun _ => Refines.pure rfl) fun _ => Refines.pure rfl

theorem nthLoop_refines (h : ∀ u off, Refines I Eq (size u off) (size' u off)) (k : ℕ)
    (total : UInt64) :
    Refines I Eq (nthLoop size totalBits k total) (nthLoop size' totalBits k total) := by
  induction k generalizing total with
  | zero =>
    refine Refines.bind (nthVerifyBounds_refines h total) ?_
    rintro b _ rfl
    exact Refines.ite (fun _ => Refines.pure rfl) fun _ => Refines.pure rfl
  | succ k ih =>
    refine Refines.bind (h false total) ?_
    rintro ⟨curSize, err⟩ _ rfl
    refine Refines.ite (fun _ => Refines.pure rfl) fun _ => ?_
    exact Refines.ite (fun _ => Refines.pure rfl) fun _ => ih _

theorem virtGetNth_refines (h : ∀ u off, Refines I Eq (size u off) (size' u off))
    (targetIdx : UInt32) :
    Refines I Eq (virtGetNth size totalBits targetIdx) (virtGetNth size' totalBits targetIdx) :=
  Refines.ite (fun _ => Refines.pure rfl) fun _ => nthLoop_refines h _ _

end Refine

/-! ## The walk over the elements -/

section Walk

variable (size : Bool → UInt64 → Except Stop (UInt64 × Bool)) (totalBits : UInt64)

/-- The loop gets to element `i`, at the offset `o`. The sums are those of 64-bit words. -/
inductive Walk : ℕ → UInt64 → Prop
  | zero : Walk 0 0
  | next {i : ℕ} {o s : UInt64} {e : Bool} : Walk i o → size false o = .ok (s, e) → s ≠ 0 →
      o + s < totalBits → Walk (i + 1) (o + s)

/-- The sizes of the elements before element `i`, each at the running offset, add up to `o`. -/
inductive Sums : ℕ → ℕ → Prop
  | zero : Sums 0 0
  | next {i o : ℕ} {s : UInt64} {e : Bool} : Sums i o → o < 2 ^ 64 →
      size false (UInt64.ofNat o) = .ok (s, e) → Sums (i + 1) (o + s.toNat)

/-- What `fsl_virt_get_nth` may return: one of the two codes, or the sum of the sizes of the elements
before element `n`, which then lies in the mapping. -/
def NthResult (n : ℕ) (r : UInt64) : Prop :=
  r = offsetInvalid ∨ r = offsetEof ∨
    Sums size n r.toNat ∧ ∃ s, size false r = .ok (s, false) ∧ r.toNat + s.toNat ≤ totalBits.toNat

/-- Element 0 has a size and lies in the mapping. For a later element: each element that the loop gets
to has a size; the code that computes the size of element `n` returns, and if element `n` passes the
check at the end, no sum of an offset and a size has wrapped around. -/
def NthSound (n : ℕ) : Prop :=
  if n = 0 then ∃ s, size false 0 = .ok (s, false) ∧ s ≤ totalBits
  else (∀ i, i < n → ∀ o, Walk size totalBits i o → ∃ p, size false o = .ok p) ∧
    ∀ o, Walk size totalBits n o → ∃ s e, size true o = .ok (s, e) ∧
      (e = false → s + o ≤ totalBits → o ≠ offsetEof →
        s.toNat + o.toNat < 2 ^ 64 ∧ ∀ i, i < n → ∀ o' s' e', Walk size totalBits i o' →
          size false o' = .ok (s', e') → o'.toNat + s'.toNat < 2 ^ 64)

end Walk

section Loop

variable {size : Bool → UInt64 → Except Stop (UInt64 × Bool)} {totalBits : UInt64}

theorem nthLoop_of_walk {i : ℕ} {o : UInt64} (h : Walk size totalBits i o) (k : ℕ) :
    nthLoop size totalBits (i + k) 0 = nthLoop size totalBits k o := by
  induction h generalizing k with
  | zero => rw [Nat.zero_add]
  | next hw hs hne hlt ih =>
    rw [Nat.add_assoc, Nat.add_comm 1 k, ih (k + 1), nthLoop, hs, ok_bind]
    show (if _ then _ else _) = _
    rw [if_neg (UInt64.not_le.mpr hlt), if_neg hne]

theorem Walk.lt {i : ℕ} {o : UInt64} (h : Walk size totalBits i o) (hi : i ≠ 0) : o < totalBits := by
  cases h with
  | zero => exact absurd rfl hi
  | next _ _ _ hlt => exact hlt

/-- A walk that does not get to the element ends with one of the codes. -/
theorem nthLoop_of_not_walk {i k : ℕ} {t : UInt64} (ht : Walk size totalBits i t)
    (hsize : ∀ j, j < i + k → ∀ o, Walk size totalBits j o → ∃ p, size false o = .ok p)
    (hend : ∀ o, ¬ Walk size totalBits (i + k) o) :
    nthLoop size totalBits k t = .ok offsetInvalid ∨ nthLoop size totalBits k t = .ok offsetEof := by
  induction k generalizing i t with
  | zero => exact absurd ht (hend t)
  | succ k ih =>
    obtain ⟨⟨s, e⟩, hs⟩ := hsize i (by omega) t ht
    have hstep : nthLoop size totalBits (k + 1) t =
        if totalBits ≤ t + s then .ok offsetInvalid
        else if s = 0 then .ok offsetEof else nthLoop size totalBits k (t + s) := by
      rw [nthLoop, hs, ok_bind]
      rfl
    rw [hstep]
    by_cases hpast : totalBits ≤ t + s
    · rw [if_pos hpast]
      exact .inl rfl
    · by_cases hzero : s = 0
      · rw [if_neg hpast, if_pos hzero]
        exact .inr rfl
      · rw [if_neg hpast, if_neg hzero]
        have hnext := Walk.next ht hs hzero (UInt64.not_le.mp hpast)
        have hlen : i + 1 + k = i + (k + 1) := by omega
        exact ih hnext (hlen ▸ hsize) (hlen ▸ hend)

/-- What the last element is given. -/
theorem nthLoop_zero {o s : UInt64} {e : Bool} (h : size true o = .ok (s, e)) :
    nthLoop size totalBits 0 o =
      if e = false ∧ s + o ≤ totalBits then .ok o else .ok offsetEof := by
  rw [nthLoop, nthVerifyBounds, h, ok_bind]
  cases e with
  | true => rfl
  | false =>
    by_cases hle : s + o ≤ totalBits
    · have hgt : ¬ s + o > totalBits := UInt64.not_lt.mpr hle
      simp only [hle, hgt]
      rfl
    · have hgt : s + o > totalBits := UInt64.not_le.mp hle
      simp only [hle, hgt]
      rfl

/-! ## Wrapping around -/

/-- Sums that fit a word are those of the loop. -/
theorem Sums.eq_walk {i o : ℕ} (h : Sums size i o) {o' : UInt64} (hw : Walk size totalBits i o')
    (hlt : o < 2 ^ 64) : o = o'.toNat := by
  induction h generalizing o' with
  | zero =>
    cases hw
    rfl
  | next hsums hlow hs ih =>
    cases hw with
    | next hw hs' hne hlt' =>
      have heq := ih hw hlow
      rw [heq, UInt64.ofNat_toNat, hs'] at hs
      cases hs
      rw [heq] at hlt ⊢
      rw [UInt64.toNat_add, Nat.mod_eq_of_lt hlt]

theorem Walk.sums {n i : ℕ} {o : UInt64} (h : Walk size totalBits i o)
    (hfits : ∀ i, i < n → ∀ o s e, Walk size totalBits i o → size false o = .ok (s, e) →
      o.toNat + s.toNat < 2 ^ 64) (hi : i ≤ n) : Sums size i o.toNat := by
  induction h with
  | zero => exact .zero
  | @next j o s e hw hs hne hlt ih =>
    have hsum := hfits _ hi _ _ _ hw hs
    have hs' : size false (UInt64.ofNat o.toNat) = .ok (s, e) := by
      rw [UInt64.ofNat_toNat]
      exact hs
    rw [UInt64.toNat_add, Nat.mod_eq_of_lt hsum]
    exact .next (ih (by omega)) o.toNat_lt hs'

/-- In sums that fit a word no step has wrapped around. -/
theorem Sums.fits {n : ℕ} {o : ℕ} (h : Sums size n o) (hlt : o < 2 ^ 64) {i : ℕ} (hi : i < n)
    {o' s' : UInt64} {e' : Bool} (hw : Walk size totalBits i o') (hs' : size false o' = .ok (s', e')) :
    o'.toNat + s'.toNat < 2 ^ 64 := by
  induction h with
  | zero => omega
  | @next j oj s e hsums hlow hs ih =>
    by_cases hij : i = j
    · subst hij
      have heq := hsums.eq_walk hw hlow
      rw [heq, UInt64.ofNat_toNat, hs'] at hs
      cases hs
      omega
    · exact ih hlow (by omega)

/-- What `fsl_virt_get_nth` returns is right exactly where `NthSound` holds, for sizes of which one
that is computed without the flag is the size. -/
theorem nthResult_iff (hplain : ∀ o s, size true o = .ok (s, false) → size false o = .ok (s, false))
    (targetIdx : UInt32) :
    (∃ r, virtGetNth size totalBits targetIdx = .ok r ∧
        NthResult size totalBits targetIdx.toNat r) ↔
      NthSound size totalBits targetIdx.toNat := by
  by_cases hidx : targetIdx = 0
  · subst hidx
    have hrun : virtGetNth size totalBits 0 = .ok 0 := if_pos rfl
    have hzero : (0 : UInt32).toNat = 0 := rfl
    rw [hrun, hzero, NthSound, if_pos rfl]
    constructor
    · rintro ⟨r, hr, hbad | hbad | ⟨-, s, hs, hle⟩⟩
      · cases hr
        exact absurd hbad (by decide)
      · cases hr
        exact absurd hbad (by decide)
      · cases hr
        refine ⟨s, hs, UInt64.le_iff_toNat_le.mpr ?_⟩
        simpa using hle
    · rintro ⟨s, hs, hle⟩
      refine ⟨0, rfl, .inr (.inr ⟨.zero, s, hs, ?_⟩)⟩
      simpa using UInt64.le_iff_toNat_le.mp hle
  have hn : targetIdx.toNat ≠ 0 := fun h => hidx (UInt32.toNat_inj.mp h)
  have hrun : virtGetNth size totalBits targetIdx =
      nthLoop size totalBits targetIdx.toNat 0 := if_neg hidx
  rw [hrun, NthSound, if_neg hn]
  generalize targetIdx.toNat = n at hn
  constructor
  · rintro ⟨r, hr, hres⟩
    refine ⟨fun i hi o hw => ?_, fun o hw => ?_⟩
    · -- the loop gets to the element and computes its size
      obtain ⟨k, rfl⟩ : ∃ k, n = i + (k + 1) := ⟨n - i - 1, by omega⟩
      rw [nthLoop_of_walk hw, nthLoop] at hr
      cases hs : size false o with
      | ok p => exact ⟨p, rfl⟩
      | error e =>
        rw [hs] at hr
        cases hr
    · have hloop := nthLoop_of_walk hw 0
      rw [Nat.add_zero, hr] at hloop
      cases hs : size true o with
      | error e =>
        rw [nthLoop, nthVerifyBounds, hs] at hloop
        cases hloop
      | ok p =>
        obtain ⟨s, e⟩ := p
        refine ⟨s, e, rfl, fun he hle heof => ?_⟩
        rw [nthLoop_zero hs, if_pos ⟨he, hle⟩] at hloop
        have hro : r = o := Except.ok.inj hloop
        rw [hro] at hres
        rcases hres with hbad | hbad | ⟨hsums, s', hs', hin⟩
        · have hlt := hw.lt hn
          rw [hbad, offsetInvalid] at hlt
          grind
        · exact absurd hbad heof
        · rw [he] at hs
          rw [hplain o s hs] at hs'
          cases hs'
          have htotal := totalBits.toNat_lt
          exact ⟨by omega, fun i hi o' s' e' hw' hs' => hsums.fits o.toNat_lt hi hw' hs'⟩
  · rintro ⟨hsize, hlast⟩
    by_cases hend : ∃ o, Walk size totalBits n o
    · obtain ⟨o, hw⟩ := hend
      have hloop := nthLoop_of_walk hw 0
      obtain ⟨s, e, hs, hfits⟩ := hlast o hw
      rw [Nat.add_zero, nthLoop_zero hs] at hloop
      rw [hloop]
      by_cases hpass : e = false ∧ s + o ≤ totalBits
      · rw [if_pos hpass]
        obtain ⟨rfl, hle⟩ := hpass
        refine ⟨o, rfl, ?_⟩
        by_cases heof : o = offsetEof
        · exact .inr (.inl heof)
        · obtain ⟨hsum, hwrap⟩ := hfits rfl hle heof
          refine .inr (.inr ⟨hw.sums hwrap le_rfl, s, hplain o s hs, ?_⟩)
          have hleNat := UInt64.le_iff_toNat_le.mp hle
          rw [UInt64.toNat_add, Nat.mod_eq_of_lt hsum] at hleNat
          omega
      · rw [if_neg hpass]
        exact ⟨offsetEof, rfl, .inr (.inl rfl)⟩
    · have hnone : ∀ o, ¬ Walk size totalBits (0 + n) o := by
        rw [Nat.zero_add]
        exact not_exists.mp hend
      have hall : ∀ j, j < 0 + n → ∀ o, Walk size totalBits j o → ∃ p, size false o = .ok p := by
        rw [Nat.zero_add]
        exact hsize
      rcases nthLoop_of_not_walk .zero hall hnone with h | h
      · exact ⟨_, h, .inl rfl⟩
      · exact ⟨_, h, .inr (.inl rfl)⟩

end Loop

/-! ## The flag -/

section Flag

variable {range : UInt64 → Source} {g : Geom} {rd : UInt64 → UInt64 → Except Stop UInt64}

theorem xlatePure_plain {v a : UInt64} (h : xlatePure range g true v = .ok (some a)) :
    xlatePure range g false v = .ok (some a) := by
  obtain ⟨_, halign, h⟩ := bind_eq_ok h
  by_cases hpast : g.totalBits ≤ v ∧ true = true
  · rw [if_pos hpast] at h
    cases h
  · have hplain : ¬ (g.totalBits ≤ v ∧ false = true) := by simp
    rw [if_neg hpast] at h
    rw [xlatePure, halign, ok_bind, if_neg hplain]
    exact h

/-- Without the flag a translation in an unsafe operation is an ordinary one. -/
theorem xlateFlag_plain {err : Bool} {v a : UInt64}
    (h : xlateFlag (xlatePure range g) true err v = .ok (a, false)) :
    err = false ∧ xlateFlag (xlatePure range g) false false v = .ok (a, false) := by
  obtain ⟨b, hb, h⟩ := bind_eq_ok h
  cases b with
  | none =>
    have hflag := congrArg Prod.snd (Except.ok.inj h)
    rw [show (err || (none : Option UInt64).isNone) = true from Bool.or_true err] at hflag
    cases hflag
  | some b =>
    have herr : err = false := by
      have hflag := congrArg Prod.snd (Except.ok.inj h)
      rwa [show (err || (some b).isNone) = err from Bool.or_false err] at hflag
    refine ⟨herr, ?_⟩
    subst herr
    rw [xlateFlag, xlatePure_plain hb]
    exact h

theorem getLocalFlag_plain {err : Bool} {v n ret : UInt64}
    (h : getLocalFlag (xlatePure range g) rd true err v n = .ok (ret, false)) :
    err = false ∧ getLocalFlag (xlatePure range g) rd false false v n = .ok (ret, false) := by
  obtain ⟨_, hle, h⟩ := bind_eq_ok h
  obtain ⟨_, hpos, h⟩ := bind_eq_ok h
  obtain ⟨⟨a, e₁⟩, hfirst, h⟩ := bind_eq_ok h
  obtain ⟨⟨b, e₂⟩, hlast, h⟩ := bind_eq_ok h
  obtain ⟨_, hsame, h⟩ := bind_eq_ok h
  obtain ⟨r, hread, h⟩ := bind_eq_ok h
  obtain ⟨_, hbit, h⟩ := bind_eq_ok h
  cases h
  obtain ⟨rfl, hlast'⟩ := xlateFlag_plain hlast
  obtain ⟨rfl, hfirst'⟩ := xlateFlag_plain hfirst
  refine ⟨rfl, ?_⟩
  rw [getLocalFlag, hle, ok_bind, hpos, ok_bind, hfirst', ok_bind]
  show (xlateFlag (xlatePure range g) false false (v + spread n) >>= _) = _
  rw [hlast', ok_bind]
  show (fslAssert (a + spread n = b) >>= _) = _
  rw [hsame, ok_bind]
  show (rd a n >>= _) = _
  have hread' : rd a n = .ok ret := hread
  rw [hread', ok_bind, hbit]
  rfl

/-- So is a size that is computed without setting it. -/
theorem runSize_plain {err : Bool} {p : Prog UInt64} {s : UInt64}
    (h : runSize (xlatePure range g) rd true err p = .ok (s, false)) :
    err = false ∧ runSize (xlatePure range g) rd false false p = .ok (s, false) := by
  induction p generalizing err with
  | done v =>
    cases h
    exact ⟨rfl, rfl⟩
  | stop e => cases h
  | read addr width k ih =>
    obtain ⟨⟨v, e⟩, hv, h⟩ := bind_eq_ok h
    obtain ⟨rfl, hk⟩ := ih v h
    obtain ⟨rfl, hv'⟩ := getLocalFlag_plain hv
    refine ⟨rfl, ?_⟩
    rw [runSize, hv', ok_bind]
    exact hk

end Flag

/-! ## The code -/

section Code

variable (l : Level) (rd : UInt64 → UInt64 → Except Stop UInt64) (size : UInt64 → Prog UInt64)

/-- `tt_size` of the virtual type at an offset of the mapping, through the cache. -/
def ttSize (inUnsafeOp : Bool) (off : UInt64) : StateT Cache (Except Stop) (UInt64 × Bool) :=
  runSize (xlateCached l.range l.geom) rd inUnsafeOp false (size off)

/-- The same without a cache. -/
def ttSizePure (inUnsafeOp : Bool) (off : UInt64) : Except Stop (UInt64 × Bool) :=
  runSize (xlatePure l.range l.geom) rd inUnsafeOp false (size off)

/-- With every cache that translations lead to, `fsl_virt_get_nth` returns, and what it returns is
right. -/
def FindsNth (targetIdx : UInt32) : Prop :=
  ∀ c, Reached l.range l.geom c → ∃ r c',
    virtGetNth (ttSize l rd size) l.geom.totalBits targetIdx c = .ok (r, c') ∧
      NthResult (ttSizePure l rd size) l.geom.totalBits targetIdx.toNat r

variable {l rd size}

/-- For every mapping, every disk and every code of a size, `fsl_virt_get_nth` finds element
`targetIdx` or returns one of its two codes exactly where `NthSound` holds. -/
theorem findsNth_iff (targetIdx : UInt32) :
    FindsNth l rd size targetIdx ↔
      NthSound (ttSizePure l rd size) l.geom.totalBits targetIdx.toNat := by
  have href : Refines (Homed (bases l.range)) Eq
      (virtGetNth (ttSize l rd size) l.geom.totalBits targetIdx)
      (virtGetNth (ttSizePure l rd size) l.geom.totalBits targetIdx) :=
    virtGetNth_refines (fun u off => runSize_refines u false (size off)) targetIdx
  rw [← nthResult_iff (fun o s h => (runSize_plain h).2) targetIdx]
  constructor
  · intro h
    have hinit := @Reached.init l.range l.geom fun _ => ⟨0, 0⟩
    obtain ⟨r, c', hrun, hres⟩ := h _ hinit
    exact ⟨r, (href.exists_run_iff hinit.homed r).mp ⟨c', hrun⟩, hres⟩
  · rintro ⟨r, hrun, hres⟩ c hc
    obtain ⟨c', hc'⟩ := (href.exists_run_iff hc.homed r).mpr hrun
    exact ⟨r, c', hc', hres⟩

end Code

/-- A mapping of two bytes. -/
def twoBytes : Level := ⟨⟨0, 0, 16⟩, fun _ => ⟨64, false⟩⟩

/-- A record that has its length in the third byte. -/
def lengthInThird (off : UInt64) : Prog UInt64 := .read (off + 16) ⟨8, Width.of8⟩ fun v => .done (v * 8)

/-- In the mapping of two bytes, asking for the record after the first one is a failed assertion, and
element 0 is found of a type of four bytes. -/
theorem not_findsNth_twoBytes :
    ¬ FindsNth twoBytes (fun _ _ => .ok 1) lengthInThird 1 ∧
    ¬ FindsNth twoBytes (fun _ _ => .ok 1) (fun _ => .done 32) 0 := by
  constructor
  · intro h
    obtain ⟨r, c', hrun, -⟩ := h _ (@Reached.init _ _ fun _ => ⟨0, 0⟩)
    have hstop : virtGetNth (ttSize twoBytes (fun _ _ => .ok 1) lengthInThird)
        twoBytes.geom.totalBits 1 (initCache fun _ => ⟨0, 0⟩) = .error .assertion := rfl
    rw [hstop] at hrun
    cases hrun
  · intro h
    obtain ⟨r, c', hrun, hres⟩ := h _ (@Reached.init _ _ fun _ => ⟨0, 0⟩)
    cases hrun
    rcases hres with hbad | hbad | ⟨-, s, hs, hle⟩
    · exact absurd hbad (by decide)
    · exact absurd hbad (by decide)
    · cases hs
      exact absurd hle (by decide)

end Fsl.Virt
