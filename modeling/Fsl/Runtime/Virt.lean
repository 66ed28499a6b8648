import Fsl.Lib.DirectMapped
import Fsl.Runtime.Disk

/-!
# Virtual address spaces

A mapping presents a range of equal-sized source elements as one address space. `virt.c` finds the
source of a virtual offset by its index, through a direct-mapped cache of eight entries. The index is
a 64-bit word, but the functions of the cache and the one for a miss take it as an `int`.
-/

namespace Fsl.Virt

open DirectMapped

/-- `rtm_cached_minidx`, `rtm_cached_maxidx` and `rtm_cached_srcsz`, as `fsl_virt_load_cache` sets
them. -/
structure Geom where
  minidx : UInt64
  maxidx : UInt64
  srcsz : UInt64

/-- `fsl_virt_total_bits` -/
def Geom.totalBits (g : Geom) : UInt64 := g.srcsz * (g.maxidx - g.minidx + 1)

/-- The source element a virtual offset falls into. -/
def Geom.index (g : Geom) (bitOff : UInt64) : UInt64 := bitOff / g.srcsz + g.minidx

/-- What `it_range` reports of a source element: its offset, and whether the offset is one of the
address space its parent lives in (`*virt_mapping` is not `NULL`). -/
structure Source where
  off : UInt64
  xlate : Bool

/-- `rtm_cache`; the address in a slot is its `vc_idx`. -/
abbrev Cache := Fin 8 → Slot UInt64

/-- A 64-bit word that is passed as an `int`: its low half, the high bit of which is the sign. -/
@[irreducible] def toInt (i : UInt64) : ℤ := i.toUInt32.toInt32.toInt

/-- `&rtm->rtm_cache[idx % VIRT_CACHE_ENTS]`; the remainder has the sign of the index. -/
def cacheSlot (idx : ℤ) : Except Stop (Fin 8) :=
  if 0 ≤ idx.tmod 8 then .ok (Fin.ofNat 8 (idx.tmod 8).toNat) else .error .fault

/-- `fsl_virt_cache_update` -/
def cacheUpdate (c : Cache) (idx : ℤ) (v : UInt64) : Except Stop Cache := do
  let i ← cacheSlot idx
  return Function.update c i ⟨(UInt64.ofInt idx).toNat, v⟩

/-- `fsl_virt_cache_find`, `~0` if there is nothing. -/
def cacheFind (c : Cache) (idx : ℤ) : Except Stop UInt64 := do
  let i ← cacheSlot idx
  return if (c i).addr ≠ (UInt64.ofInt idx).toNat then -1 else (c i).data

/-- `fsl_virt_init_cache`: no slot has an index of its own. -/
def initCache (c : Cache) : Cache := fun i => { c i with addr := i + 1 }

/-- The base that the cache has for an index. -/
abbrev Cache.find (c : Cache) (a : ℕ) : Option UInt64 := DirectMapped.find c a

/-- The cache has the bases of `backing`. -/
abbrev Cache.Homed (backing : ℕ → UInt64) (c : Cache) : Prop := DirectMapped.Homed backing c

section Xlate

variable (range : UInt64 → Source) (g : Geom)

/-- `fsl_virt_xlate_miss` -/
def xlateMiss (idx : ℤ) : UInt64 := (range (UInt64.ofInt idx)).off

/-- The base of a source element, from the cache or from the disk. -/
def xlateBase (c : Cache) (idx : ℤ) : Except Stop (UInt64 × Cache) := do
  let base ← cacheFind c idx
  if base = -1 then
    let base := xlateMiss range idx
    let c ← cacheUpdate c idx base
    return (base, c)
  else return (base, c)

/-- `fsl_virt_xlate_rtm`; without a value, `ex_err_unsafe_op` was set. -/
def xlateRtm (inUnsafeOp : Bool) (c : Cache) (bitOff : UInt64) :
    Except Stop (Option UInt64 × Cache) := do
  fslAssert (bitOff % 8 = 0)
  if g.totalBits ≤ bitOff ∧ inUnsafeOp = true then return (none, c)
  fslAssert (bitOff < g.totalBits)
  let (base, c) ← xlateBase range c (toInt (g.index bitOff))
  let off := bitOff % g.srcsz
  fslAssert (base + off ≠ 0)
  return (some (base + off), c)

/-- `fsl_virt_xlate_safe`; `OFFSET_INVALID` for an offset past the end. -/
def xlateSafe (c : Cache) (bitOff : UInt64) : Except Stop (UInt64 × Cache) := do
  let (a, c) ← xlateRtm range g true c bitOff
  return (a.getD (-1), c)

/-- `fsl_virt_xlate`, outside of `fsl_virt_xlate_safe`. -/
def xlate (c : Cache) (bitOff : UInt64) : Except Stop (UInt64 × Cache) := do
  let (a, c) ← xlateRtm range g false c bitOff
  return (a.getD (-1), c)

/-- Translations one after the other; the first failed assertion ends the process. -/
def xlates (c : Cache) : List UInt64 → Except Stop (List UInt64)
  | [] => return []
  | v :: vs => do
    let (a, c) ← xlate range g c v
    let as ← xlates c vs
    return a :: as

end Xlate

/-! ## Indices as `int` -/

/-- The index as it comes back from its `int`. -/
def narrow (i : UInt64) : UInt64 := UInt64.ofInt (toInt i)

/-- An index that survives the `int`, and whose remainder is not negative. -/
def FitsInt (i : UInt64) : Prop :=
  i.toNat < 2 ^ 31 ∨ 2 ^ 64 - 2 ^ 31 ≤ i.toNat ∧ i.toNat % 8 = 0

instance (i : UInt64) : Decidable (FitsInt i) := inferInstanceAs (Decidable (_ ∨ _))

theorem toNat_ofInt (x : ℤ) : (UInt64.ofInt x).toNat = (x % 2 ^ 64).toNat := by
  have hlt : (x % 2 ^ 64).toNat < 2 ^ 64 := by omega
  show (UInt64.ofNat (x % 2 ^ 64).toNat).toNat = _
  rw [UInt64.toNat_ofNat']
  exact Nat.mod_eq_of_lt hlt

theorem tmod_nonneg_iff (x : ℤ) : 0 ≤ x.tmod 8 ↔ 0 ≤ x ∨ x % 8 = 0 := by
  rcases le_or_gt 0 x with hpos | hneg
  · have hmod := Int.tmod_nonneg 8 hpos
    simp [hmod, hpos]
  · have hmod : (-x).tmod 8 = (-x) % 8 := Int.tmod_eq_emod_of_nonneg (by omega)
    rw [Int.neg_tmod] at hmod
    omega

/-- A remainder that is not negative is the one of the 64-bit index. -/
theorem cacheSlot_of_nonneg {idx : ℤ} (h : 0 ≤ idx.tmod 8) :
    cacheSlot idx = .ok (slotOf 8 (UInt64.ofInt idx).toNat) := by
  have hmod : idx.tmod 8 = idx % 8 := by
    rcases (tmod_nonneg_iff idx).mp h with hpos | hzero
    · exact Int.tmod_eq_emod_of_nonneg hpos
    · rw [hzero]
      exact Int.tmod_eq_zero_of_dvd (Int.dvd_of_emod_eq_zero hzero)
  have hval : (idx.tmod 8).toNat % 8 = (UInt64.ofInt idx).toNat % 8 := by
    rw [toNat_ofInt, hmod]
    omega
  rw [cacheSlot, if_pos h]
  congr 1
  exact Fin.ext hval

theorem cacheSlot_of_neg {idx : ℤ} (h : ¬ 0 ≤ idx.tmod 8) : cacheSlot idx = .error .fault :=
  if_neg h

theorem toInt_cases (i : UInt64) :
    i.toNat % 2 ^ 32 < 2 ^ 31 ∧ toInt i = (i.toNat % 2 ^ 32 : ℕ) ∨
      2 ^ 31 ≤ i.toNat % 2 ^ 32 ∧ toInt i = (i.toNat % 2 ^ 32 : ℕ) - 2 ^ 32 := by
  have hnat : i.toUInt32.toBitVec.toNat = i.toNat % 2 ^ 32 := i.toNat_toUInt32
  have hint : toInt i = i.toUInt32.toBitVec.toInt := by
    rw [toInt]
    rfl
  rw [hint, BitVec.toInt_eq_toNat_cond, hnat]
  split
  · left
    omega
  · right
    constructor
    · omega
    · norm_num

theorem fits_cases {n : ℕ} {x : ℤ} (hlt : n < 2 ^ 64)
    (h : n % 2 ^ 32 < 2 ^ 31 ∧ x = (n % 2 ^ 32 : ℕ) ∨
      2 ^ 31 ≤ n % 2 ^ 32 ∧ x = (n % 2 ^ 32 : ℕ) - 2 ^ 32) :
    (n < 2 ^ 31 ∨ 2 ^ 64 - 2 ^ 31 ≤ n ∧ n % 8 = 0) ↔
      (x % 2 ^ 64).toNat = n ∧ (0 ≤ x ∨ x % 8 = 0) := by
  rcases h with ⟨hpos, rfl⟩ | ⟨hneg, rfl⟩
  · omega
  · omega

theorem fitsInt_iff (i : UInt64) : FitsInt i ↔ narrow i = i ∧ 0 ≤ (toInt i).tmod 8 := by
  rw [← UInt64.toNat_inj, narrow, toNat_ofInt, tmod_nonneg_iff]
  exact fits_cases i.toNat_lt (toInt_cases i)

/-! ## The cache -/

section Cache

variable {range : UInt64 → Source} {g : Geom} {c : Cache}

/-- What the cache stands for. -/
def bases (range : UInt64 → Source) (a : ℕ) : UInt64 := (range (UInt64.ofNat a)).off

theorem bases_ofInt (range : UInt64 → Source) (idx : ℤ) : bases range (UInt64.ofInt idx).toNat = xlateMiss range idx := by
  rw [bases, UInt64.ofNat_toNat, xlateMiss]

theorem xlateMiss_toInt (i : UInt64) : xlateMiss range (toInt i) = (range (narrow i)).off := rfl

theorem foreign_initCache (c : Cache) (i : Fin 8) : slotOf 8 (initCache c i).addr ≠ i := by
  intro hi
  have hval : (i.val + 1) % 8 = i.val := congrArg Fin.val hi
  omega

theorem homed_initCache (c : Cache) : Homed (bases range) (initCache c) :=
  homed_of_foreign (foreign_initCache c)

theorem cacheFind_eq {idx : ℤ} (h : 0 ≤ idx.tmod 8) :
    cacheFind c idx = .ok ((find c (UInt64.ofInt idx).toNat).getD (-1)) := by
  rw [cacheFind, cacheSlot_of_nonneg h, find]
  by_cases haddr : (c (slotOf 8 (UInt64.ofInt idx).toNat)).addr = (UInt64.ofInt idx).toNat
  · rw [if_pos haddr]
    exact congrArg Except.ok (if_neg (not_not.mpr haddr))
  · rw [if_neg haddr]
    exact congrArg Except.ok (if_pos haddr)

theorem cacheUpdate_eq {idx : ℤ} (h : 0 ≤ idx.tmod 8) (v : UInt64) :
    cacheUpdate c idx v = .ok (put c (UInt64.ofInt idx).toNat v) := by
  rw [cacheUpdate, cacheSlot_of_nonneg h]
  rfl

/-- The base is the one `it_range` reports, whether or not it was in the cache, if that is what the cache
has for the index. -/
theorem xlateBase_eq {backing : ℕ → UInt64} (hc : Homed backing c) {idx : ℤ} (h : 0 ≤ idx.tmod 8)
    (hbase : backing (UInt64.ofInt idx).toNat = xlateMiss range idx) :
    ∃ c', xlateBase range c idx = .ok (xlateMiss range idx, c') ∧ Homed backing c' := by
  have hput := hc.put (UInt64.ofInt idx).toNat
  rw [hbase] at hput
  simp only [xlateBase, cacheFind_eq h, cacheUpdate_eq h]
  cases hfind : find c (UInt64.ofInt idx).toNat with
  | none => exact ⟨_, rfl, hput⟩
  | some x =>
    have hx := hc.eq_of_find hfind
    rw [hbase] at hx
    subst hx
    by_cases hall : xlateMiss range idx = -1
    · refine ⟨_, ?_, hput⟩
      show (if xlateMiss range idx = -1 then _ else _) = _
      rw [if_pos hall]
      rfl
    · refine ⟨c, ?_, hc⟩
      show (if xlateMiss range idx = -1 then _ else _) = _
      rw [if_neg hall]
      rfl

theorem xlateBase_of_neg {idx : ℤ} (h : ¬ 0 ≤ idx.tmod 8) :
    xlateBase range c idx = .error .fault := by
  rw [xlateBase, cacheFind, cacheSlot_of_neg h]
  rfl

/-- A lookup of a base fills at most one slot. -/
theorem cache_of_xlateBase {idx : ℤ} {base : UInt64} {c' : Cache}
    (h : xlateBase range c idx = .ok (base, c')) : c' = c ∨ ∃ a, c' = put c a (bases range a) := by
  by_cases hslot : 0 ≤ idx.tmod 8
  · simp only [xlateBase, cacheFind_eq hslot, cacheUpdate_eq hslot, bind, Except.bind, pure,
      Except.pure] at h
    split at h
    · cases h
      exact .inr ⟨_, by rw [bases_ofInt]⟩
    · cases h
      exact .inl rfl
  · rw [xlateBase_of_neg hslot] at h
    cases h

/-- A byte-aligned virtual offset. -/
def Geom.Valid (g : Geom) (bitOff : UInt64) : Prop := bitOff % 8 = 0 ∧ bitOff < g.totalBits

/-- The address of a virtual offset whose source element is looked up under some index. -/
def address (range : UInt64 → Source) (g : Geom) (idx bitOff : UInt64) : Except Stop UInt64 := do
  fslAssert ((range idx).off + bitOff % g.srcsz ≠ 0)
  return (range idx).off + bitOff % g.srcsz

/-- What a translation returns, and that it keeps the cache right. -/
theorem xlate_eq {backing : ℕ → UInt64} (hc : Homed backing c) {bitOff : UInt64} (hv : g.Valid bitOff)
    (hbase : backing (narrow (g.index bitOff)).toNat = (range (narrow (g.index bitOff))).off) :
    (¬ 0 ≤ (toInt (g.index bitOff)).tmod 8 ∧ xlate range g c bitOff = .error .fault) ∨
      (0 ≤ (toInt (g.index bitOff)).tmod 8 ∧ ∃ c', Homed backing c' ∧
        xlate range g c bitOff = (address range g (narrow (g.index bitOff)) bitOff).map (·, c')) := by
  obtain ⟨halign, hlt⟩ := hv
  have hpast : ¬ (g.totalBits ≤ bitOff ∧ false = true) := by simp
  have hrtm : xlateRtm range g false c bitOff = (do
      let (base, c) ← xlateBase range c (toInt (g.index bitOff))
      fslAssert (base + bitOff % g.srcsz ≠ 0)
      return (some (base + bitOff % g.srcsz), c)) := by
    simp only [xlateRtm, fslAssert_of halign, if_neg hpast, fslAssert_of hlt, bind, Except.bind]
  by_cases hslot : 0 ≤ (toInt (g.index bitOff)).tmod 8
  · obtain ⟨c', hrun, hc'⟩ := xlateBase_eq hc hslot hbase
    refine Or.inr ⟨hslot, c', hc', ?_⟩
    simp only [xlate, hrtm, hrun, xlateMiss_toInt, address, bind, Except.bind]
    by_cases hzero : (range (narrow (g.index bitOff))).off + bitOff % g.srcsz ≠ 0
    · rw [fslAssert_of hzero]
      rfl
    · rw [fslAssert_of_not hzero]
      rfl
  · refine Or.inl ⟨hslot, ?_⟩
    simp only [xlate, hrtm, xlateBase_of_neg hslot, bind, Except.bind]

/-- One translation: a lookup under the index that comes back from the `int`. -/
def addressInt (range : UInt64 → Source) (g : Geom) (bitOff : UInt64) : Except Stop UInt64 :=
  if 0 ≤ (toInt (g.index bitOff)).tmod 8 then address range g (narrow (g.index bitOff)) bitOff
  else .error .fault

/-- In a run of translations the cache changes nothing. -/
theorem xlates_eq (hc : Homed (bases range) c) {vs : List UInt64} (hvs : ∀ v ∈ vs, g.Valid v) :
    xlates range g c vs = vs.mapM (addressInt range g) := by
  induction vs generalizing c with
  | nil => rfl
  | cons v vs ih =>
    have hrest : ∀ w ∈ vs, g.Valid w := fun w hw => hvs w (List.mem_cons_of_mem v hw)
    rw [List.mapM_cons, xlates]
    rcases xlate_eq hc (hvs v List.mem_cons_self) (bases_ofInt range _) with ⟨hslot, hx⟩ | ⟨hslot, c', hc', hx⟩
    · rw [hx, addressInt, if_neg hslot]
      rfl
    · rw [hx, addressInt, if_pos hslot]
      cases address range g (narrow (g.index v)) v with
      | error e => rfl
      | ok a =>
        show (do
          let as ← xlates range g c' vs
          return a :: as) = _
        rw [ih hc' hrest]
        rfl

end Cache

/-! ## Transparency -/

/-- The addresses that `it_range` gives, without a cache. -/
def direct (range : UInt64 → Source) (g : Geom) (vs : List UInt64) : Except Stop (List UInt64) :=
  vs.mapM fun v => address range g (g.index v) v

theorem mapM_congr {f h : UInt64 → Except Stop UInt64} {vs : List UInt64}
    (heq : ∀ v ∈ vs, f v = h v) : vs.mapM f = vs.mapM h := by
  induction vs with
  | nil => rfl
  | cons v vs ih =>
    rw [List.mapM_cons, List.mapM_cons, heq v List.mem_cons_self,
      ih fun w hw => heq w (List.mem_cons_of_mem v hw)]

theorem mapM_singleton_inj {f h : UInt64 → Except Stop UInt64} {v : UInt64}
    (heq : [v].mapM f = [v].mapM h) : f v = h v := by
  rw [List.mapM_cons, List.mapM_cons] at heq
  cases hf : f v with
  | error e =>
    cases hh : h v with
    | error e' =>
      rw [hf, hh] at heq
      cases heq
      rfl
    | ok b =>
      rw [hf, hh] at heq
      cases heq
  | ok a =>
    cases hh : h v with
    | error e' =>
      rw [hf, hh] at heq
      cases heq
    | ok b =>
      rw [hf, hh] at heq
      cases heq
      rfl

theorem addressInt_of_fits {range : UInt64 → Source} {g : Geom} {bitOff : UInt64}
    (h : FitsInt (g.index bitOff)) :
    addressInt range g bitOff = address range g (g.index bitOff) bitOff := by
  obtain ⟨hnarrow, hslot⟩ := (fitsInt_iff _).mp h
  rw [addressInt, if_pos hslot, hnarrow]

theorem one_add_ne_zero {g : Geom} {bitOff : UInt64} (hv : g.Valid bitOff) :
    1 + bitOff % g.srcsz ≠ 0 := by
  have hpos : 0 < g.srcsz := by
    by_contra hzero
    have hsrcsz : g.srcsz = 0 := by grind
    have hlt := hv.2
    rw [Geom.totalBits, hsrcsz] at hlt
    grind
  have hlt := UInt64.mod_lt bitOff hpos
  intro hone
  have hmax : bitOff % g.srcsz = -1 := by grind
  grind

theorem address_const {g : Geom} {idx bitOff : UInt64} {range : UInt64 → Source}
    (hv : g.Valid bitOff) (hr : (range idx).off = 1) :
    address range g idx bitOff = .ok (1 + bitOff % g.srcsz) := by
  rw [address, hr, fslAssert_of (one_add_ne_zero hv)]
  rfl

/-- An index that does not fit is looked up as another one, or in a slot that is not there. -/
theorem fits_of_addressInt {g : Geom} {bitOff : UInt64} (hv : g.Valid bitOff)
    (h : ∀ range, addressInt range g bitOff = address range g (g.index bitOff) bitOff) :
    FitsInt (g.index bitOff) := by
  rw [fitsInt_iff]
  constructor
  · by_contra hne
    have hother := h fun i => if i = g.index bitOff then ⟨1, false⟩ else ⟨2, false⟩
    rw [address_const hv (by rw [if_pos rfl]), addressInt] at hother
    split at hother
    next =>
      rw [address, if_neg hne] at hother
      by_cases hzero : 2 + bitOff % g.srcsz ≠ 0
      · rw [fslAssert_of hzero] at hother
        have heq : 2 + bitOff % g.srcsz = 1 + bitOff % g.srcsz := Except.ok.inj hother
        grind
      · rw [fslAssert_of_not hzero] at hother
        cases hother
    next => cases hother
  · by_contra hslot
    have hfault := h fun _ => ⟨1, false⟩
    rw [address_const hv rfl, addressInt, if_neg hslot] at hfault
    cases hfault

/-- For all disks and all runs of byte-aligned translations, the cache gives the addresses that are
computed without it, and stays within its slots, exactly if the indices of the source elements fit the
`int` they are passed as. -/
theorem xlates_transparent_iff (g : Geom) :
    (∀ range c vs, (∀ v ∈ vs, g.Valid v) →
        xlates range g (initCache c) vs = direct range g vs) ↔
      ∀ v, g.Valid v → FitsInt (g.index v) := by
  constructor
  · intro h v hv
    apply fits_of_addressInt hv
    intro range
    have hone := h range (fun _ => ⟨0, 0⟩) [v] (by simpa using hv)
    rw [xlates_eq (homed_initCache _) (by simpa using hv), direct] at hone
    exact mapM_singleton_inj hone
  · intro h range c vs hvs
    rw [xlates_eq (homed_initCache c) hvs, direct]
    exact mapM_congr fun v hv => addressInt_of_fits (h v (hvs v hv))

/-- The source element `2 ^ 32` of a mapping is looked up as element 0. -/
theorem xlates_not_transparent :
    let g : Geom := ⟨2 ^ 32, 2 ^ 32, 8⟩
    let range : UInt64 → Source := fun i => ⟨8 * i + 64, false⟩
    g.Valid 0 ∧ xlates range g (initCache fun _ => ⟨0, 0⟩) [0] ≠ direct range g [0] := by
  have hvalid : Geom.Valid ⟨2 ^ 32, 2 ^ 32, 8⟩ 0 := by
    constructor <;> decide
  have hnarrow : narrow (Geom.index ⟨2 ^ 32, 2 ^ 32, 8⟩ 0) = 0 := by
    unfold narrow toInt
    decide
  refine ⟨hvalid, fun heq => ?_⟩
  rw [xlates_eq (homed_initCache _) (by simpa using hvalid), direct] at heq
  have hone := mapM_singleton_inj heq
  rw [addressInt] at hone
  split at hone
  next =>
    rw [hnarrow] at hone
    revert hone
    decide
  next =>
    revert hone
    decide

end Fsl.Virt
