import Fsl.Lib.Walk
import Fsl.Runtime.Disk

/-!
# The elements of a child

A field of typed elements, a points-to range and a virtual type have elements that are followed by
index. Three loops go through them: `read_array_dir` of the FUSE browser, `fsl_readdir_array_fbn` of the
kernel module, and the `stkop_*_next` functions of the deep scan.
-/

namespace Fsl.Children

open Walk

/-- A typed field array of a parent instance. `size` is `tt_size` of the element at an offset, with the
parameters of an index, and `follow` is whether `typeinfo_follow_field_off_idx` returns a type info. -/
structure FieldArray where
  elemcount : UInt64
  fieldbitoff : UInt64
  typesize : UInt64
  fixed : Bool
  size : UInt64 → UInt64 → Except Stop UInt64
  follow : UInt64 → UInt64 → Except Stop Bool

/-- A points-to range; `follow` is whether `typeinfo_follow_pointsto` returns a type info. -/
structure PointsTo where
  itMin : UInt64
  itMax : UInt64
  follow : UInt64 → Except Stop Bool

/-- A virtual type: whether `fsl_virt_alloc` returns a mapping, what `fsl_virt_get_nth` and
`fsl_virt_xlate_safe` return, the size of the disk, and `typeinfo_verify` at a virtual offset. -/
structure Virtual where
  alloc : Except Stop Bool
  getNth : UInt32 → Except Stop UInt64
  xlateSafe : UInt64 → Except Stop UInt64
  bdevBits : UInt64
  verify : UInt64 → Except Stop Bool

/-- `TI_ERR_*` -/
inductive TiErr
  | ok
  | badVirt
  | badIdx
  | badAlloc
  | badVerify
  deriving DecidableEq, Repr

/-! ## Following an element -/

namespace FieldArray

variable (f : FieldArray)

/-- `__computeArrayBits` -/
def computeArrayBits : ℕ → Except Stop UInt64
  | 0 => return 0
  | i + 1 => do
    let bits ← computeArrayBits i
    let sz ← f.size (f.fieldbitoff + bits) (UInt64.ofNat i)
    return bits + sz

/-- `ti_field_off` -/
def tiFieldOff (idx : UInt32) : Except Stop UInt64 := do
  let sz ←
    if 0 < idx ∧ f.fixed = false then f.computeArrayBits idx.toNat
    else if 0 < idx then pure (f.typesize * idx.toUInt64)
    else pure 0
  return sz + f.fieldbitoff

/-- `typeinfo_follow_field_idx` -/
def followIdx (idx : UInt32) : Except Stop Bool := do
  let off ← f.tiFieldOff idx
  f.follow off idx.toUInt64

end FieldArray

/-- `ao_elems_pt`, also `fbn_arr_max` of a points-to range. -/
def PointsTo.elems (p : PointsTo) : UInt64 :=
  if p.itMin = -1 then 0
  else if p.itMax < p.itMin then 0
  else p.itMax - p.itMin + 1

/-- `typeinfo_follow_pointsto` on an index of the directory. -/
def PointsTo.followIdx (p : PointsTo) (idx : UInt32) : Except Stop Bool :=
  p.follow (idx.toUInt64 + p.itMin)

/-- `typeinfo_alloc_virt_idx`: whether there is a type info, and the error code. An offset past the end
of the disk leaves the code at `TI_ERR_OK`. -/
def Virtual.allocVirtIdx (v : Virtual) (idx : UInt32) : Except Stop (Bool × TiErr) := do
  if !(← v.alloc) then return (false, .badVirt)
  let off ← if idx ≠ 0 then v.getNth idx else pure 0
  fslAssert (idx ≠ 0 → off ≠ 0)
  if idx ≠ 0 ∧ (-2 : UInt64) ≤ off then return (false, .badIdx)
  let poff ← v.xlateSafe off
  if ¬ poff < v.bdevBits then return (false, .ok)
  if ¬ off < v.bdevBits then return (false, .badAlloc)
  if !(← v.verify off) then return (false, .badVerify)
  return (true, .ok)

/-! ## The three loops -/

/-- A child with elements. -/
inductive Child
  | field (f : FieldArray)
  | pointsto (p : PointsTo)
  | virt (v : Virtual)

/-- A type info, `NULL` or `TYPEINFO_NOMORE`. -/
inductive Got
  | ti
  | null
  | nomore

/-- `ao_elems_field`, `ao_elems_pt` and `ao_elems_vt` -/
def Child.aoElems : Child → UInt64
  | .field f => f.elemcount
  | .pointsto p => p.elems
  | .virt _ => -1

/-- `ao_get_field`, `ao_get_pt` and `ao_get_vt` -/
def Child.aoGet : Child → UInt32 → Except Stop Got
  | .field f, i => return if ← f.followIdx i then .ti else .null
  | .pointsto p, i =>
    if p.itMin = -1 then return .null else return if ← p.followIdx i then .ti else .null
  | .virt v, i => do
    let (ti, err) ← v.allocVirtIdx i
    return if ti then .ti else if err = .badVerify then .null else .nomore

/-- One round of `read_array_dir`. -/
def Child.readArrayDir (c : Child) (i : UInt32) : Verdict :=
  if i.toUInt64 < c.aoElems then
    match c.aoGet i with
    | .error _ => .stuck
    | .ok .ti => .take
    | .ok .null => .skip
    | .ok .nomore => .last
  else .last

/-- `fbn_arr_max` -/
def Child.arrMax : Child → UInt64
  | .field f => f.elemcount
  | .pointsto p => p.elems
  | .virt _ => -1

/-- `fsl_bridge_idx_into`: whether there is a node, and `*err`, which only a virtual type sets. -/
def Child.idxInto (c : Child) (idx : UInt32) : Except Stop (Bool × TiErr) :=
  if c.arrMax ≤ idx.toUInt64 then return (false, .badIdx)
  else match c with
    | .field f => return (← f.followIdx idx, .ok)
    | .pointsto p => return (← p.followIdx idx, .ok)
    | .virt v => v.allocVirtIdx idx

/-- One round of `fsl_readdir_array_fbn`. -/
def Child.readdirArray (c : Child) (i : UInt32) : Verdict :=
  match c.idxInto i with
  | .error _ => .stuck
  | .ok (true, _) => .take
  | .ok (false, err) => if err ≠ .badVerify then .last else .skip

/-- One round of `stkop_fieldarray_next`, with the index and the offset that it keeps. -/
def FieldArray.scanNext (f : FieldArray) (s : UInt32 × UInt64) : Step UInt32 (UInt32 × UInt64) :=
  if s.1.toUInt64 < f.elemcount then
    match f.follow s.2 s.1.toUInt64 with
    | .error _ => .stuck
    | .ok false => .skip (s.1 + 1, s.2 + f.typesize)
    | .ok true =>
      if s.1.toUInt64 < f.elemcount - 1 then
        match f.size s.2 s.1.toUInt64 with
        | .error _ => .stuck
        | .ok sz => .take s.1 (s.1 + 1, s.2 + sz)
      else .take s.1 (s.1 + 1, s.2)
  else .last

/-- One round of `stkop_pointsto_next`; the index is one of the range. -/
def PointsTo.scanNext (p : PointsTo) (idx : UInt32) : Verdict :=
  if idx.toUInt64 ≤ p.itMax then
    match p.follow idx.toUInt64 with
    | .error _ => .stuck
    | .ok true => .take
    | .ok false => .skip
  else .last

/-- One round of `stkop_virt_next`. -/
def Virtual.scanNext (v : Virtual) (idx : UInt32) : Verdict :=
  match v.allocVirtIdx idx with
  | .error _ => .stuck
  | .ok (true, _) => .take
  | .ok (false, err) => if err = .ok ∨ err = .badVerify then .skip else .last

/-- The deep scan of the child visits the elements at these indices. -/
def Child.Scans : Child → List UInt32 → Prop
  | .field f, l => Lists f.scanNext (0, f.fieldbitoff) l
  | .pointsto p, l =>
    if p.itMin = -1 ∨ p.itMax < p.itMin then l = []
    else ∃ l', Lists (counting p.scanNext) p.itMin.toUInt32 l' ∧
      l = l'.map fun idx => idx - p.itMin.toUInt32
  | .virt v, l => Lists (counting v.scanNext) 0 l

/-- The element at the index can be followed and verified. -/
def Child.Followed : Child → UInt32 → Prop
  | .field f, i => i.toUInt64 < f.elemcount ∧ f.followIdx i = .ok true
  | .pointsto p, i => i.toUInt64 < p.elems ∧ p.followIdx i = .ok true
  | .virt v, i => ∃ err, v.allocVirtIdx i = .ok (true, err)

/-- All three loops end, and list the elements that can be followed. The kernel is called again and
again, with buffers that take some entries each time. -/
structure Child.Alike (c : Child) : Prop where
  fuse : ∃ l, Lists (counting c.readArrayDir) 0 l ∧ ∀ i, i ∈ l ↔ c.Followed i
  kernel : ∀ caps : ℕ → ℕ, ∃ k n l, calls (counting c.readdirArray) k ((List.range n).map caps) 0 =
    some l ∧ ∀ i, i ∈ l ↔ c.Followed i
  scan : ∃ l, c.Scans l ∧ ∀ i, i ∈ l ↔ c.Followed i

/-! ## Elements up to a count -/

/-- However the buffers cut it, the kernel lists what one call without a bound would. -/
theorem kernel_iff {v : UInt32 → Verdict} {G : UInt32 → Prop} :
    (∀ caps : ℕ → ℕ, ∃ k n l, calls (counting v) k ((List.range n).map caps) 0 = some l ∧
      ∀ i, i ∈ l ↔ G i) ↔ ∃ l, Lists (counting v) 0 l ∧ ∀ i, i ∈ l ↔ G i := by
  constructor
  · intro h
    obtain ⟨k, n, l, hl, hG⟩ := h fun _ => 0
    exact ⟨l, lists_of_calls hl, hG⟩
  · rintro ⟨l, ⟨k, hk⟩, hG⟩ caps
    refine ⟨k, l.length + 1, l, calls_of_walk hk ?_, hG⟩
    rw [List.length_map, List.length_range]
    exact Nat.lt_succ_self _

/-- A loop over `n` elements that skips those it cannot follow. -/
def skipping (n : UInt64) (g : UInt32 → Except Stop Bool) (i : UInt32) : Verdict :=
  if i.toUInt64 < n then
    match g i with
    | .error _ => .stuck
    | .ok true => .take
    | .ok false => .skip
  else .last

/-- A loop over `n` elements that ends at the first one it cannot follow. -/
def breaking (n : UInt64) (g : UInt32 → Except Stop Bool) (i : UInt32) : Verdict :=
  if i.toUInt64 < n then
    match g i with
    | .error _ => .stuck
    | .ok true => .take
    | .ok false => .last
  else .last

/-- Of `n` elements, those before the index can be followed and the others cannot. -/
structure Leading (n : UInt64) (g : UInt32 → Except Stop Bool) (m : UInt32) : Prop where
  le : m.toUInt64 ≤ n
  followed : ∀ i < m, g i = .ok true
  rest : ∀ i, m ≤ i → i.toUInt64 < n → g i = .ok false

section Count

variable {n : UInt64} {g : UInt32 → Except Stop Bool}

theorem toUInt64_lt_iff (i : UInt32) (n : UInt64) : i.toUInt64 < n ↔ i.toNat < n.toNat := by
  rw [UInt64.lt_iff_toNat_lt, UInt32.toNat_toUInt64]

theorem skipping_of_lt {i : UInt32} (h : i.toUInt64 < n) {b : Bool} (hg : g i = .ok b) :
    skipping n g i = if b then .take else .skip := by
  rw [skipping, if_pos h, hg]
  cases b <;> rfl

theorem exists_of_skipping {i : UInt32} (h : skipping n g i = .take ∨ skipping n g i = .skip) :
    i.toUInt64 < n ∧ ∃ b, g i = .ok b := by
  unfold skipping at h
  split at h
  next hlt =>
    refine ⟨hlt, ?_⟩
    cases hg : g i with
    | error e =>
      rw [hg] at h
      simp at h
    | ok b => exact ⟨b, rfl⟩
  next => simp at h

theorem skipping_eq_take_iff {i : UInt32} :
    skipping n g i = .take ↔ i.toUInt64 < n ∧ g i = .ok true := by
  constructor
  · intro h
    obtain ⟨hlt, b, hb⟩ := exists_of_skipping (.inl h)
    rw [skipping_of_lt hlt hb] at h
    cases b with
    | true => exact ⟨hlt, hb⟩
    | false => cases h
  · rintro ⟨hlt, hg⟩
    rw [skipping_of_lt hlt hg]
    rfl

theorem skipping_lists_iff :
    (∃ l, Lists (counting (skipping n g)) 0 l ∧ ∀ i, i ∈ l ↔ i.toUInt64 < n ∧ g i = .ok true) ↔
      n.toNat < 2 ^ 32 ∧ ∀ i : UInt32, i.toUInt64 < n → ∃ b, g i = .ok b := by
  rw [lists_counting_iff]
  constructor
  · rintro ⟨m, hlast, hall, -⟩
    have hle : ¬ m.toUInt64 < n := by
      intro hlt
      unfold skipping at hlast
      rw [if_pos hlt] at hlast
      cases hg : g m with
      | error e =>
        rw [hg] at hlast
        cases hlast
      | ok b =>
        rw [hg] at hlast
        cases b <;> cases hlast
    rw [toUInt64_lt_iff] at hle
    have hm := m.toNat_lt
    refine ⟨by omega, fun i hi => (exists_of_skipping (hall i ?_)).2⟩
    rw [toUInt64_lt_iff] at hi
    exact UInt32.lt_iff_toNat_lt.mpr (by omega)
  · rintro ⟨hn, hall⟩
    have htoNat : n.toUInt32.toNat = n.toNat := by
      rw [UInt64.toNat_toUInt32]
      exact Nat.mod_eq_of_lt hn
    have hlt : ∀ i : UInt32, i < n.toUInt32 ↔ i.toUInt64 < n := by
      intro i
      rw [toUInt64_lt_iff, UInt32.lt_iff_toNat_lt, htoNat]
    refine ⟨n.toUInt32, ?_, fun i hi => ?_, fun i => ?_⟩
    · have hnot : ¬ n.toUInt32.toUInt64 < n := by
        rw [← hlt]
        exact UInt32.lt_irrefl _
      rw [skipping, if_neg hnot]
    · obtain ⟨b, hb⟩ := hall i ((hlt i).mp hi)
      rw [skipping_of_lt ((hlt i).mp hi) hb]
      cases b
      · exact .inr rfl
      · exact .inl rfl
    · rw [skipping_eq_take_iff, hlt]
      tauto

theorem breaking_eq_take_iff {i : UInt32} :
    breaking n g i = .take ↔ i.toUInt64 < n ∧ g i = .ok true := by
  unfold breaking
  split
  next hlt =>
    cases hg : g i with
    | error e => simp
    | ok b => cases b <;> simp [hlt]
  next hlt => simp [hlt]

theorem breaking_ne_skip {i : UInt32} : breaking n g i ≠ .skip := by
  unfold breaking
  split
  · split <;> simp
  · simp

theorem breaking_eq_last_iff {i : UInt32} :
    breaking n g i = .last ↔ (i.toUInt64 < n → g i = .ok false) := by
  unfold breaking
  split
  next hlt =>
    cases hg : g i with
    | error e => simp [hlt]
    | ok b => cases b <;> simp [hlt]
  next hlt => simp [hlt]

/-- Both loops list what can be followed exactly if the count fits the index, following stops nowhere,
and what can be followed comes first. -/
theorem skipping_and_breaking_iff :
    ((∃ l, Lists (counting (skipping n g)) 0 l ∧ ∀ i, i ∈ l ↔ i.toUInt64 < n ∧ g i = .ok true) ∧
      ∃ l, Lists (counting (breaking n g)) 0 l ∧ ∀ i, i ∈ l ↔ i.toUInt64 < n ∧ g i = .ok true) ↔
      n.toNat < 2 ^ 32 ∧ ∃ m, Leading n g m := by
  rw [skipping_lists_iff, lists_counting_iff]
  constructor
  · rintro ⟨⟨hn, hok⟩, m, -, hall, hG⟩
    have htake : ∀ i < m, i.toUInt64 < n ∧ g i = .ok true := fun i hi =>
      breaking_eq_take_iff.mp ((hall i hi).resolve_right breaking_ne_skip)
    refine ⟨hn, m, ?_, fun i hi => (htake i hi).2, fun i hi hin => ?_⟩
    · by_contra hlt
      have hnm : n.toNat < m.toNat := by
        rwa [UInt64.not_le, UInt64.lt_iff_toNat_lt, UInt32.toNat_toUInt64] at hlt
      have htoNat : n.toUInt32.toNat = n.toNat := by
        rw [UInt64.toNat_toUInt32]
        exact Nat.mod_eq_of_lt hn
      have hself := (htake n.toUInt32 (UInt32.lt_iff_toNat_lt.mpr (by omega))).1
      rw [toUInt64_lt_iff] at hself
      omega
    · obtain ⟨b, hb⟩ := hok i hin
      cases b with
      | false => exact hb
      | true => exact absurd ((hG i).mp ⟨hin, hb⟩).1 (UInt32.not_lt.mpr hi)
  · rintro ⟨hn, m, hm⟩
    have hin : ∀ i < m, i.toUInt64 < n := by
      intro i hi
      have hle := UInt64.le_iff_toNat_le.mp hm.le
      rw [UInt32.toNat_toUInt64] at hle
      rw [toUInt64_lt_iff]
      exact lt_of_lt_of_le (UInt32.lt_iff_toNat_lt.mp hi) hle
    refine ⟨⟨hn, fun i hi => ?_⟩, m, ?_, fun i hi => ?_, fun i => ?_⟩
    · by_cases him : i < m
      · exact ⟨true, hm.followed i him⟩
      · exact ⟨false, hm.rest i (UInt32.not_lt.mp him) hi⟩
    · exact breaking_eq_last_iff.mpr (hm.rest m m.le_refl)
    · exact .inl (breaking_eq_take_iff.mpr ⟨hin i hi, hm.followed i hi⟩)
    · rw [breaking_eq_take_iff]
      constructor
      · rintro ⟨hi, hg⟩
        refine ⟨?_, hi, hg⟩
        by_contra him
        rw [hm.rest i (UInt32.not_lt.mp him) hi] at hg
        cases hg
      · exact And.right

end Count

theorem readArrayDir_field (f : FieldArray) :
    (Child.field f).readArrayDir = skipping f.elemcount f.followIdx := by
  funext i
  simp only [Child.readArrayDir, Child.aoElems, Child.aoGet, skipping]
  refine if_congr Iff.rfl ?_ rfl
  cases f.followIdx i with
  | error e => rfl
  | ok b => cases b <;> rfl

theorem readdirArray_field (f : FieldArray) :
    (Child.field f).readdirArray = breaking f.elemcount f.followIdx := by
  funext i
  by_cases hlt : i.toUInt64 < f.elemcount
  · have hnot : ¬ (Child.field f).arrMax ≤ i.toUInt64 := UInt64.not_le.mpr hlt
    rw [Child.readdirArray, Child.idxInto, if_neg hnot, breaking, if_pos hlt]
    cases f.followIdx i with
    | error e => rfl
    | ok b => cases b <;> rfl
  · have hle : (Child.field f).arrMax ≤ i.toUInt64 := UInt64.not_lt.mp hlt
    rw [Child.readdirArray, Child.idxInto, if_pos hle, breaking, if_neg hlt]
    rfl

theorem readArrayDir_pointsto (p : PointsTo) :
    (Child.pointsto p).readArrayDir = skipping p.elems p.followIdx := by
  funext i
  by_cases hlt : i.toUInt64 < p.elems
  · have hmin : p.itMin ≠ -1 := by
      intro heq
      rw [PointsTo.elems, if_pos heq] at hlt
      exact UInt64.not_lt_zero hlt
    have hlt' : i.toUInt64 < (Child.pointsto p).aoElems := hlt
    rw [Child.readArrayDir, if_pos hlt', Child.aoGet, if_neg hmin, skipping, if_pos hlt]
    cases p.followIdx i with
    | error e => rfl
    | ok b => cases b <;> rfl
  · have hnot : ¬ i.toUInt64 < (Child.pointsto p).aoElems := hlt
    rw [Child.readArrayDir, if_neg hnot, skipping, if_neg hlt]

theorem readdirArray_pointsto (p : PointsTo) :
    (Child.pointsto p).readdirArray = breaking p.elems p.followIdx := by
  funext i
  by_cases hlt : i.toUInt64 < p.elems
  · have hnot : ¬ (Child.pointsto p).arrMax ≤ i.toUInt64 := UInt64.not_le.mpr hlt
    rw [Child.readdirArray, Child.idxInto, if_neg hnot, breaking, if_pos hlt]
    cases p.followIdx i with
    | error e => rfl
    | ok b => cases b <;> rfl
  · have hle : (Child.pointsto p).arrMax ≤ i.toUInt64 := UInt64.not_lt.mp hlt
    rw [Child.readdirArray, Child.idxInto, if_pos hle, breaking, if_neg hlt]
    rfl

/-! ## The deep scan of a points-to range -/

theorem scanNext_of_le {p : PointsTo} {idx : UInt32} (h : idx.toUInt64 ≤ p.itMax) {b : Bool}
    (hf : p.follow idx.toUInt64 = .ok b) : p.scanNext idx = if b then .take else .skip := by
  rw [PointsTo.scanNext, if_pos h, hf]
  cases b <;> rfl

/-- An index of the range that fits an index of the scan. -/
theorem followIdx_sub {p : PointsTo} {idx : UInt32} (hmin : p.itMin.toNat < 2 ^ 32)
    (hle : p.itMin.toNat ≤ idx.toNat) :
    p.followIdx (idx - p.itMin.toUInt32) = p.follow idx.toUInt64 := by
  rw [PointsTo.followIdx]
  congr 1
  refine UInt64.toNat_inj.mp ?_
  have hsub : (idx - p.itMin.toUInt32).toNat = idx.toNat - p.itMin.toNat := by
    have hm : p.itMin.toUInt32.toNat = p.itMin.toNat := by
      rw [UInt64.toNat_toUInt32]
      exact Nat.mod_eq_of_lt hmin
    rw [UInt32.toNat_sub_of_le _ _ (UInt32.le_iff_toNat_le.mpr (by omega)), hm]
  rw [UInt64.toNat_add, UInt32.toNat_toUInt64, UInt32.toNat_toUInt64, hsub]
  have hidx := idx.toNat_lt
  omega

theorem toNat_elems {p : PointsTo} (hr : ¬ (p.itMin = -1 ∨ p.itMax < p.itMin))
    (hmax : p.itMax.toNat < 2 ^ 32 - 1) :
    p.elems.toNat = p.itMax.toNat - p.itMin.toNat + 1 := by
  rw [PointsTo.elems, if_neg (not_or.mp hr).1, if_neg (not_or.mp hr).2, UInt64.toNat_add,
    UInt64.toNat_sub_of_le _ _ (UInt64.not_lt.mp (not_or.mp hr).2)]
  exact Nat.mod_eq_of_lt (by simp; omega)

/-- Where every element of the range can be tried, the deep scan ends exactly if its index passes the
end of the range. -/
theorem scans_pointsto_iff {p : PointsTo} (hr : ¬ (p.itMin = -1 ∨ p.itMax < p.itMin))
    (hok : ∀ i : UInt32, i.toUInt64 < p.elems → ∃ b, p.followIdx i = .ok b) :
    (∃ l, (Child.pointsto p).Scans l ∧ ∀ i, i ∈ l ↔ (Child.pointsto p).Followed i) ↔
      p.itMax.toNat < 2 ^ 32 - 1 := by
  have hle : p.itMin.toNat ≤ p.itMax.toNat :=
    UInt64.le_iff_toNat_le.mp (UInt64.not_lt.mp (not_or.mp hr).2)
  constructor
  · rintro ⟨l, hl, -⟩
    rw [Child.Scans, if_neg hr] at hl
    obtain ⟨l', ⟨k, hk⟩, -⟩ := hl
    rw [← UInt32.ofNat_toNat (x := p.itMin.toUInt32)] at hk
    obtain ⟨m, -, hlast, -⟩ := exists_last_of_walk hk
    unfold PointsTo.scanNext at hlast
    split at hlast
    next => split at hlast <;> cases hlast
    next hgt =>
      rw [UInt64.not_le, UInt64.lt_iff_toNat_lt, UInt32.toNat_toUInt64] at hgt
      have hm := (UInt32.ofNat m).toNat_lt
      omega
  · intro hmax
    have hmin32 : p.itMin.toUInt32.toNat = p.itMin.toNat := by
      rw [UInt64.toNat_toUInt32]
      exact Nat.mod_eq_of_lt (by omega)
    have helems := toNat_elems hr hmax
    have hm : (UInt32.ofNat (p.itMax.toNat + 1)).toNat = p.itMax.toNat + 1 := by
      rw [UInt32.toNat_ofNat']
      exact Nat.mod_eq_of_lt (by omega)
    have hin : ∀ idx : UInt32, p.itMin.toNat ≤ idx.toNat → idx.toNat ≤ p.itMax.toNat →
        ∃ b, p.follow idx.toUInt64 = .ok b ∧ p.scanNext idx = if b then .take else .skip := by
      intro idx hlo hhi
      have hsub : (idx - p.itMin.toUInt32).toUInt64 < p.elems := by
        rw [toUInt64_lt_iff, helems,
          UInt32.toNat_sub_of_le _ _ (UInt32.le_iff_toNat_le.mpr (by omega))]
        omega
      obtain ⟨b, hb⟩ := hok _ hsub
      rw [followIdx_sub (by omega) hlo] at hb
      have hle64 : idx.toUInt64 ≤ p.itMax := by
        rwa [UInt64.le_iff_toNat_le, UInt32.toNat_toUInt64]
      exact ⟨b, hb, scanNext_of_le hle64 hb⟩
    have hlast : p.scanNext (UInt32.ofNat (p.itMax.toNat + 1)) = .last := by
      have hgt : ¬ (UInt32.ofNat (p.itMax.toNat + 1)).toUInt64 ≤ p.itMax := by
        rw [UInt64.le_iff_toNat_le, UInt32.toNat_toUInt64, hm]
        omega
      rw [PointsTo.scanNext, if_neg hgt]
    obtain ⟨l, hl, hmem⟩ := lists_of_counting (i := p.itMin.toUInt32) hlast
      (UInt32.le_iff_toNat_le.mpr (by omega)) fun j hlo hhi => by
        rw [UInt32.le_iff_toNat_le] at hlo
        rw [UInt32.lt_iff_toNat_lt] at hhi
        obtain ⟨b, -, hb⟩ := hin j (by omega) (by omega)
        rw [hb]
        cases b
        · exact .inr rfl
        · exact .inl rfl
    refine ⟨l.map fun idx => idx - p.itMin.toUInt32, ?_, fun i => ?_⟩
    · rw [Child.Scans, if_neg hr]
      exact ⟨l, hl, rfl⟩
    · rw [List.mem_map]
      constructor
      · rintro ⟨idx, hidx, rfl⟩
        obtain ⟨hlo, hhi, htake⟩ := (hmem idx).mp hidx
        rw [UInt32.le_iff_toNat_le] at hlo
        rw [UInt32.lt_iff_toNat_lt] at hhi
        obtain ⟨b, hb, hscan⟩ := hin idx (by omega) (by omega)
        rw [hscan] at htake
        cases b with
        | false => cases htake
        | true =>
          refine ⟨?_, (followIdx_sub (by omega) (by omega)).trans hb⟩
          rw [toUInt64_lt_iff, helems,
            UInt32.toNat_sub_of_le _ _ (UInt32.le_iff_toNat_le.mpr (by omega))]
          omega
      · rintro ⟨hlt, hg⟩
        rw [toUInt64_lt_iff, helems] at hlt
        have hadd : (i + p.itMin.toUInt32).toNat = i.toNat + p.itMin.toNat := by
          rw [UInt32.toNat_add, hmin32]
          exact Nat.mod_eq_of_lt (by omega)
        refine ⟨i + p.itMin.toUInt32, (hmem _).mpr ⟨?_, ?_, ?_⟩, UInt32.add_sub_cancel _ _⟩
        · exact UInt32.le_iff_toNat_le.mpr (by omega)
        · exact UInt32.lt_iff_toNat_lt.mpr (by omega)
        · obtain ⟨b, hb, hscan⟩ := hin (i + p.itMin.toUInt32) (by omega) (by omega)
          rw [← followIdx_sub (by omega) (by omega), UInt32.add_sub_cancel, hg] at hb
          cases hb
          exact hscan

/-! ## The deep scan of a field array -/

namespace FieldArray

variable (f : FieldArray)

/-- Follow the element that comes after the sizes of all the elements before it. -/
def followRun (i : UInt32) : Except Stop Bool := do
  let bits ← f.computeArrayBits i.toNat
  f.follow (f.fieldbitoff + bits) i.toUInt64

/-- Follow an element from another one on, with the size of the field's type for the elements between
them. -/
def followPast (m i : UInt32) : Except Stop Bool := do
  let bits ← f.computeArrayBits m.toNat
  f.follow (f.fieldbitoff + bits + (i - m).toUInt64 * f.typesize) i.toUInt64

variable {f}

theorem computeArrayBits_next {i : UInt32} {bits : UInt64}
    (h : f.computeArrayBits i.toNat = .ok bits) (hi : (i + 1).toNat = i.toNat + 1) :
    f.computeArrayBits (i + 1).toNat =
      (f.size (f.fieldbitoff + bits) i.toUInt64).map fun sz => bits + sz := by
  have hcast : UInt64.ofNat i.toNat = i.toUInt64 := by
    refine UInt64.toNat_inj.mp ?_
    rw [UInt64.toNat_ofNat', UInt32.toNat_toUInt64]
    have := i.toNat_lt
    omega
  rw [hi, computeArrayBits, h, hcast]
  show (f.size (f.fieldbitoff + bits) i.toUInt64 >>= fun sz => Except.ok (bits + sz)) = _
  cases f.size (f.fieldbitoff + bits) i.toUInt64 <;> rfl

theorem scanNext_of_not {i : UInt32} {off : UInt64} (h : ¬ i.toUInt64 < f.elemcount) :
    f.scanNext (i, off) = .last := if_neg h

theorem scanNext_of_lt {i : UInt32} {off : UInt64} (h : i.toUInt64 < f.elemcount) :
    f.scanNext (i, off) =
      match f.follow off i.toUInt64 with
      | .error _ => .stuck
      | .ok false => .skip (i + 1, off + f.typesize)
      | .ok true =>
        if i.toUInt64 < f.elemcount - 1 then
          match f.size off i.toUInt64 with
          | .error _ => .stuck
          | .ok sz => .take i (i + 1, off + sz)
        else .take i (i + 1, off) := if_pos h

/-- A scan that takes an element goes on with the next index. -/
theorem scanNext_cases {i : UInt32} (off : UInt64) (h : i.toUInt64 < f.elemcount) :
    f.scanNext (i, off) = .stuck ∨ f.scanNext (i, off) = .skip (i + 1, off + f.typesize) ∨
      ∃ off', f.scanNext (i, off) = .take i (i + 1, off') := by
  rw [scanNext_of_lt h]
  cases f.follow off i.toUInt64 with
  | error e => exact .inl rfl
  | ok b =>
    cases b with
    | false => exact .inr (.inl rfl)
    | true =>
      dsimp only
      split
      · cases f.size off i.toUInt64 with
        | error e => exact .inl rfl
        | ok sz => exact .inr (.inr ⟨_, rfl⟩)
      · exact .inr (.inr ⟨_, rfl⟩)

/-- The index only grows. -/
theorem le_of_mem_scan (hn : f.elemcount.toNat < 2 ^ 32) {i : UInt32} {off : UInt64}
    {l : List UInt32} (h : Lists f.scanNext (i, off) l) {j : UInt32} (hj : j ∈ l) :
    i.toNat ≤ j.toNat := by
  obtain ⟨k, hk⟩ := h
  induction k generalizing i off l with
  | zero => cases hk
  | succ k ih =>
    rw [walk] at hk
    by_cases hlt : i.toUInt64 < f.elemcount
    · have hnext : (i + 1).toNat = i.toNat + 1 := by
        rw [toUInt64_lt_iff] at hlt
        rw [UInt32.toNat_add]
        exact Nat.mod_eq_of_lt (by simp; omega)
      rcases scanNext_cases off hlt with hs | hs | ⟨off', hs⟩
      · rw [hs] at hk
        cases hk
      · rw [hs] at hk
        have := ih hj hk
        omega
      · rw [hs] at hk
        obtain ⟨l', hl', rfl⟩ := Option.map_eq_some_iff.mp hk
        rcases List.mem_cons.mp hj with rfl | hj'
        · exact le_rfl
        · have := ih hj' hl'
          omega
    · rw [scanNext_of_not hlt] at hk
      cases hk
      cases hj

/-- A scan that takes nothing more. -/
theorem lists_nil_iff (hn : f.elemcount.toNat < 2 ^ 32) {i : UInt32} {off : UInt64}
    (hi : i.toNat ≤ f.elemcount.toNat) :
    Lists f.scanNext (i, off) [] ↔ ∀ j : UInt32, i ≤ j → j.toUInt64 < f.elemcount →
      f.follow (off + (j - i).toUInt64 * f.typesize) j.toUInt64 = .ok false := by
  generalize hd : f.elemcount.toNat - i.toNat = d
  induction d generalizing i off with
  | zero =>
    have hnot : ¬ i.toUInt64 < f.elemcount := by
      rw [toUInt64_lt_iff]
      omega
    rw [lists_last_iff (scanNext_of_not hnot)]
    refine ⟨fun _ j hij hj => ?_, fun _ => rfl⟩
    rw [toUInt64_lt_iff] at hj
    rw [UInt32.le_iff_toNat_le] at hij
    omega
  | succ d ih =>
    have hlt : i.toUInt64 < f.elemcount := by
      rw [toUInt64_lt_iff]
      omega
    have hnext : (i + 1).toNat = i.toNat + 1 := by
      rw [UInt32.toNat_add]
      exact Nat.mod_eq_of_lt (by simp; omega)
    have hself : off + (i - i).toUInt64 * f.typesize = off := by simp
    cases hf : f.follow off i.toUInt64 with
    | error e =>
      have hs : f.scanNext (i, off) = .stuck := by rw [scanNext_of_lt hlt, hf]
      refine iff_of_false (not_lists_of_stuck hs) fun h => ?_
      have hi' := h i i.le_refl hlt
      rw [hself, hf] at hi'
      cases hi'
    | ok b =>
      cases b with
      | true =>
        refine iff_of_false (fun h => ?_) fun h => ?_
        · rcases scanNext_cases off hlt with hs | hs | ⟨off', hs⟩
          · exact not_lists_of_stuck hs h
          · rw [scanNext_of_lt hlt, hf] at hs
            dsimp only at hs
            split at hs
            · split at hs <;> cases hs
            · cases hs
          · obtain ⟨l', hl', -⟩ := (lists_take_iff hs).mp h
            cases hl'
        · have hi' := h i i.le_refl hlt
          rw [hself, hf] at hi'
          cases hi'
      | false =>
        have hs : f.scanNext (i, off) = .skip (i + 1, off + f.typesize) := by
          rw [scanNext_of_lt hlt, hf]
        rw [lists_skip_iff hs, ih (by omega) (by omega)]
        have hshift : ∀ j : UInt32, i + 1 ≤ j → off + f.typesize +
            (j - (i + 1)).toUInt64 * f.typesize = off + (j - i).toUInt64 * f.typesize := by
          intro j hj
          rw [UInt32.le_iff_toNat_le] at hj
          have hsub : (j - i).toUInt64 = (j - (i + 1)).toUInt64 + 1 := by
            refine UInt64.toNat_inj.mp ?_
            have hj' := j.toNat_lt
            rw [UInt64.toNat_add, UInt32.toNat_toUInt64, UInt32.toNat_toUInt64,
              UInt32.toNat_sub_of_le _ _ (UInt32.le_iff_toNat_le.mpr (by omega)),
              UInt32.toNat_sub_of_le _ _ (UInt32.le_iff_toNat_le.mpr (by omega)), UInt64.toNat_one]
            omega
          rw [hsub]
          grind
        constructor
        · intro h j hij hj
          by_cases heq : i = j
          · subst heq
            rw [hself, hf]
          · have hne : i.toNat ≠ j.toNat := fun h => heq (UInt32.toNat_inj.mp h)
            have hij' : i + 1 ≤ j := by
              rw [UInt32.le_iff_toNat_le] at hij ⊢
              omega
            rw [← hshift j hij']
            exact h j hij' hj
        · intro h j hij hj
          rw [hshift j hij]
          refine h j ?_ hj
          rw [UInt32.le_iff_toNat_le] at hij ⊢
          omega

/-- What the scan does with an element it can follow. -/
theorem scanNext_of_followed {i : UInt32} {off : UInt64} (h : i.toUInt64 < f.elemcount)
    (hf : f.follow off i.toUInt64 = .ok true) :
    f.scanNext (i, off) =
      if i.toUInt64 < f.elemcount - 1 then
        match f.size off i.toUInt64 with
        | .error _ => .stuck
        | .ok sz => .take i (i + 1, off + sz)
      else .take i (i + 1, off) := by
  rw [scanNext_of_lt h, hf]

/-- A scan that takes an element lists the elements from there on exactly if it lists those after it
from the next state. -/
theorem lists_from_iff (hn : f.elemcount.toNat < 2 ^ 32) {i m : UInt32} {off off' : UInt64}
    (him : i < m) (hnext : (i + 1).toNat = i.toNat + 1)
    (hs : f.scanNext (i, off) = .take i (i + 1, off')) :
    (∃ l, Lists f.scanNext (i, off) l ∧ ∀ j, j ∈ l ↔ i ≤ j ∧ j < m) ↔
      ∃ l, Lists f.scanNext (i + 1, off') l ∧ ∀ j, j ∈ l ↔ i + 1 ≤ j ∧ j < m := by
  have hsplit : ∀ j : UInt32, (j = i ∨ i + 1 ≤ j ∧ j < m) ↔ i ≤ j ∧ j < m := by
    intro j
    rw [UInt32.le_iff_toNat_le, UInt32.le_iff_toNat_le, UInt32.lt_iff_toNat_lt, hnext,
      ← UInt32.toNat_inj]
    rw [UInt32.lt_iff_toNat_lt] at him
    omega
  constructor
  · rintro ⟨l, hl, hmem⟩
    obtain ⟨l', rfl, hl'⟩ := (lists_take_iff hs).mp hl
    refine ⟨l', hl', fun j => ?_⟩
    have hj := (hmem j).trans (hsplit j).symm
    rw [List.mem_cons] at hj
    constructor
    · intro hmem'
      have hge := le_of_mem_scan hn hl' hmem'
      refine (hj.mp (.inr hmem')).resolve_left ?_
      rintro rfl
      omega
    · intro hrange
      refine (hj.mpr (.inr hrange)).resolve_left ?_
      rintro rfl
      have hle := UInt32.le_iff_toNat_le.mp hrange.1
      omega
  · rintro ⟨l, hl, hmem⟩
    refine ⟨i :: l, (lists_take_iff hs).mpr ⟨l, rfl, hl⟩, fun j => ?_⟩
    rw [List.mem_cons, hmem, hsplit]

theorem exists_lists_nil_iff {i m : UInt32} {off : UInt64} (h : ¬ i < m) :
    (∃ l, Lists f.scanNext (i, off) l ∧ ∀ j, j ∈ l ↔ i ≤ j ∧ j < m) ↔
      Lists f.scanNext (i, off) [] := by
  have hnone : ∀ j : UInt32, ¬ (i ≤ j ∧ j < m) := fun j hj =>
    h (UInt32.lt_of_le_of_lt hj.1 hj.2)
  constructor
  · rintro ⟨l, hl, hmem⟩
    have hnil : l = [] := List.eq_nil_iff_forall_not_mem.mpr fun j hj => hnone j ((hmem j).mp hj)
    rwa [hnil] at hl
  · intro hl
    exact ⟨[], hl, fun j => by simp [hnone j]⟩

/-- The scan from an index on, whose offset is that of the element after all those before it. -/
theorem lists_scan_iff (hn : f.elemcount.toNat < 2 ^ 32) {i m : UInt32} {off : UInt64}
    (him : i ≤ m) (hm : m.toNat ≤ f.elemcount.toNat)
    (hoff : i.toUInt64 < f.elemcount →
      ∃ bits, f.computeArrayBits i.toNat = .ok bits ∧ off = f.fieldbitoff + bits) :
    (∃ l, Lists f.scanNext (i, off) l ∧ ∀ j, j ∈ l ↔ i ≤ j ∧ j < m) ↔
      (∀ j, i ≤ j → j < m → f.followRun j = .ok true) ∧
        ∀ j, m ≤ j → j.toUInt64 < f.elemcount → f.followPast m j = .ok false := by
  rw [UInt32.le_iff_toNat_le] at him
  generalize hd : m.toNat - i.toNat = d
  induction d generalizing i off with
  | zero =>
    have heq : i = m := UInt32.toNat_inj.mp (by omega)
    subst heq
    rw [exists_lists_nil_iff (UInt32.lt_irrefl i), lists_nil_iff hn hm]
    have hrun : ∀ j : UInt32, i ≤ j → j < i → f.followRun j = .ok true := fun j hij hji =>
      absurd (UInt32.lt_of_le_of_lt hij hji) (UInt32.lt_irrefl i)
    rw [and_iff_right hrun]
    refine forall_congr' fun j => imp_congr_right fun hij => imp_congr_right fun hj => ?_
    have hi : i.toUInt64 < f.elemcount := by
      rw [toUInt64_lt_iff] at hj ⊢
      exact lt_of_le_of_lt (UInt32.le_iff_toNat_le.mp hij) hj
    obtain ⟨bits, hbits, rfl⟩ := hoff hi
    rw [followPast, hbits]
    rfl
  | succ d ih =>
    have hlt : i.toUInt64 < f.elemcount := by
      rw [toUInt64_lt_iff]
      omega
    have him' : i < m := UInt32.lt_iff_toNat_lt.mpr (by omega)
    have hnext : (i + 1).toNat = i.toNat + 1 := toNat_succ_of_lt him'
    obtain ⟨bits, hbits, rfl⟩ := hoff hlt
    have hrun : f.followRun i = f.follow (f.fieldbitoff + bits) i.toUInt64 := by
      rw [followRun, hbits]
      rfl
    cases hf : f.follow (f.fieldbitoff + bits) i.toUInt64 with
    | error e =>
      have hs : f.scanNext (i, f.fieldbitoff + bits) = .stuck := by rw [scanNext_of_lt hlt, hf]
      refine iff_of_false (fun ⟨l, hl, _⟩ => not_lists_of_stuck hs hl) fun h => ?_
      have hi := h.1 i i.le_refl him'
      rw [hrun, hf] at hi
      cases hi
    | ok b =>
      cases b with
      | false =>
        have hs : f.scanNext (i, f.fieldbitoff + bits) =
            .skip (i + 1, f.fieldbitoff + bits + f.typesize) := by rw [scanNext_of_lt hlt, hf]
        refine iff_of_false (fun ⟨l, hl, hmem⟩ => ?_) fun h => ?_
        · have hge := le_of_mem_scan hn ((lists_skip_iff hs).mp hl)
            ((hmem i).mpr ⟨i.le_refl, him'⟩)
          omega
        · have hi := h.1 i i.le_refl him'
          rw [hrun, hf] at hi
          cases hi
      | true =>
        rw [hf] at hrun
        have hrest : (∀ j, i ≤ j → j < m → f.followRun j = .ok true) ↔
            ∀ j, i + 1 ≤ j → j < m → f.followRun j = .ok true := by
          constructor
          · intro h j hij
            refine h j ?_
            rw [UInt32.le_iff_toNat_le] at hij ⊢
            omega
          · intro h j hij hjm
            by_cases heq : i = j
            · subst heq
              exact hrun
            · have hne : i.toNat ≠ j.toNat := fun h => heq (UInt32.toNat_inj.mp h)
              refine h j ?_ hjm
              rw [UInt32.le_iff_toNat_le] at hij ⊢
              omega
        have hpred : (f.elemcount - 1).toNat = f.elemcount.toNat - 1 := by
          have hone : (1 : UInt64) ≤ f.elemcount := by
            rw [toUInt64_lt_iff] at hlt
            rw [UInt64.le_iff_toNat_le, UInt64.toNat_one]
            omega
          rw [UInt64.toNat_sub_of_le _ _ hone, UInt64.toNat_one]
        rw [hrest]
        by_cases hlast : i.toUInt64 < f.elemcount - 1
        · have hin : (i + 1).toUInt64 < f.elemcount := by
            rw [toUInt64_lt_iff, hpred] at hlast
            rw [toUInt64_lt_iff]
            omega
          have hcompute := computeArrayBits_next hbits hnext
          cases hsz : f.size (f.fieldbitoff + bits) i.toUInt64 with
          | error e =>
            rw [hsz] at hcompute
            have hs : f.scanNext (i, f.fieldbitoff + bits) = .stuck := by
              rw [scanNext_of_followed hlt hf, if_pos hlast, hsz]
            refine iff_of_false (fun ⟨l, hl, _⟩ => not_lists_of_stuck hs hl) fun h => ?_
            by_cases hnm : i + 1 < m
            · have hi := h.1 (i + 1) (i + 1).le_refl hnm
              rw [followRun, hcompute] at hi
              cases hi
            · have heq : i + 1 = m := by
                rw [UInt32.lt_iff_toNat_lt] at hnm
                exact UInt32.toNat_inj.mp (by omega)
              have hi := h.2 m m.le_refl (heq ▸ hin)
              rw [followPast, ← heq, hcompute] at hi
              cases hi
          | ok sz =>
            rw [hsz] at hcompute
            have hs : f.scanNext (i, f.fieldbitoff + bits) =
                .take i (i + 1, f.fieldbitoff + bits + sz) := by
              rw [scanNext_of_followed hlt hf, if_pos hlast, hsz]
            rw [lists_from_iff hn him' hnext hs]
            exact ih (by omega) (fun _ => ⟨bits + sz, hcompute, UInt64.add_assoc _ _ _⟩) (by omega)
        · have hs : f.scanNext (i, f.fieldbitoff + bits) =
              .take i (i + 1, f.fieldbitoff + bits) := by
            rw [scanNext_of_followed hlt hf, if_neg hlast]
          rw [lists_from_iff hn him' hnext hs]
          refine ih (by omega) (fun hin => ?_) (by omega)
          rw [toUInt64_lt_iff, hpred] at hlast
          rw [toUInt64_lt_iff] at hin
          omega

end FieldArray

/-! ## Virtual types -/

namespace Virtual

variable {v : Virtual} {i : UInt32}

/-- One round of `read_array_dir` or `fsl_readdir_array_fbn` on a virtual type. -/
def listNext (v : Virtual) (i : UInt32) : Verdict :=
  match v.allocVirtIdx i with
  | .error _ => .stuck
  | .ok (true, _) => .take
  | .ok (false, err) => if err ≠ .badVerify then .last else .skip

theorem readArrayDir_virt (v : Virtual) : (Child.virt v).readArrayDir = v.listNext := by
  funext i
  have hlt : i.toUInt64 < (Child.virt v).aoElems := by
    rw [toUInt64_lt_iff]
    exact lt_trans i.toNat_lt (show 2 ^ 32 < (-1 : UInt64).toNat by decide)
  rw [Child.readArrayDir, if_pos hlt, Child.aoGet, listNext]
  cases v.allocVirtIdx i with
  | error e => rfl
  | ok r =>
    obtain ⟨b, err⟩ := r
    cases b
    · cases err <;> rfl
    · rfl

theorem readdirArray_virt (v : Virtual) : (Child.virt v).readdirArray = v.listNext := by
  funext i
  have hnot : ¬ (Child.virt v).arrMax ≤ i.toUInt64 := by
    rw [UInt64.not_le, toUInt64_lt_iff]
    exact lt_trans i.toNat_lt (show 2 ^ 32 < (-1 : UInt64).toNat by decide)
  rw [Child.readdirArray, Child.idxInto, if_neg hnot]
  rfl

theorem listNext_eq_take_iff : v.listNext i = .take ↔ ∃ err, v.allocVirtIdx i = .ok (true, err) := by
  unfold listNext
  cases v.allocVirtIdx i with
  | error e => simp
  | ok r =>
    obtain ⟨b, err⟩ := r
    cases b
    · cases err <;> simp
    · simp

theorem listNext_eq_skip_iff : v.listNext i = .skip ↔ v.allocVirtIdx i = .ok (false, .badVerify) := by
  unfold listNext
  cases v.allocVirtIdx i with
  | error e => simp
  | ok r =>
    obtain ⟨b, err⟩ := r
    cases b
    · cases err <;> simp
    · simp

theorem listNext_eq_last_iff :
    v.listNext i = .last ↔ ∃ err, v.allocVirtIdx i = .ok (false, err) ∧ err ≠ .badVerify := by
  unfold listNext
  cases v.allocVirtIdx i with
  | error e => simp
  | ok r =>
    obtain ⟨b, err⟩ := r
    cases b
    · cases err <;> simp
    · simp

theorem scanNext_eq_take_iff : v.scanNext i = .take ↔ ∃ err, v.allocVirtIdx i = .ok (true, err) := by
  unfold scanNext
  cases v.allocVirtIdx i with
  | error e => simp
  | ok r =>
    obtain ⟨b, err⟩ := r
    cases b
    · cases err <;> simp
    · simp

theorem scanNext_eq_skip_iff : v.scanNext i = .skip ↔
    v.allocVirtIdx i = .ok (false, .ok) ∨ v.allocVirtIdx i = .ok (false, .badVerify) := by
  unfold scanNext
  cases v.allocVirtIdx i with
  | error e => simp
  | ok r =>
    obtain ⟨b, err⟩ := r
    cases b
    · cases err <;> simp
    · simp

theorem scanNext_eq_last_iff : v.scanNext i = .last ↔
    ∃ err, v.allocVirtIdx i = .ok (false, err) ∧ err ≠ .ok ∧ err ≠ .badVerify := by
  unfold scanNext
  cases v.allocVirtIdx i with
  | error e => simp
  | ok r =>
    obtain ⟨b, err⟩ := r
    cases b
    · cases err <;> simp
    · simp

/-- Before the first index, elements can be followed or fail to verify. The element there fails in
another way. From there on, up to an index whose error is final, elements are past the end of the disk
or fail to verify, and nothing can be followed after it. -/
structure Leading (v : Virtual) (m last : UInt32) : Prop where
  le : m ≤ last
  before : ∀ i < m, (∃ err, v.allocVirtIdx i = .ok (true, err)) ∨
    v.allocVirtIdx i = .ok (false, .badVerify)
  first : ∃ err, v.allocVirtIdx m = .ok (false, err) ∧ err ≠ .badVerify
  between : ∀ i, m ≤ i → i < last → v.allocVirtIdx i = .ok (false, .ok) ∨
    v.allocVirtIdx i = .ok (false, .badVerify)
  final : ∃ err, v.allocVirtIdx last = .ok (false, err) ∧ err ≠ .ok ∧ err ≠ .badVerify
  rest : ∀ i, last < i → ∀ err, v.allocVirtIdx i ≠ .ok (true, err)

theorem lists_iff_leading :
    ((∃ l, Lists (counting v.listNext) 0 l ∧ ∀ i, i ∈ l ↔ (Child.virt v).Followed i) ∧
      ∃ l, Lists (counting v.scanNext) 0 l ∧ ∀ i, i ∈ l ↔ (Child.virt v).Followed i) ↔
      ∃ m last, v.Leading m last := by
  rw [lists_counting_iff, lists_counting_iff]
  simp only [listNext_eq_take_iff, listNext_eq_skip_iff, listNext_eq_last_iff, scanNext_eq_take_iff,
    scanNext_eq_skip_iff, scanNext_eq_last_iff]
  constructor
  · rintro ⟨⟨m, hfirst, hbefore, hG⟩, last, hfinal, hscan, -⟩
    have hle : m ≤ last := by
      by_contra hlt
      obtain ⟨err, herr, -, hne⟩ := hfinal
      rcases hbefore last (UInt32.not_le.mp hlt) with ⟨err', h⟩ | h
      · rw [herr] at h
        cases h
      · rw [herr] at h
        cases h
        exact hne rfl
    refine ⟨m, last, hle, hbefore, hfirst, fun i hmi hil => ?_, hfinal, fun i hi err h => ?_⟩
    · refine (hscan i hil).resolve_left fun htake => ?_
      exact absurd ((hG i).mp htake).1 (UInt32.not_lt.mpr hmi)
    · have him := ((hG i).mp ⟨err, h⟩).1
      exact absurd (UInt32.lt_trans hi him) (UInt32.not_lt.mpr hle)
  · rintro ⟨m, last, h⟩
    have hG : ∀ i, (Child.virt v).Followed i → i < m := by
      rintro i ⟨err, hi⟩
      by_contra him
      have hmi := UInt32.not_lt.mp him
      rcases UInt32.lt_or_eq_of_le (UInt32.not_lt.mp fun hlt => h.rest i hlt err hi) with hlt | rfl
      · rcases h.between i hmi hlt with h' | h' <;> rw [hi] at h' <;> cases h'
      · obtain ⟨err', h', -⟩ := h.final
        rw [hi] at h'
        cases h'
    refine ⟨⟨m, h.first, h.before, fun i => ⟨fun hi => ⟨hG i hi, hi⟩, And.right⟩⟩, last, h.final,
      fun i hi => ?_, fun i => ⟨fun hi => ⟨UInt32.lt_of_lt_of_le (hG i hi) h.le, hi⟩, And.right⟩⟩
    by_cases him : i < m
    · rcases h.before i him with h' | h'
      · exact .inl h'
      · exact .inr (.inr h')
    · exact .inr (h.between i (UInt32.not_lt.mp him) hi)

end Virtual

/-! ## All three together -/

/-- The elements that can be followed come first. In a field array the deep scan, which adds up the
sizes, must find the same elements; its index must pass the end of a points-to range. -/
def Child.Orderly : Child → Prop
  | .field f => f.elemcount.toNat < 2 ^ 32 ∧ ∃ m, Leading f.elemcount f.followIdx m ∧
      (∀ i < m, f.followRun i = .ok true) ∧
      ∀ i, m ≤ i → i.toUInt64 < f.elemcount → f.followPast m i = .ok false
  | .pointsto p => (p.itMin = -1 ∨ p.itMax < p.itMin) ∨
      p.itMax.toNat < 2 ^ 32 - 1 ∧ ∃ m, Leading p.elems p.followIdx m
  | .virt v => ∃ m last, v.Leading m last

theorem alike_iff_lists {c : Child} : c.Alike ↔
    (∃ l, Lists (counting c.readArrayDir) 0 l ∧ ∀ i, i ∈ l ↔ c.Followed i) ∧
      (∃ l, Lists (counting c.readdirArray) 0 l ∧ ∀ i, i ∈ l ↔ c.Followed i) ∧
      ∃ l, c.Scans l ∧ ∀ i, i ∈ l ↔ c.Followed i := by
  constructor
  · rintro ⟨hfuse, hkernel, hscan⟩
    exact ⟨hfuse, kernel_iff.mp hkernel, hscan⟩
  · rintro ⟨hfuse, hkernel, hscan⟩
    exact ⟨hfuse, kernel_iff.mpr hkernel, hscan⟩

theorem Leading.lt_iff {n : UInt64} {g : UInt32 → Except Stop Bool} {m i : UInt32}
    (h : Leading n g m) : i < m ↔ i.toUInt64 < n ∧ g i = .ok true := by
  have hle := UInt64.le_iff_toNat_le.mp h.le
  rw [UInt32.toNat_toUInt64] at hle
  constructor
  · intro hi
    refine ⟨?_, h.followed i hi⟩
    rw [toUInt64_lt_iff]
    exact lt_of_lt_of_le (UInt32.lt_iff_toNat_lt.mp hi) hle
  · rintro ⟨hi, hg⟩
    by_contra him
    rw [h.rest i (UInt32.not_lt.mp him) hi] at hg
    cases hg

theorem field_alike_iff (f : FieldArray) : (Child.field f).Alike ↔ (Child.field f).Orderly := by
  have hscan : ∀ {m}, f.elemcount.toNat < 2 ^ 32 → Leading f.elemcount f.followIdx m →
      ((∃ l, (Child.field f).Scans l ∧ ∀ i, i ∈ l ↔ (Child.field f).Followed i) ↔
        (∀ i < m, f.followRun i = .ok true) ∧
          ∀ i, m ≤ i → i.toUInt64 < f.elemcount → f.followPast m i = .ok false) := by
    intro m hn hm
    have hle := UInt64.le_iff_toNat_le.mp hm.le
    rw [UInt32.toNat_toUInt64] at hle
    have hiff := FieldArray.lists_scan_iff hn m.zero_le hle
      fun _ => ⟨0, rfl, (UInt64.add_zero f.fieldbitoff).symm⟩
    simpa [Child.Scans, Child.Followed, hm.lt_iff] using hiff
  rw [alike_iff_lists, readArrayDir_field, readdirArray_field, ← and_assoc]
  refine (and_congr_left' skipping_and_breaking_iff).trans ?_
  constructor
  · rintro ⟨⟨hn, m, hm⟩, hs⟩
    exact ⟨hn, m, hm, (hscan hn hm).mp hs⟩
  · rintro ⟨hn, m, hm, hs⟩
    exact ⟨⟨hn, m, hm⟩, (hscan hn hm).mpr hs⟩

theorem pointsto_alike_iff (p : PointsTo) :
    (Child.pointsto p).Alike ↔ (Child.pointsto p).Orderly := by
  rw [alike_iff_lists, readArrayDir_pointsto, readdirArray_pointsto, ← and_assoc]
  refine (and_congr_left' skipping_and_breaking_iff).trans ?_
  by_cases hr : p.itMin = -1 ∨ p.itMax < p.itMin
  · have hzero : p.elems = 0 := by
      unfold PointsTo.elems
      rcases hr with heq | hlt
      · rw [if_pos heq]
      · rw [if_pos hlt, ite_self]
    have hnone : ∀ i : UInt32, ¬ i.toUInt64 < p.elems := by
      intro i
      rw [hzero]
      exact UInt64.not_lt_zero
    refine iff_of_true ⟨⟨by rw [hzero]; decide, 0, ?_⟩, [], ?_, fun i => ?_⟩ (.inl hr)
    · exact ⟨UInt64.zero_le, fun i hi => absurd hi UInt32.not_lt_zero, fun i _ hi => absurd hi (hnone i)⟩
    · rw [Child.Scans, if_pos hr]
    · simp [Child.Followed, hnone i]
  · have hok : ∀ {m}, Leading p.elems p.followIdx m →
        ∀ i : UInt32, i.toUInt64 < p.elems → ∃ b, p.followIdx i = .ok b := by
      intro m hm i hi
      by_cases him : i < m
      · exact ⟨true, hm.followed i him⟩
      · exact ⟨false, hm.rest i (UInt32.not_lt.mp him) hi⟩
    constructor
    · rintro ⟨⟨-, m, hm⟩, hs⟩
      exact .inr ⟨(scans_pointsto_iff hr (hok hm)).mp hs, m, hm⟩
    · intro h
      obtain ⟨hmax, m, hm⟩ := h.resolve_left hr
      refine ⟨⟨?_, m, hm⟩, (scans_pointsto_iff hr (hok hm)).mpr hmax⟩
      rw [toNat_elems hr hmax]
      omega

/-- The three loops list the elements that can be followed exactly if those come first. -/
theorem alike_iff (c : Child) : c.Alike ↔ c.Orderly := by
  cases c with
  | field f => exact field_alike_iff f
  | pointsto p => exact pointsto_alike_iff p
  | virt v =>
    rw [alike_iff_lists, Virtual.readArrayDir_virt, Virtual.readdirArray_virt, Child.Orderly,
      ← Virtual.lists_iff_leading]
    exact ⟨fun h => h.2, fun h => ⟨h.1, h⟩⟩

/-- Three elements of one byte, the second of which does not verify. -/
def badSecond : FieldArray :=
  ⟨3, 0, 8, true, fun _ _ => .ok 8, fun off _ => .ok (decide (off ≠ 8))⟩

/-- The kernel does not list the third one. -/
theorem not_alike_badSecond : ¬ (Child.field badSecond).Alike := by
  rw [field_alike_iff]
  rintro ⟨-, m, hm, -⟩
  have h1 : ¬ (1 : UInt32) < m := fun h => by
    have := (hm.lt_iff.mp h).2
    exact absurd this (by decide)
  have h2 : (2 : UInt32) < m := hm.lt_iff.mpr ⟨by decide, by decide⟩
  exact h1 (UInt32.lt_trans (by decide) h2)

end Fsl.Children
