import Fsl.Compiler.FromBase

/-!
# The size of an array

`__computeArrayBits` adds up the sizes of the elements. `ti_field_size` decides by the flags of a
table entry whether to call it or to multiply, and `ThunkField::copyNumBits` decides by the thunk
itself. The loop counts with 32 bits, and to multiply is to take every element for the first one.
-/

namespace Fsl.Layout

/-! ## Two ways to decide -/

/-- `ThunkFieldSize::isConstant`: the field has no type. -/
def Size.isConstant : Size → Bool
  | .raw _ => true
  | _ => false

/-- `Type::isUnion` of the type of a field. -/
def Size.isUnion : Size → Bool
  | .union _ => true
  | _ => false

/-- What `ThunkField::genFieldEntry` writes into `tf_typenum` and `tf_flags`. -/
structure FieldEntry where
  typed : Bool
  constSize : Bool
  fixed : Bool

/-- `ThunkField::genFieldEntry` -/
def ThunkField.genFieldEntry (tf : ThunkField) : FieldEntry :=
  ⟨!tf.size.isConstant, tf.size.isConstant, tf.fixed⟩

/-- `ti_field_size`: the size of the field, and the number of its elements. -/
def tiFieldSize (c : Calls) (tf : ThunkField) : Option (UInt64 × UInt64) :=
  (c.thunk .elems tf.name).bind fun num =>
    if num > 1 ∧ tf.genFieldEntry.typed = true ∧
        (tf.genFieldEntry.constSize = false ∧ tf.genFieldEntry.fixed = false) then
      (c.arrayBits tf.name num).map fun sz => (sz, num)
    else (c.thunk .size tf.name).map fun sz => (sz * num, num)

/-! ## The sizes of the elements -/

/-- The sizes of `k` elements, of which element `i` is at `off` and each is behind the one before. -/
def sizesFrom (elemSize : ℕ → UInt64 → Option UInt64) : ℕ → ℕ → UInt64 → Option (List UInt64)
  | 0, _, _ => some []
  | k + 1, i, off =>
    (elemSize i off).bind fun s => (sizesFrom elemSize k (i + 1) (off + s)).map (s :: ·)

section Sizes

variable (typesize : String → Clo → Option UInt64) (unionsize : ℕ → String → Clo → Option UInt64)
variable (d : Disk) (clo : Clo)

/-- The sizes of the first `num` elements of a field; element `i` gets the parameters for `i`. -/
def ThunkField.elemSizes (n : ℕ) (c : Calls) (tf : ThunkField) (num : UInt64) :
    Option (List UInt64) :=
  (tf.size.ttSize typesize unionsize n).bind fun size =>
    (firstElem d clo c tf).bind fun first =>
      sizesFrom (fun i off => (evalParams c d clo (UInt64.ofNat i) tf.params).bind fun ps =>
        size ⟨off, ps⟩) num.toNat 0 first.offset

end Sizes

section Agree

variable (typesize : String → Clo → Option UInt64) (us : List (String × ThunkType)) (d : Disk)
variable (t : ThunkType) (clo : Clo)

/-- The first `num` elements have these sizes. -/
def HasSizes (tf : ThunkField) (num : UInt64) (sizes : List UInt64) : Prop :=
  ∃ n, tf.elemSizes typesize (unionSize typesize d us) d clo n
    (calls typesize (unionSize typesize d us) d t clo n) num = some sizes

/-- `__computeArrayBits` returns the sum of the sizes. If `num` is the number of elements of the field,
so do `ti_field_size` and the expression of `copyNumBits`. -/
structure SizesAgree (tf : ThunkField) (num : UInt64) (sizes : List UInt64) : Prop where
  computed : Returns typesize us d t clo (.arrayBits tf.name (.num num)) sizes.sum
  table : Returns typesize us d t clo (.thunk .elems tf.name) num →
    ∃ n, tiFieldSize (calls typesize (unionSize typesize d us) d t clo n) tf = some (sizes.sum, num)
  compiled : Returns typesize us d t clo (.thunk .elems tf.name) num →
    Returns typesize us d t clo tf.copyNumBits sizes.sum

/-- The number of elements fits the counter. If it is that of the field: without any element there
still is a size where the first one would be; and in a fixed array or in a union what the elements
are longer and shorter than the first one adds up to nothing. -/
structure SizesExact (tf : ThunkField) (num : UInt64) (sizes : List UInt64) : Prop where
  counted : num.toNat < 2 ^ 32
  empty : Returns typesize us d t clo (.thunk .elems tf.name) num → num = 0 →
    ∃ s, Returns typesize us d t clo (.thunk .size tf.name) s
  fixed : Returns typesize us d t clo (.thunk .elems tf.name) num →
    tf.fixed = true ∨ tf.size.isUnion = true →
      ∀ s ∈ sizes.head?, (sizes.map (· - s)).sum = 0

end Agree

theorem elemBits_eq (g : ℕ → UInt64 → Option UInt64) (k i : ℕ) (off : UInt64) :
    elemBits g k i off = (sizesFrom g k i off).map List.sum := by
  induction k generalizing i off with
  | zero => rfl
  | succ k ih =>
    rw [elemBits, sizesFrom]
    cases g i off with
    | none => rfl
    | some s =>
      rw [Option.bind_some, Option.bind_some, ih, Option.map_map, Option.map_map]
      apply congrArg fun f => Option.map f _
      funext l
      exact List.sum_cons.symm

theorem sizesFrom_const (s : UInt64) (k i : ℕ) (off : UInt64) :
    sizesFrom (fun _ _ => some s) k i off = some (List.replicate k s) := by
  induction k generalizing i off with
  | zero => rfl
  | succ k ih =>
    rw [sizesFrom, Option.bind_some, ih]
    rfl

theorem length_sizesFrom {g : ℕ → UInt64 → Option UInt64} {k i : ℕ} {off : UInt64}
    {sizes : List UInt64} (h : sizesFrom g k i off = some sizes) : sizes.length = k := by
  induction k generalizing i off sizes with
  | zero =>
    cases h
    rfl
  | succ k ih =>
    obtain ⟨s, -, h⟩ := Option.bind_eq_some_iff.mp h
    obtain ⟨l, hl, rfl⟩ := Option.map_eq_some_iff.mp h
    rw [List.length_cons, ih hl]

theorem sum_map_sub (sizes : List UInt64) (s : UInt64) :
    (sizes.map (· - s)).sum = sizes.sum - s * UInt64.ofNat sizes.length := by
  induction sizes with
  | nil => simp
  | cons a l ih =>
    rw [List.map_cons, List.sum_cons, ih, List.sum_cons, List.length_cons, UInt64.ofNat_add]
    grind

section Fields

variable {typesize : String → Clo → Option UInt64} {us : List (String × ThunkType)} {d : Disk}
variable {t : ThunkType} {clo : Clo} {tf : ThunkField} {num : UInt64} {sizes : List UInt64}

theorem calls_le_of_le {n m : ℕ} (h : n ≤ m) :
    (calls typesize (unionSize typesize d us) d t clo n).Le
      (calls typesize (unionSize typesize d us) d t clo m) := by
  induction h with
  | refl => exact ⟨id, id⟩
  | @step m _ ih =>
    have hstep : (calls typesize (unionSize typesize d us) d t clo m).Le
        (calls typesize (unionSize typesize d us) d t clo (m + 1)) :=
      calls_le (stable_unionSize typesize d us) m
    exact ⟨fun hv => hstep.thunk (ih.thunk hv), fun hv => hstep.arrayBits (ih.arrayBits hv)⟩

theorem tiFieldSize_mono {c c' : Calls} (h : c.Le c') {p : UInt64 × UInt64}
    (hp : tiFieldSize c tf = some p) : tiFieldSize c' tf = some p := by
  obtain ⟨k, hk, hp⟩ := Option.bind_eq_some_iff.mp hp
  refine Option.bind_eq_some_iff.mpr ⟨k, h.thunk hk, ?_⟩
  split at hp
  case isTrue hcase =>
    obtain ⟨sz, hsz, rfl⟩ := Option.map_eq_some_iff.mp hp
    rw [if_pos hcase, h.arrayBits hsz]
    rfl
  case isFalse hcase =>
    obtain ⟨sz, hsz, rfl⟩ := Option.map_eq_some_iff.mp hp
    rw [if_neg hcase, h.thunk hsz]
    rfl

theorem firstElem_params {c : Calls} {first : Clo} (h : firstElem d clo c tf = some first) :
    evalParams c d clo (UInt64.ofNat 0) tf.params = some first.params := by
  obtain ⟨off, -, h⟩ := Option.bind_eq_some_iff.mp h
  obtain ⟨ps, hps, rfl⟩ := Option.map_eq_some_iff.mp h
  exact hps

/-- `ti_field_size` with enough calls nested. -/
theorem tiFieldSize_iff (p : UInt64 × UInt64) :
    (∃ n, tiFieldSize (calls typesize (unionSize typesize d us) d t clo n) tf = some p) ↔
      tiFieldSize (result typesize (unionSize typesize d us) d t clo) tf = some p := by
  have hle : ∀ n, (calls typesize (unionSize typesize d us) d t clo n).Le
      (calls typesize (unionSize typesize d us) d t clo (n + 1)) :=
    calls_le (stable_unionSize typesize d us)
  constructor
  · rintro ⟨n, h⟩
    exact tiFieldSize_mono (le_limCalls hle n) h
  · intro h
    obtain ⟨k, hk, h⟩ := Option.bind_eq_some_iff.mp h
    obtain ⟨n₁, hn₁⟩ := (returns_iff (.thunk .elems tf.name) k).mpr hk
    split at h
    case isTrue hcase =>
      obtain ⟨sz, hsz, rfl⟩ := Option.map_eq_some_iff.mp h
      obtain ⟨n₂, hn₂⟩ := (returns_iff (.arrayBits tf.name (.num k)) sz).mpr hsz
      have h₁ := (calls_le_of_le (le_max_left n₁ n₂)).thunk hn₁
      have h₂ := (calls_le_of_le (le_max_right n₁ n₂)).arrayBits hn₂
      refine ⟨max n₁ n₂, Option.bind_eq_some_iff.mpr ⟨k, h₁, ?_⟩⟩
      rw [if_pos hcase, h₂]
      rfl
    case isFalse hcase =>
      obtain ⟨sz, hsz, rfl⟩ := Option.map_eq_some_iff.mp h
      obtain ⟨n₂, hn₂⟩ := (returns_iff (.thunk .size tf.name) sz).mpr hsz
      have h₁ := (calls_le_of_le (le_max_left n₁ n₂)).thunk hn₁
      have h₂ := (calls_le_of_le (le_max_right n₁ n₂)).thunk hn₂
      refine ⟨max n₁ n₂, Option.bind_eq_some_iff.mpr ⟨k, h₁, ?_⟩⟩
      rw [if_neg hcase, h₂]
      rfl

variable (hf : t.find tf.name = some tf)

include hf

/-- The size of the field is that of its first element. -/
theorem HasSizes.first (h : HasSizes typesize us d t clo tf num sizes) {s : UInt64}
    (hs : s ∈ sizes.head?) : Returns typesize us d t clo (.thunk .size tf.name) s := by
  obtain ⟨n, h⟩ := h
  obtain ⟨size, hsize, h⟩ := Option.bind_eq_some_iff.mp h
  obtain ⟨first, hfirst, h⟩ := Option.bind_eq_some_iff.mp h
  have hlen := length_sizesFrom h
  -- there is a first element
  obtain ⟨k, hk⟩ : ∃ k, num.toNat = k + 1 := by
    apply Nat.exists_eq_succ_of_ne_zero
    intro hzero
    rw [List.eq_nil_of_length_eq_zero (hlen.trans hzero)] at hs
    cases hs
  rw [hk, sizesFrom, firstElem_params hfirst, Option.bind_some] at h
  obtain ⟨s', hs', h⟩ := Option.bind_eq_some_iff.mp h
  obtain ⟨l, -, rfl⟩ := Option.map_eq_some_iff.mp h
  cases hs
  refine ⟨n + 1, ?_⟩
  show (t.find tf.name).bind _ = _
  rw [hf, Option.bind_some]
  cases htf : tf.size with
  | raw e =>
    rw [htf] at hsize
    cases hsize
  | user ty =>
    rw [htf] at hsize
    cases hsize
    exact Option.bind_eq_some_iff.mpr ⟨first, hfirst, hs'⟩
  | union u =>
    rw [htf] at hsize
    cases hsize
    exact Option.bind_eq_some_iff.mpr ⟨first, hfirst, hs'⟩

/-- The loop ends and has added up the sizes, if its counter gets to the number of elements. -/
theorem HasSizes.computed (h : HasSizes typesize us d t clo tf num sizes)
    (hnum : num.toNat < 2 ^ 32) :
    Returns typesize us d t clo (.arrayBits tf.name (.num num)) sizes.sum := by
  obtain ⟨n, h⟩ := h
  obtain ⟨size, hsize, h⟩ := Option.bind_eq_some_iff.mp h
  obtain ⟨first, hfirst, h⟩ := Option.bind_eq_some_iff.mp h
  have hloop : arrayLoop size (fun i => evalParams (calls typesize (unionSize typesize d us) d t clo n)
      d clo i tf.params) num (num.toNat + 1) (UInt32.ofNat 0) first 0 = some (0 + sizes.sum) := by
    refine arrayLoop_elemBits hnum (Nat.zero_add _) (fun _ => firstElem_params hfirst) ?_
    rw [elemBits_eq, h]
    rfl
  rw [UInt64.zero_add] at hloop
  -- the same with calls nested as deep as the loop turns
  have hle : (calls typesize (unionSize typesize d us) d t clo n).Le
      (calls typesize (unionSize typesize d us) d t clo (max n (num.toNat + 1))) :=
    calls_le_of_le (le_max_left _ _)
  refine ⟨max n (num.toNat + 1) + 1, ?_⟩
  show (t.find tf.name).bind _ = _
  rw [hf, Option.bind_some]
  obtain ⟨size', hsize', hsub⟩ := Size.ttSize_mono (fun hv =>
    (stable_unionSize typesize d us _ _).le (le_max_left n (num.toNat + 1)) hv) hsize
  refine Option.bind_eq_some_iff.mpr ⟨size', hsize', Option.bind_eq_some_iff.mpr
    ⟨first, firstElem_mono hle hfirst, (stable_arrayLoop _ _ _ _).le (le_max_right _ _) ?_⟩⟩
  exact arrayLoop_mono hsub (fun i ps hps => evalParams_mono hle hps) hloop

theorem counted_of_computed {v : UInt64}
    (h : Returns typesize us d t clo (.arrayBits tf.name (.num num)) v) : num.toNat < 2 ^ 32 := by
  by_contra hnum
  obtain ⟨n, h⟩ := h
  cases n with
  | zero => cases h
  | succ n =>
    change (t.find tf.name).bind _ = _ at h
    rw [hf, Option.bind_some] at h
    obtain ⟨size, -, h⟩ := Option.bind_eq_some_iff.mp h
    obtain ⟨first, -, h⟩ := Option.bind_eq_some_iff.mp h
    rw [arrayLoop_of_le (not_lt.mp hnum)] at h
    cases h

theorem num_eq_one (hone : tf.isSingleton = true)
    (h : Returns typesize us d t clo (.thunk .elems tf.name) num) : num = 1 := by
  have hval := (returns_iff _ _).mp h
  change (result _ _ _ _ _).thunk .elems tf.name = _ at hval
  rw [result_elems (stable_unionSize typesize d us) hf] at hval
  rw [ThunkField.isSingleton] at hone
  cases helems : tf.elems with
  | num n =>
    simp only [helems, beq_iff_eq] at hone
    rw [helems, hone] at hval
    exact (Option.some.inj hval).symm
  | _ => simp [helems] at hone

omit hf in
theorem HasSizes.length (h : HasSizes typesize us d t clo tf num sizes) :
    sizes.length = num.toNat := by
  obtain ⟨n, h⟩ := h
  obtain ⟨size, -, h⟩ := Option.bind_eq_some_iff.mp h
  obtain ⟨first, -, h⟩ := Option.bind_eq_some_iff.mp h
  exact length_sizesFrom h

omit hf in
/-- What elements are longer and shorter than one of size `s` is what their sum differs from the
product. -/
theorem HasSizes.sum_eq_iff (h : HasSizes typesize us d t clo tf num sizes) (s : UInt64) :
    (sizes.map (· - s)).sum = 0 ↔ s * num = sizes.sum := by
  rw [sum_map_sub, h.length, UInt64.ofNat_toNat]
  constructor
  · intro hzero
    grind
  · intro heq
    rw [heq, UInt64.sub_self]

omit hf in
/-- There is nothing to be wrong about in an array of at most one element. -/
theorem HasSizes.sum_eq_of_le (h : HasSizes typesize us d t clo tf num sizes) (hle : num ≤ 1) {s : UInt64}
    (hs : s ∈ sizes.head?) : s * num = sizes.sum := by
  rw [← h.sum_eq_iff]
  have hlen : sizes.length ≤ 1 := by
    rw [h.length]
    exact UInt64.le_iff_toNat_le.mp hle
  cases sizes with
  | nil => rfl
  | cons a l =>
    cases hs
    rw [List.eq_nil_of_length_eq_zero (Nat.le_zero.mp (Nat.le_of_succ_le_succ hlen))]
    simp

/-- The product of the size and the number of elements. -/
theorem HasSizes.product (h : HasSizes typesize us d t clo tf num sizes)
    (hempty : num = 0 → ∃ s, Returns typesize us d t clo (.thunk .size tf.name) s)
    (hprod : ∀ s ∈ sizes.head?, s * num = sizes.sum) :
    ∃ s, Returns typesize us d t clo (.thunk .size tf.name) s ∧ s * num = sizes.sum := by
  have hlen := h.length
  cases sizes with
  | nil =>
    have hzero : num = 0 := UInt64.toNat_inj.mp hlen.symm
    obtain ⟨s, hs⟩ := hempty hzero
    exact ⟨s, hs, by rw [hzero, UInt64.mul_zero]; rfl⟩
  | cons a l => exact ⟨a, h.first hf rfl, hprod a rfl⟩

omit hf in
/-- `ti_field_size` multiplies, unless there are two elements and none of the flags is set. -/
theorem table_iff (htyped : tf.size.isConstant = false)
    (hown : Returns typesize us d t clo (.thunk .elems tf.name) num) (total : UInt64) :
    (∃ n, tiFieldSize (calls typesize (unionSize typesize d us) d t clo n) tf = some (total, num)) ↔
      if 1 < num ∧ tf.fixed = false then
        Returns typesize us d t clo (.arrayBits tf.name (.num num)) total
      else ∃ s, Returns typesize us d t clo (.thunk .size tf.name) s ∧ s * num = total := by
  have helems := (returns_iff _ _).mp hown
  change (result _ _ _ _ _).thunk .elems tf.name = _ at helems
  have hcase : (num > 1 ∧ tf.genFieldEntry.typed = true ∧
      (tf.genFieldEntry.constSize = false ∧ tf.genFieldEntry.fixed = false)) ↔
        1 < num ∧ tf.fixed = false := by
    simp [ThunkField.genFieldEntry, htyped]
  rw [tiFieldSize_iff, tiFieldSize, helems, Option.bind_some, if_congr hcase rfl rfl]
  split
  · rw [returns_iff]
    show _ ↔ (result typesize (unionSize typesize d us) d t clo).arrayBits tf.name num = some total
    cases (result typesize (unionSize typesize d us) d t clo).arrayBits tf.name num <;> simp
  · simp only [returns_iff]
    show _ ↔ ∃ s, (result typesize (unionSize typesize d us) d t clo).thunk .size tf.name = some s ∧ _
    cases (result typesize (unionSize typesize d us) d t clo).thunk .size tf.name <;> simp

omit hf in
/-- A product in the layout functions. -/
theorem returns_mul_iff (hown : Returns typesize us d t clo (.thunk .elems tf.name) num)
    (total : UInt64) :
    Returns typesize us d t clo (.mul (.thunk .size tf.name) (.thunk .elems tf.name)) total ↔
      ∃ s, Returns typesize us d t clo (.thunk .size tf.name) s ∧ s * num = total := by
  have helems := (returns_iff _ _).mp hown
  change (result _ _ _ _ _).thunk .elems tf.name = _ at helems
  simp only [returns_iff, Expr.eval, helems, Option.map_some, Option.bind_eq_some_iff,
    Option.some.injEq]

/-- `copyNumBits` multiplies for a fixed array and for a union; for one element it takes its size. -/
theorem compiled_iff (htyped : tf.size.isConstant = false)
    (hown : Returns typesize us d t clo (.thunk .elems tf.name) num) (total : UInt64) :
    Returns typesize us d t clo tf.copyNumBits total ↔
      if tf.isSingleton = false ∧ tf.fixed = false ∧ tf.size.isUnion = false then
        Returns typesize us d t clo (.arrayBits tf.name (.num num)) total
      else ∃ s, Returns typesize us d t clo (.thunk .size tf.name) s ∧ s * num = total := by
  have helems := (returns_iff _ _).mp hown
  change (result _ _ _ _ _).thunk .elems tf.name = _ at helems
  rw [ThunkField.copyNumBits]
  cases hone : tf.isSingleton with
  | true =>
    have h1 : num = 1 := num_eq_one hf hone hown
    simp [h1]
  | false =>
    cases hsize : tf.size with
    | raw e =>
      rw [hsize] at htyped
      cases htyped
    | union u =>
      simpa [Size.isUnion] using returns_mul_iff hown total
    | user ty =>
      cases hfixed : tf.fixed with
      | true => simpa using returns_mul_iff hown total
      | false =>
        simp [Size.isUnion, returns_iff, Expr.eval, helems]

/-- The three sizes of an array. -/
theorem sizesAgree_iff (htyped : tf.size.isConstant = false)
    (hsizes : HasSizes typesize us d t clo tf num sizes) :
    SizesAgree typesize us d t clo tf num sizes ↔ SizesExact typesize us d t clo tf num sizes := by
  constructor
  · intro h
    refine ⟨counted_of_computed hf h.computed, fun hown hzero => ?_, fun hown hfixed s hs => ?_⟩
    · have htable := (table_iff htyped hown _).mp (h.table hown)
      have hcase : ¬ (1 < num ∧ tf.fixed = false) := fun h => absurd h.1 (by rw [hzero]; decide)
      rw [if_neg hcase] at htable
      obtain ⟨s, hs, -⟩ := htable
      exact ⟨s, hs⟩
    · rw [hsizes.sum_eq_iff]
      obtain ⟨s', hs', hsum⟩ : ∃ s, Returns typesize us d t clo (.thunk .size tf.name) s ∧
          s * num = sizes.sum := by
        rcases hfixed with hfixed | hunion
        · have htable := (table_iff htyped hown _).mp (h.table hown)
          rwa [if_neg (by simp [hfixed])] at htable
        · have hcompiled := (compiled_iff hf htyped hown _).mp (h.compiled hown)
          rwa [if_neg (by simp [hunion])] at hcompiled
      rw [(hsizes.first hf hs).unique hs']
      exact hsum
  · intro h
    have hcomputed := hsizes.computed hf h.counted
    refine ⟨hcomputed, fun hown => ?_, fun hown => ?_⟩
    · rw [table_iff htyped hown]
      split
      case isTrue => exact hcomputed
      case isFalse hcase =>
        apply hsizes.product hf (h.empty hown)
        intro s hs
        by_cases hle : 1 < num
        · have hfixed : tf.fixed = true := by simpa [hle] using hcase
          exact (hsizes.sum_eq_iff s).mp (h.fixed hown (Or.inl hfixed) s hs)
        · exact hsizes.sum_eq_of_le (UInt64.not_lt.mp hle) hs
    · rw [compiled_iff hf htyped hown]
      split
      case isTrue => exact hcomputed
      case isFalse hcase =>
        apply hsizes.product hf (h.empty hown)
        intro s hs
        cases hone : tf.isSingleton with
        | true =>
          have h1 : num = 1 := num_eq_one hf hone hown
          exact hsizes.sum_eq_of_le (UInt64.le_of_eq h1) hs
        | false =>
          have hfixed : tf.fixed = true ∨ tf.size.isUnion = true := by
            rw [hone] at hcase
            by_contra hnot
            exact hcase ⟨rfl, by simpa [not_or] using hnot⟩
          exact (hsizes.sum_eq_iff s).mp (h.fixed hown hfixed s hs)

end Fields

/-- The field of an array of `n` elements at the beginning of a type. -/
def arrayField (n : UInt64) (fixed : Bool) : ThunkField :=
  (Builder.init 0).declField ⟨"a", .user "e", [], some (.num n), fixed⟩

/-- A type that is an array. -/
def arrayType (n : UInt64) (fixed : Bool) : ThunkType :=
  ⟨[baseField, arrayField n fixed], .sub (arrayField n fixed).copyNextOffset .argOff⟩

/-- Elements of which the first has 8 bits and all others 16. -/
def shortFirst (_ : String) (clo : Clo) : Option UInt64 := some (if clo.offset = 0 then 8 else 16)

/-- The number of elements of the array. -/
theorem returns_elems (typesize : String → Clo → Option UInt64) (d : Disk) (n : UInt64) (fixed : Bool) :
    Returns typesize [] d (arrayType n fixed) ⟨0, []⟩ (.thunk .elems (arrayField n fixed).name) n :=
  ⟨1, rfl⟩

/-- An array of bytes. -/
theorem hasSizes_bytes (d : Disk) (n : UInt64) :
    HasSizes (fun _ _ => some 8) [] d (arrayType n false) ⟨0, []⟩ (arrayField n false) n
      (List.replicate n.toNat 8) :=
  ⟨3, sizesFrom_const 8 n.toNat 0 0⟩

/-- Three elements that have no common size. -/
theorem sizesAgree_three :
    SizesAgree shortFirst [] (Disk.ofFn 64 (fun _ => 0) (by norm_num)) (arrayType 3 false) ⟨0, []⟩
      (arrayField 3 false) 3 [8, 16, 16] := by
  have hsizes : HasSizes shortFirst [] (Disk.ofFn 64 (fun _ => 0) (by norm_num)) (arrayType 3 false)
      ⟨0, []⟩ (arrayField 3 false) 3 [8, 16, 16] := ⟨3, rfl⟩
  refine (sizesAgree_iff rfl rfl hsizes).mpr ⟨by decide, fun _ h => absurd h (by decide), ?_⟩
  rintro - (h | h)
  · cases h
  · cases h

/-- The loop over `2 ^ 32` bytes does not end; and two elements that are said to have one size are taken
for twice the first one, although the loop gets their sum. -/
theorem not_sizesAgree_long :
    (HasSizes (fun _ _ => some 8) [] (Disk.ofFn 64 (fun _ => 0) (by norm_num))
        (arrayType 4294967296 false) ⟨0, []⟩ (arrayField 4294967296 false) 4294967296
        (List.replicate (4294967296 : UInt64).toNat 8) ∧
      ¬ SizesAgree (fun _ _ => some 8) [] (Disk.ofFn 64 (fun _ => 0) (by norm_num))
        (arrayType 4294967296 false) ⟨0, []⟩ (arrayField 4294967296 false) 4294967296
        (List.replicate (4294967296 : UInt64).toNat 8)) ∧
    (HasSizes shortFirst [] (Disk.ofFn 64 (fun _ => 0) (by norm_num)) (arrayType 2 true) ⟨0, []⟩
        (arrayField 2 true) 2 [8, 16] ∧
      ¬ SizesAgree shortFirst [] (Disk.ofFn 64 (fun _ => 0) (by norm_num)) (arrayType 2 true) ⟨0, []⟩
        (arrayField 2 true) 2 [8, 16]) := by
  refine ⟨⟨hasSizes_bytes _ _, fun h => ?_⟩, ⟨3, rfl⟩, fun h => ?_⟩
  · have hlt : (4294967296 : UInt64).toNat < 2 ^ 32 := counted_of_computed rfl h.computed
    exact absurd hlt (by decide)
  · obtain ⟨s, hs, hsum⟩ := (table_iff rfl (returns_elems _ _ 2 true) _).mp
      (h.table (returns_elems _ _ 2 true))
    have hfirst : Returns shortFirst [] (Disk.ofFn 64 (fun _ => 0) (by norm_num)) (arrayType 2 true)
        ⟨0, []⟩ (.thunk .size (arrayField 2 true).name) 8 := ⟨3, rfl⟩
    rw [hs.unique hfirst] at hsum
    exact absurd hsum (by decide)

end Fsl.Layout
