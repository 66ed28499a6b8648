import Fsl.Compiler.FromBase
import Fsl.Lib.WrapPad

/-!
# Alignment

`align_bits(n)` and `align_bytes(n)` leave an invisible field of `(n - pos) mod n` bits, where the
position is subtracted before the remainder is taken. Beyond the first boundary the difference wraps
around, and its remainder is the one that is wanted only if the alignment divides `2 ^ 64`.
-/

namespace Fsl.Layout

open WrapPad

/-! ## The functions -/

/-- The bits an alignment is counted in. -/
def LayoutFn.unit : LayoutFn → ℕ
  | .alignBytes => 8
  | _ => 1

section Aligns

variable (typesize : String → Clo → Option UInt64) (us : List (String × ThunkType)) (d : Disk)
variable (t : ThunkType) (clo : Clo)

/-- What a function left at position `p` is a padding of less than `align` bits, and the next field
begins after it at a multiple of `align` bits from the beginning of the instance. -/
def Aligns (s : Builder) (p : UInt64) (align : ℕ) : Prop :=
  ∃ pad q, Returns typesize us d t clo (.thunk .size s.last.name) pad ∧ pad.toNat < align ∧
    Returns typesize us d t clo s.copyCurrentOffset q ∧ q = p + pad ∧
    align ∣ (q - clo.offset).toNat

end Aligns

/-- An alignment of fewer than `2 ^ 64` bits: the position is not beyond the first boundary, or the
alignment is a power of two, or the padding wraps around to the beginning. A larger one: the
position is the beginning, or the padding wraps around to it. -/
def PadExact (align : ℕ) (pos : UInt64) : Prop :=
  if align < 2 ^ 64 then pos.toNat ≤ align ∨ align ∣ 2 ^ 64 ∨ 2 ^ 64 < pos.toNat + align
  else align % 2 ^ 64 ≠ 0 ∧
    (pos = 0 ∨ align % 2 ^ 64 < pos.toNat ∧ 2 ^ 64 < pos.toNat + align % 2 ^ 64)

instance (align : ℕ) (pos : UInt64) : Decidable (PadExact align pos) :=
  inferInstanceAs (Decidable (ite _ _ _))

/-! ## Invisible fields -/

namespace Builder

/-- An invisible field has a number below the number of fields. -/
def Counted (s : Builder) : Prop := ∀ tf ∈ s.fields, ∀ i, tf.name = .inv i → i < s.count

theorem counted_init (numArgs : ℕ) : (Builder.init numArgs).Counted := by
  intro tf htf i hi
  rw [List.mem_singleton.mp htf] at hi
  cases hi

theorem Counted.add {s : Builder} {tf : ThunkField} (h : s.Counted)
    (htf : ∀ i, tf.name = .inv i → i = s.count) : (s.add tf).Counted := by
  intro tf' hmem i hi
  rw [count_add]
  rcases List.mem_append.mp hmem with hmem | hmem
  · exact (h tf' hmem i hi).trans (Nat.lt_succ_self _)
  · rw [List.mem_singleton.mp hmem] at hi
    exact (htf i hi).trans_lt (Nat.lt_succ_self _)

theorem Counted.addMembers {unionOff : Expr} {ds : List Decl} {s s' : Builder} (hs : s.Counted)
    (h : addMembers unionOff ds s = some s') : s'.Counted := by
  induction ds generalizing s with
  | nil =>
    cases h
    exact hs
  | cons dl ds ih =>
    obtain ⟨-, -, h⟩ := addMembers_cons h
    exact ih (hs.add fun i hi => Name.noConfusion hi) h

variable {toPhys : Disk → UInt64 → Option UInt64}

theorem Counted.visit {st : Stmt} {s s' : Builder} (hs : s.Counted)
    (h : visit toPhys st s = some s') : s'.Counted := by
  induction st generalizing s s' with
  | skip =>
    cases h
    exact hs
  | seq a b iha ihb =>
    obtain ⟨s₁, h₁, h₂⟩ := Option.bind_eq_some_iff.mp h
    exact ihb (iha hs h₁) h₂
  | decl dl =>
    cases h
    exact hs.add fun i hi => Name.noConfusion hi
  | func f args =>
    obtain ⟨off, size, -, -, rfl⟩ := applyFn_eq_some h
    exact hs.add fun i hi => (Name.inv.inj hi).symm
  | ifThen c t iht =>
    obtain ⟨s₁, k, h₁, -, rfl⟩ := visit_ifThen h
    have hs₁ : s₁.Counted := iht (s := { s with conds := s.conds ++ [c] }) hs h₁
    exact Counted.add (s := { s₁ with conds := s.conds }) hs₁ fun i hi => (Name.inv.inj hi).symm
  | ifElse c t e iht ihe =>
    obtain ⟨s₁, s₂, k, h₁, h₂, -, rfl⟩ := visit_ifElse h
    have hs₁ : s₁.Counted := iht (s := { s with conds := s.conds ++ [c] }) hs h₁
    have hs₂ : s₂.Counted :=
      ihe (s := { s₁ with conds := s.conds ++ [.not c], last := s.last }) hs₁ h₂
    exact Counted.add (s := { s₂ with conds := s.conds }) hs₂ fun i hi => (Name.inv.inj hi).symm
  | union name members array =>
    obtain ⟨s₁, u, h₁, -, -, rfl⟩ := addUnion_eq_some h
    have hs₁ : s₁.Counted := hs.addMembers h₁
    have hs₂ : (s₁.add (unionField s.copyCurrentOffset name array)).Counted :=
      hs₁.add fun i hi => Name.noConfusion hi
    exact hs₂

/-- The field of a layout function is found under its number. -/
theorem Counted.find {s : Builder} (hs : s.Counted) {off : Off} {size : Expr} {t : ThunkType}
    (ht : (s.add (.createInvisible s.count off size)).fields <+: t.fields) :
    t.find (.inv s.count) = some (.createInvisible s.count off size) := by
  obtain ⟨rest, hrest⟩ := ht
  have hnone : s.fields.find? (fun tf => tf.name == .inv s.count) = none := by
    rw [List.find?_eq_none]
    intro tf htf hname
    exact absurd (hs tf htf _ (eq_of_beq hname)) (lt_irrefl _)
  rw [ThunkType.find, ← hrest, fields_add, List.append_assoc, List.find?_append, hnone]
  simp [ThunkField.createInvisible]

end Builder

/-! ## The padding -/

theorem toNat_sub_mod (n p : UInt64) : ((n - p) % n).toNat = wrapPad (2 ^ 64) n.toNat p.toNat := by
  rw [UInt64.toNat_mod, UInt64.toNat_sub]
  rfl

/-- The padding of an alignment that has `m` as its value. -/
theorem padExact_iff {align : ℕ} (halign : align ≠ 0) {m : UInt64} (hm : m.toNat = align % 2 ^ 64)
    (pos : UInt64) :
    m ≠ 0 ∧ ((m - pos) % m).toNat < align ∧ align ∣ (pos + (m - pos) % m).toNat ↔
      PadExact align pos := by
  have hpos : pos.toNat < 2 ^ 64 := pos.toNat_lt
  have hne : m ≠ 0 ↔ 0 < align % 2 ^ 64 := by
    rw [← hm, ne_eq, ← UInt64.toNat_inj, Nat.pos_iff_ne_zero]
    rfl
  rw [hne, UInt64.toNat_add, toNat_sub_mod, PadExact]
  split
  case isTrue hlt =>
    rw [Nat.mod_eq_of_lt hlt] at hm ⊢
    have hzero : 0 < align := Nat.pos_of_ne_zero halign
    rw [hm, dvd_add_wrapPad_iff hzero hlt hpos, and_iff_right hzero,
      and_iff_right (wrapPad_lt hzero)]
  case isFalse hge =>
    rw [← Nat.pos_iff_ne_zero, ← hm]
    refine and_congr_right fun hzero => ?_
    have hlt : m.toNat < 2 ^ 64 := m.toNat_lt
    have hpad : wrapPad (2 ^ 64) m.toNat pos.toNat < m.toNat := wrapPad_lt hzero
    have hsum : (pos.toNat + wrapPad (2 ^ 64) m.toNat pos.toNat) % 2 ^ 64 < align := by omega
    have hdvd : align ∣ (pos.toNat + wrapPad (2 ^ 64) m.toNat pos.toNat) % 2 ^ 64 ↔
        (pos.toNat + wrapPad (2 ^ 64) m.toNat pos.toNat) % 2 ^ 64 = 0 :=
      ⟨fun h => Nat.eq_zero_of_dvd_of_lt h hsum, fun h => h ▸ Nat.dvd_zero align⟩
    rw [hdvd, add_wrapPad_eq_zero_iff hzero hlt hpos, and_iff_right (by omega),
      ← UInt64.toNat_inj]
    rfl

/-- Both functions leave the same formula, for an alignment of `unit` bits times the argument. -/
theorem doIt_align (toPhys : Disk → UInt64 → Option UInt64) (s : Builder) (a : Expr) {f : LayoutFn}
    (hf : f = .alignBits ∨ f = .alignBytes) :
    ∃ m, f.doIt toPhys s [a] =
        some (s.copyCurrentOffset, LayoutFn.mod (.sub m s.copyFromBase) m) ∧
      ∀ c d clo n, a.eval c d clo 0 = some n →
        m.eval c d clo 0 = some (n * UInt64.ofNat f.unit) := by
  rcases hf with rfl | rfl
  · refine ⟨a, rfl, fun c d clo n hn => ?_⟩
    rw [hn]
    exact congrArg some (UInt64.mul_one n).symm
  · refine ⟨.mul a (.num 8), rfl, fun c d clo n hn => ?_⟩
    show (a.eval c d clo 0).bind _ = _
    rw [hn]
    rfl

theorem mod_eval {c : Calls} {d : Disk} {clo : Clo} {x y : Expr} {u v : UInt64}
    (hx : x.eval c d clo 0 = some u) (hy : y.eval c d clo 0 = some v) :
    (LayoutFn.mod x y).eval c d clo 0 = if v = 0 then none else some (u % v) := by
  have hargs : evalArgs (fun i => (![x, y] i).eval c d clo 0) = some ![u, v] := by
    rw [evalArgs_eq_some]
    intro i
    fin_cases i
    · exact hx
    · exact hy
  show (evalArgs fun i => (![x, y] i).eval c d clo 0).bind _ = _
  rw [hargs]
  rfl

section Block

variable {toPhys : Disk → UInt64 → Option UInt64} {numArgs : ℕ} {pre post : Stmt} {f : LayoutFn}
variable {a : Expr} {t : ThunkType} {us : List (String × ThunkType)} {s : Builder}

/-- An alignment in the block of a type leaves its field there. -/
theorem exists_alignField (hf : f = .alignBits ∨ f = .alignBytes)
    (hsym : getSymTab toPhys numArgs (.seq pre (.seq (.func f [a]) post)) = some (t, us))
    (hs : Builder.visit toPhys pre (.init numArgs) = some s) :
    ∃ m s', s.applyFn toPhys f [a] = some s' ∧
      s' = s.add (.createInvisible s.count (.raw s.copyCurrentOffset)
        (LayoutFn.mod (.sub m s.copyFromBase) m)) ∧
      t.find (.inv s.count) = some s'.last ∧
      ∀ c d clo n, (a.subst s.copyFromBase).eval c d clo 0 = some n →
        m.eval c d clo 0 = some (n * UInt64.ofNat f.unit) := by
  obtain ⟨m, hdo, hm⟩ := doIt_align toPhys s (a.subst s.copyFromBase) hf
  obtain ⟨sEnd, hvisit, hend⟩ := Option.map_eq_some_iff.mp hsym
  obtain ⟨s₁, h₁, hrest⟩ := Option.bind_eq_some_iff.mp hvisit
  obtain ⟨s', hfn, hpost⟩ := Option.bind_eq_some_iff.mp hrest
  rw [hs] at h₁
  cases h₁
  have hfn' : s.applyFn toPhys f [a] = some s' := hfn
  obtain ⟨off, size, hdo', -, rfl⟩ := Builder.applyFn_eq_some hfn'
  rw [LayoutFn.setupArgs, List.map_singleton, hdo] at hdo'
  cases hdo'
  have ht : t.fields = sEnd.fields := by
    cases hend
    rfl
  have hcounted : s.Counted := (Builder.counted_init numArgs).visit hs
  exact ⟨m, _, hfn', rfl, hcounted.find (ht ▸ (Builder.extends_visit hpost).fields), hm⟩

variable {typesize : String → Clo → Option UInt64} {d : Disk} {clo : Clo} {p n : UInt64}

/-- In every type block, for every instance, position and alignment but zero, `align_bits(n)` and
`align_bytes(n)` insert the padding to the next multiple of `n` bits or bytes exactly where
`PadExact` holds. -/
theorem aligns_iff (hf : f = .alignBits ∨ f = .alignBytes)
    (hsym : getSymTab toPhys numArgs (.seq pre (.seq (.func f [a]) post)) = some (t, us))
    (hs : Builder.visit toPhys pre (.init numArgs) = some s)
    (hp : Returns typesize us d t clo s.copyCurrentOffset p)
    (hn : Returns typesize us d t clo (a.subst s.copyFromBase) n) (hzero : n ≠ 0) :
    (∃ s', s.applyFn toPhys f [a] = some s' ∧
      Aligns typesize us d t clo s' p (f.unit * n.toNat)) ↔
      PadExact (f.unit * n.toNat) (p - clo.offset) := by
  obtain ⟨m, s', hfn, rfl, hfind, hm⟩ := exists_alignField hf hsym hs
  -- what the two functions of the field return
  have hu := stable_unionSize typesize d us
  set R := result typesize (unionSize typesize d us) d t clo with hR
  set v := n * UInt64.ofNat f.unit with hv
  have hoff : R.thunk .off (.inv s.count) = some p :=
    (result_off hu hfind).trans ((returns_iff _ _).mp hp)
  have hbase : s.copyFromBase.eval R d clo 0 = some (p - clo.offset) :=
    (returns_iff _ _).mp (returns_copyFromBase hp)
  have hmv : m.eval R d clo 0 = some v := hm R d clo n ((returns_iff _ _).mp hn)
  have hdiff : (Expr.sub m s.copyFromBase).eval R d clo 0 = some (v - (p - clo.offset)) := by
    show (m.eval R d clo 0).bind _ = _
    rw [hmv, Option.bind_some, hbase]
    rfl
  have hsize : R.thunk .size (.inv s.count) =
      if v = 0 then none else some ((v - (p - clo.offset)) % v) :=
    (result_size hu hfind).trans (mod_eval hdiff hmv)
  have hlast : ∀ pad, Returns typesize us d t clo (.thunk .size (.inv s.count)) pad ↔
      v ≠ 0 ∧ (v - (p - clo.offset)) % v = pad := by
    intro pad
    rw [returns_iff]
    show R.thunk .size (.inv s.count) = some pad ↔ _
    rw [hsize, Option.ite_none_left_eq_some, Option.some_inj]
  have hnext : ∀ pad, Returns typesize us d t clo (.thunk .size (.inv s.count)) pad →
      ∀ q, Returns typesize us d t clo (s.add (.createInvisible s.count (.raw s.copyCurrentOffset)
        (LayoutFn.mod (.sub m s.copyFromBase) m))).copyCurrentOffset q ↔ q = p + pad := by
    intro pad hpad q
    rw [returns_iff]
    show (R.thunk .off (.inv s.count)).bind _ = _ ↔ _
    have hpad' : R.thunk .size (.inv s.count) = some pad := (returns_iff _ _).mp hpad
    rw [hoff, Option.bind_some]
    show (R.thunk .size (.inv s.count)).map _ = _ ↔ _
    rw [hpad', Option.map_some, Option.some_inj, eq_comm]
  have hmul : v.toNat = f.unit * n.toNat % 2 ^ 64 := by
    rw [hv, UInt64.toNat_mul, Nat.mul_comm]
    rcases hf with rfl | rfl
    · rfl
    · rfl
  have halign : f.unit * n.toNat ≠ 0 := by
    have hn0 : n.toNat ≠ 0 := fun h => hzero (UInt64.toNat_inj.mp h)
    rcases hf with rfl | rfl
    · simpa [LayoutFn.unit] using hn0
    · simpa [LayoutFn.unit] using hn0
  have hsum : ∀ pad : UInt64, p + pad - clo.offset = p - clo.offset + pad := by
    intro pad
    grind
  rw [← padExact_iff halign hmul]
  constructor
  · rintro ⟨s', hs', pad, q, hpad, hlt, hq, rfl, hdvd⟩
    rw [hfn] at hs'
    cases hs'
    obtain ⟨hv0, rfl⟩ := (hlast pad).mp hpad
    rw [hsum] at hdvd
    exact ⟨hv0, hlt, hdvd⟩
  · rintro ⟨hv0, hlt, hdvd⟩
    have hpad := (hlast _).mpr ⟨hv0, rfl⟩
    refine ⟨_, hfn, _, _, hpad, hlt, (hnext _ hpad _).mpr rfl, rfl, ?_⟩
    rw [hsum]
    exact hdvd

end Block

/-- The functions of a type that consists of a byte and an alignment. -/
def alignType (n : UInt64) : ThunkType :=
  let s := afterByte.add (.createInvisible 1 (.raw afterByte.copyCurrentOffset)
    (LayoutFn.mod (.sub (.num n) afterByte.copyFromBase) (.num n)))
  ⟨s.fields, .sub s.copyCurrentOffset .argOff⟩

/-- From bit 8 to bit 16. -/
theorem aligns_sixteen :
    PadExact (LayoutFn.alignBits.unit * (16 : UInt64).toNat) (8 - 0) ∧
    ∃ s', afterByte.applyFn (fun _ x => some x) .alignBits [.num 16] = some s' ∧
      Aligns (fun _ _ => none) [] (Disk.ofFn 64 (fun _ => 0) (by norm_num)) (alignType 16) ⟨0, []⟩ s' 8
        (LayoutFn.alignBits.unit * (16 : UInt64).toNat) :=
  have hexact : PadExact (LayoutFn.alignBits.unit * (16 : UInt64).toNat) (8 - 0) := by decide
  have hsym : getSymTab (fun _ x => some x) 0 (.seq (.decl ⟨"a", .prim 8, [], none, false⟩)
      (.seq (.func .alignBits [.num 16]) .skip)) = some (alignType 16, []) := rfl
  ⟨hexact, (aligns_iff (.inl rfl) hsym rfl ⟨4, rfl⟩ ⟨4, rfl⟩ (by decide)).mpr hexact⟩

/-- After the first byte `align_bits(3)` inserts two bits, and the next field begins at bit 10. -/
theorem not_aligns_three :
    getSymTab (fun _ x => some x) 0 (.seq (.decl ⟨"a", .prim 8, [], none, false⟩)
      (.seq (.func .alignBits [.num 3]) .skip)) = some (alignType 3, []) ∧
    Returns (fun _ _ => none) [] (Disk.ofFn 64 (fun _ => 0) (by norm_num)) (alignType 3) ⟨0, []⟩
      afterByte.copyCurrentOffset 8 ∧
    ∀ s', afterByte.applyFn (fun _ x => some x) .alignBits [.num 3] = some s' →
      Returns (fun _ _ => none) [] (Disk.ofFn 64 (fun _ => 0) (by norm_num)) (alignType 3) ⟨0, []⟩
        s'.copyCurrentOffset 10 ∧
      ¬ Aligns (fun _ _ => none) [] (Disk.ofFn 64 (fun _ => 0) (by norm_num)) (alignType 3) ⟨0, []⟩
        s' 8 3 := by
  refine ⟨rfl, ⟨4, rfl⟩, fun s' hs' => ?_⟩
  cases hs'
  have hnext : Returns (fun _ _ => none) [] (Disk.ofFn 64 (fun _ => 0) (by norm_num)) (alignType 3)
      ⟨0, []⟩ (afterByte.add (.createInvisible 1 (.raw afterByte.copyCurrentOffset)
        (LayoutFn.mod (.sub (.num 3) afterByte.copyFromBase) (.num 3)))).copyCurrentOffset 10 :=
    ⟨8, rfl⟩
  refine ⟨hnext, ?_⟩
  rintro ⟨pad, q, -, -, hq, -, hdvd⟩
  rw [hq.unique hnext] at hdvd
  exact absurd hdvd (by decide)

end Fsl.Layout
