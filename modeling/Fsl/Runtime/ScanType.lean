import Fsl.Lib.Preorder
import Fsl.Lib.Runs
import Fsl.Runtime.Children

/-!
# The scan of a type tree

`scan_type` of `runtime/scan.c` goes through the instances below an instance with a stack of frames. A
frame of a type has four stages, each of which pushes a frame for one of the type's tables; these push
frames for its entries, and the frames of entries push one of a type for each element.
-/

namespace Fsl.ScanType

open Children Preorder Runs

variable {T : Type}

/-! ## Types -/

/-- A field of an instance: whether it has a type (`tf_typenum`), `FIELD_FL_NOFOLLOW`, the values of
`tf_fieldbitoff`, `tf_elemcount` and `tf_typesize`, and `typeinfo_follow_field_off_idx`. -/
structure Field (T : Type) where
  typed : Bool
  nofollow : Bool
  fieldbitoff : UInt64
  elemcount : UInt64
  typesize : UInt64
  follow : UInt64 → UInt64 → Option T

/-- A points-to range of an instance: `it_min`, `it_max` and `typeinfo_follow_pointsto`. -/
structure Points (T : Type) where
  itMin : UInt64
  itMax : UInt64
  follow : UInt64 → Option T

/-- A virtual type of an instance: `typeinfo_follow_virt`, with its error. -/
structure Virt (T : Type) where
  follow : UInt32 → Option T × TiErr

/-- The tables of the instances' types: `tt_fieldstrong`, `tt_fieldtypes_thunkoff` with the value of
`tf_cond` where there is one, `tt_pointsto`, `tt_virt`, and `tt_size`. They are those of one disk, which
no callback changes; following an instance fails no assertion. The callbacks other than `so_ti` are
`NULL` or return `SCAN_RET_CONTINUE`. -/
structure Types (T : Type) where
  fieldstrong : T → List (Field T)
  fieldtypes : T → List (Option Bool × Field T)
  pointsto : T → List (Points T)
  virt : T → List (Virt T)
  size : T → UInt64

/-! ## The stack -/

/-- `struct scan_stk`, by its operations. A frame of a table has the entries behind `stk_idx`. -/
inductive Frame (T : Type)
  | type (ti : T) (idx : ℕ)
  | fieldstrong (ti : T) (rest : List (Field T))
  | cond (ti : T) (rest : List (Option Bool × Field T))
  | pointstoAll (ti : T) (rest : List (Points T))
  | virtAll (ti : T) (rest : List (Virt T))
  | fieldarray (ti : T) (tf : Field T) (idx : UInt32) (off : UInt64)
  | pointsto (ti : T) (pt : Points T) (idx : UInt32)
  | virt (ti : T) (vt : Virt T) (idx : UInt32)

/-- What a round of `sto_fill_next` comes to: it initialised a frame, it called `create_stk_type` on an
instance, it goes on with the next entry or element, or it returned `SCAN_RET_EXIT_TYPE`. -/
inductive Fill (T : Type)
  | push (src new : Frame T)
  | create (src : Frame T) (ti : T)
  | again (src : Frame T)
  | exit

section Defs

variable (w : Types T) (deep : Bool)

/-- `stkop_fieldarray_init`; there is no frame where it returns `SCAN_RET_EXIT_TYPE`. -/
def fieldarrayInit (ti : T) (tf : Field T) : Option (Frame T) :=
  if tf.typed = false then none
  else if deep = false ∧ tf.nofollow = true then none
  else some (.fieldarray ti tf 0 tf.fieldbitoff)

/-- `stkop_pointsto_init` -/
def pointstoInit (ti : T) (pt : Points T) : Option (Frame T) :=
  if pt.itMin = -1 then none
  else if pt.itMax < pt.itMin then none
  else some (.pointsto ti pt pt.itMin.toUInt32)

/-- One round of `sto_fill_next`. -/
def fillNext : Frame T → Fill T
  -- `stkop_type_next`
  | .type ti 0 => .push (.type ti 1) (.fieldstrong ti (w.fieldstrong ti))
  | .type ti 1 => .push (.type ti 2) (.cond ti (w.fieldtypes ti))
  | .type ti 2 => .push (.type ti 3) (.pointstoAll ti (w.pointsto ti))
  | .type ti 3 => .push (.type ti 4) (.virtAll ti (w.virt ti))
  | .type _ _ => .exit
  -- `stkop_fieldstrong_next`, which goes on behind a field without a frame
  | .fieldstrong _ [] => .exit
  | .fieldstrong ti (tf :: rest) =>
    match fieldarrayInit deep ti tf with
    | some new => .push (.fieldstrong ti rest) new
    | none => .again (.fieldstrong ti rest)
  -- `stkop_cond_next`, which does not
  | .cond _ [] => .exit
  | .cond ti ((none, _) :: rest) => .again (.cond ti rest)
  | .cond ti ((some false, _) :: rest) => .again (.cond ti rest)
  | .cond ti ((some true, tf) :: rest) =>
    match fieldarrayInit deep ti tf with
    | some new => .push (.cond ti rest) new
    | none => .exit
  -- `stkop_pointsto_all_next` and `stkop_virt_all_next`
  | .pointstoAll _ [] => .exit
  | .pointstoAll ti (pt :: rest) =>
    match pointstoInit ti pt with
    | some new => .push (.pointstoAll ti rest) new
    | none => .again (.pointstoAll ti rest)
  | .virtAll _ [] => .exit
  | .virtAll ti (vt :: rest) => .push (.virtAll ti rest) (.virt ti vt 0)
  -- `stkop_fieldarray_next`
  | .fieldarray ti tf idx off =>
    if idx.toUInt64 < tf.elemcount then
      match tf.follow off idx.toUInt64 with
      | none => .again (.fieldarray ti tf (idx + 1) (off + tf.typesize))
      | some new =>
        let off' := if idx.toUInt64 < tf.elemcount - 1 then off + w.size new else off
        .create (.fieldarray ti tf (idx + 1) off') new
    else .exit
  -- `stkop_pointsto_next`
  | .pointsto ti pt idx =>
    if idx.toUInt64 ≤ pt.itMax then
      match pt.follow idx.toUInt64 with
      | none => .again (.pointsto ti pt (idx + 1))
      | some new => .create (.pointsto ti pt (idx + 1)) new
    else .exit
  -- `stkop_virt_next`
  | .virt ti vt idx =>
    match vt.follow idx with
    | (some new, _) => .create (.virt ti vt (idx + 1)) new
    | (none, err) => if err = .ok ∨ err = .badVerify then .again (.virt ti vt (idx + 1)) else .exit

/-- `is_ret_done` -/
def isRetDone (ret : ℤ) : Prop := ret = 1 ∨ ret = 3

instance (ret : ℤ) : Decidable (isRetDone ret) := inferInstanceAs (Decidable (_ ∨ _))

/-- The stack from its top on, and the instances that `so_ti` was called on. -/
structure State (T : Type) where
  stack : List (Frame T)
  visits : List T

/-- `create_stk_type` on top of a stack; where `so_ti` says that it is done, `below` is left. It knows
what it was called on before. -/
def create (soTi : List T → T → ℤ) (below stack : List (Frame T)) (visits : List T) (ti : T) : State T :=
  if isRetDone (soTi visits ti) then ⟨below, visits ++ [ti]⟩
  else ⟨.type ti 0 :: stack, visits ++ [ti]⟩

/-- One round of the loop of `scan_type_ctx`, and of the loop in `sto_fill_next`. -/
def step (soTi : List T → T → ℤ) (s : State T) : Option (State T ⊕ List T) :=
  match s.stack with
  | [] => some (.inr s.visits)
  | top :: stack =>
    match fillNext w deep top with
    | .push src new => some (.inl ⟨new :: src :: stack, s.visits⟩)
    | .create src ti => some (.inl (create soTi stack (src :: stack) s.visits ti))
    | .again src => some (.inl ⟨src :: stack, s.visits⟩)
    | .exit => some (.inl ⟨stack, s.visits⟩)

/-- `scan_type`, or `scan_type_deep`, returns after `so_ti` was called on these instances. -/
def Scans (soTi : List T → T → ℤ) (ti : T) (visits : List T) : Prop :=
  ∃ k, run (step w deep soTi) k (create soTi [] [] [] ti) = some visits

/-! ## The type tree -/

/-- The verified elements of a field, from an index on: one that is not verified has the size of the
field's type. -/
def fieldElems (tf : Field T) : ℕ → UInt64 → ℕ → List T
  | 0, _, _ => []
  | count + 1, off, idx =>
    match tf.follow off (UInt64.ofNat idx) with
    | none => fieldElems tf count (off + tf.typesize) (idx + 1)
    | some new => new :: fieldElems tf count (off + w.size new) (idx + 1)

/-- The field has elements that are instances, and a scan follows it. -/
def Field.followed (tf : Field T) : Bool := tf.typed && (deep || !tf.nofollow)

/-- The elements of a field, if it is followed. -/
def Field.elems (tf : Field T) : List T :=
  if tf.followed deep then fieldElems w tf tf.elemcount.toNat tf.fieldbitoff 0 else []

/-- The verified instances of a range. -/
def Points.elems (pt : Points T) : List T :=
  if pt.itMin = -1 then []
  else if pt.itMax < pt.itMin then []
  else (List.range' pt.itMin.toNat (pt.itMax.toNat - pt.itMin.toNat + 1)).filterMap fun i =>
    pt.follow (UInt64.ofNat i)

/-- The verified elements of a virtual type, up to one that is neither there nor merely not
verified. -/
def virtElems (vt : Virt T) : ℕ → ℕ → List T
  | 0, _ => []
  | count + 1, idx =>
    match vt.follow (UInt32.ofNat idx) with
    | (some new, _) => new :: virtElems vt count (idx + 1)
    | (none, err) => if err = .ok ∨ err = .badVerify then virtElems vt count (idx + 1) else []

/-- The elements of a virtual type, which are counted with 32 bits. -/
def Virt.elems (vt : Virt T) : List T := virtElems vt (2 ^ 32) 0

/-- The conditional fields that are present. -/
def present (fs : List (Option Bool × Field T)) : List (Field T) :=
  fs.filterMap fun f => if f.1 = some true then some f.2 else none

/-- The children of an instance, in order. -/
def Types.children (ti : T) : List T :=
  (w.fieldstrong ti).flatMap (Field.elems w deep) ++
    ((present (w.fieldtypes ti)).flatMap (Field.elems w deep) ++
      ((w.pointsto ti).flatMap Points.elems ++ (w.virt ti).flatMap Virt.elems))

/-- What `SCAN_RET_CONTINUE`, `SCAN_RET_TERMINATE`, `SCAN_RET_SKIP` and `SCAN_RET_EXIT_TYPE` stand
for. -/
def retCode (ret : ℤ) : Code :=
  if ret = 1 then .stop else if ret = 2 then .skip else if ret = 3 then .leave else .go

/-- The callback of a traversal. -/
def codes (soTi : List T → T → ℤ) (visits : List T) (ti : T) : Code := retCode (soTi visits ti)

/-- The recursive traversal of a type tree of at most `n` levels. -/
def traverse (soTi : List T → T → ℤ) (n : ℕ) (ti : T) : List T :=
  (visit (w.children deep) (codes soTi) n ti []).1

end Defs

/-! ## What a scan sees -/

/-- The offset behind the first elements of a field. -/
def fieldOff (w : Types T) (tf : Field T) : ℕ → UInt64 → ℕ → UInt64
  | 0, off, _ => off
  | count + 1, off, idx =>
    match tf.follow off (UInt64.ofNat idx) with
    | none => fieldOff w tf count (off + tf.typesize) (idx + 1)
    | some new => fieldOff w tf count (off + w.size new) (idx + 1)

/-- The loop over a virtual type ends here. -/
def ends (r : Option T × TiErr) : Bool := r.1.isNone && !(r.2 == .ok || r.2 == .badVerify)

section Batches

variable (w : Types T) (deep : Bool)

/-- Of a field a scan sees the elements that it can count with 32 bits. If there are as many as it can
count, its counter goes around. -/
def Field.batch (tf : Field T) : Batch T :=
  if tf.followed deep then
    { early := fieldElems w tf (min tf.elemcount.toNat (2 ^ 32)) tf.fieldbitoff 0
      late := fieldElems w tf (tf.elemcount.toNat - 2 ^ 32)
        (fieldOff w tf (2 ^ 32) tf.fieldbitoff 0) (2 ^ 32)
      wild := if tf.elemcount.toNat < 2 ^ 32 then none
        else some {c | ∃ off, ∃ i : UInt32, tf.follow off i.toUInt64 = some c} }
  else ⟨[], [], none⟩

/-- Of a range a scan sees the instances with an index below `2 ^ 32`. -/
def Points.batch (pt : Points T) : Batch T :=
  if pt.itMin = -1 ∨ pt.itMax < pt.itMin then ⟨[], [], none⟩
  else
    let follow := fun i => pt.follow (UInt64.ofNat i)
    { early := (List.range' pt.itMin.toNat (min (pt.itMax.toNat + 1) (2 ^ 32) - pt.itMin.toNat)).filterMap
        follow
      late := (List.range' (max pt.itMin.toNat (2 ^ 32))
        (pt.itMax.toNat + 1 - max pt.itMin.toNat (2 ^ 32))).filterMap follow
      wild := if pt.itMax.toNat + 1 < 2 ^ 32 then none
        else some {c | ∃ i : UInt32, pt.follow i.toUInt64 = some c} }

/-- A scan of a virtual type that has no end goes around. -/
def Virt.batch (vt : Virt T) : Batch T where
  early := vt.elems
  late := []
  wild := if ∃ m, m < 2 ^ 32 ∧ ends (vt.follow (UInt32.ofNat m)) = true then none
    else some {c | ∃ i err, vt.follow i = (some c, err)}

/-- A conditional field that is present but not followed ends the scan of the conditional fields. -/
def condBatches (fs : List (Option Bool × Field T)) : List (Batch T) :=
  ((present fs).takeWhile (Field.followed deep)).map (Field.batch w deep) ++
    ((present fs).dropWhile (Field.followed deep)).map fun tf => ⟨[], tf.elems w deep, none⟩

/-- The elements of the tables' entries, in the order of the stages. -/
def Types.batches (ti : T) : List (Batch T) :=
  (w.fieldstrong ti).map (Field.batch w deep) ++ (condBatches w deep (w.fieldtypes ti) ++
    ((w.pointsto ti).map Points.batch ++ (w.virt ti).map Virt.batch))

end Batches

variable {w : Types T} {deep : Bool} {soTi : List T → T → ℤ}

theorem fieldarrayInit_eq (ti : T) (tf : Field T) : fieldarrayInit deep ti tf =
    if tf.followed deep then some (.fieldarray ti tf 0 tf.fieldbitoff) else none := by
  unfold fieldarrayInit Field.followed
  cases tf.typed <;> cases deep <;> cases tf.nofollow <;> rfl

theorem pointstoInit_eq (ti : T) (pt : Points T) : pointstoInit ti pt =
    if pt.itMin = -1 ∨ pt.itMax < pt.itMin then none
    else some (.pointsto ti pt pt.itMin.toUInt32) := by
  unfold pointstoInit
  by_cases hmin : pt.itMin = -1
  · rw [if_pos hmin, if_pos (Or.inl hmin)]
  · by_cases hlt : pt.itMax < pt.itMin
    · rw [if_neg hmin, if_pos hlt, if_pos (Or.inr hlt)]
    · rw [if_neg hmin, if_neg hlt, if_neg (not_or.mpr ⟨hmin, hlt⟩)]

theorem fieldElems_add (tf : Field T) (a b : ℕ) (off : UInt64) (idx : ℕ) :
    fieldElems w tf (a + b) off idx =
      fieldElems w tf a off idx ++ fieldElems w tf b (fieldOff w tf a off idx) (idx + a) := by
  induction a generalizing off idx with
  | zero => rw [Nat.zero_add, fieldElems, fieldOff, List.nil_append, Nat.add_zero]
  | succ a ih =>
    rw [Nat.succ_add, fieldElems, fieldElems, fieldOff]
    cases tf.follow off (UInt64.ofNat idx) with
    | none =>
      rw [ih, Nat.add_right_comm idx 1 a]
      rfl
    | some new =>
      dsimp only
      rw [ih, Nat.add_right_comm idx 1 a]
      rfl

theorem items_field (tf : Field T) : (tf.batch w deep).items = tf.elems w deep := by
  unfold Field.batch Field.elems
  by_cases hf : tf.followed deep = true
  · rw [if_pos hf, if_pos hf]
    unfold Batch.items
    dsimp only
    rcases Nat.le_total tf.elemcount.toNat (2 ^ 32) with hle | hle
    · rw [Nat.min_eq_left hle, Nat.sub_eq_zero_of_le hle, fieldElems.eq_1, List.append_nil]
    · rw [Nat.min_eq_right hle]
      have hsplit := fieldElems_add (w := w) tf (2 ^ 32) (tf.elemcount.toNat - 2 ^ 32) tf.fieldbitoff 0
      rw [Nat.add_sub_cancel' hle, Nat.zero_add] at hsplit
      exact hsplit.symm
  · rw [if_neg hf, if_neg hf]
    rfl

theorem items_pointsto (pt : Points T) : pt.batch.items = pt.elems := by
  unfold Points.batch Points.elems
  by_cases hnone : pt.itMin = -1 ∨ pt.itMax < pt.itMin
  · rw [if_pos hnone]
    split_ifs with hmin hlt
    · rfl
    · rfl
    · exact absurd hnone (by tauto)
  · obtain ⟨hmin, hlt⟩ := not_or.mp hnone
    have hle := UInt64.le_iff_toNat_le.mp (UInt64.not_lt.mp hlt)
    rw [if_neg hnone, if_neg hmin, if_neg hlt]
    unfold Batch.items
    dsimp only
    rw [← List.filterMap_append]
    refine congrArg (List.filterMap _) ?_
    rcases Nat.lt_or_ge pt.itMin.toNat (2 ^ 32) with hsmall | hbig
    · have hmid : pt.itMin.toNat + (min (pt.itMax.toNat + 1) (2 ^ 32) - pt.itMin.toNat) =
          min (pt.itMax.toNat + 1) (2 ^ 32) := by omega
      have hcount : pt.itMax.toNat + 1 - max pt.itMin.toNat (2 ^ 32) =
          pt.itMax.toNat + 1 - min (pt.itMax.toNat + 1) (2 ^ 32) := by omega
      have hlate : List.range' (max pt.itMin.toNat (2 ^ 32))
          (pt.itMax.toNat + 1 - max pt.itMin.toNat (2 ^ 32)) =
          List.range' (pt.itMin.toNat + (min (pt.itMax.toNat + 1) (2 ^ 32) - pt.itMin.toNat))
            (pt.itMax.toNat + 1 - min (pt.itMax.toNat + 1) (2 ^ 32)) := by
        rw [hmid, hcount]
        rcases Nat.le_total (pt.itMax.toNat + 1) (2 ^ 32) with h | h
        · rw [Nat.min_eq_left h, Nat.sub_self]
          rfl
        · rw [Nat.min_eq_right h, Nat.max_eq_right hsmall.le]
      rw [hlate, List.range'_append_1]
      congr 1
      omega
    · rw [Nat.max_eq_left hbig, Nat.sub_eq_zero_of_le ((Nat.min_le_right _ _).trans hbig)]
      show [] ++ _ = _
      rw [List.nil_append]
      congr 1
      omega

theorem items_append (bs bs' : List (Batch T)) : items (bs ++ bs') = items bs ++ items bs' :=
  List.flatMap_append

theorem items_map {α : Type} (f : α → Batch T) (l : List α) :
    items (l.map f) = l.flatMap fun a => (f a).items := by
  rw [items, List.flatMap_map]

/-- The batches have all the children. -/
theorem children_batches : Preorder.children (w.batches deep) = w.children deep := by
  funext ti
  show items (w.batches deep ti) = _
  have hlate : ∀ tf : Field T, (⟨[], tf.elems w deep, none⟩ : Batch T).items = tf.elems w deep :=
    fun _ => rfl
  have hvirt : ∀ vt : Virt T, vt.batch.items = vt.elems := fun _ => List.append_nil _
  simp only [Types.batches, condBatches, items_append, items_map, items_field, items_pointsto, hlate,
    hvirt]
  rw [← List.flatMap_append, List.takeWhile_append_dropWhile]
  rfl

/-! ## Frames of elements -/

/-- A frame never comes to an end by itself, and the instances that it comes to are among `wild`. -/
def Wanders (w : Types T) (deep : Bool) (wild : Set T) (fr : Frame T) : Prop :=
  ∃ P : Frame T → Prop, P fr ∧ ∀ fr, P fr → (∃ fr', fillNext w deep fr = .again fr' ∧ P fr') ∨
    ∃ fr' c, fillNext w deep fr = .create fr' c ∧ P fr' ∧ c ∈ wild

/-- A frame goes through these instances, and how it ends. -/
inductive Yields (w : Types T) (deep : Bool) : Frame T → List T → Mark T → Prop
  | exit {fr : Frame T} : fillNext w deep fr = .exit → Yields w deep fr [] .left
  | lost {fr : Frame T} {wild : Set T} : Wanders w deep wild fr → Yields w deep fr [] (.lost wild)
  | again {fr fr' : Frame T} {l : List T} {mark : Mark T} :
      fillNext w deep fr = .again fr' → Yields w deep fr' l mark → Yields w deep fr l mark
  | create {fr fr' : Frame T} {ti : T} {l : List T} {mark : Mark T} :
      fillNext w deep fr = .create fr' ti → Yields w deep fr' l mark → Yields w deep fr (ti :: l) mark

theorem ofNat_toNat_eq (idx : UInt32) : UInt64.ofNat idx.toNat = idx.toUInt64 := by
  rw [← UInt64.toNat_inj, UInt64.toNat_ofNat', UInt32.toNat_toUInt64]
  have hlt := idx.toNat_lt
  omega

theorem toNat_succ {idx : UInt32} (h : idx.toNat + 1 < 2 ^ 32) : (idx + 1).toNat = idx.toNat + 1 := by
  rw [UInt32.toNat_add]
  exact Nat.mod_eq_of_lt h

/-! ### Fields -/

/-- One round of `stkop_fieldarray_next`. -/
theorem fillNext_fieldarray (ti : T) {tf : Field T} {idx : UInt32} (off : UInt64)
    (hlt : idx.toUInt64 < tf.elemcount) :
    (tf.follow off idx.toUInt64 = none ∧ fillNext w deep (.fieldarray ti tf idx off) =
        .again (.fieldarray ti tf (idx + 1) (off + tf.typesize))) ∨
      ∃ new, tf.follow off idx.toUInt64 = some new ∧ fillNext w deep (.fieldarray ti tf idx off) =
        .create (.fieldarray ti tf (idx + 1)
          (if idx.toUInt64 < tf.elemcount - 1 then off + w.size new else off)) new := by
  rw [fillNext, if_pos hlt]
  cases tf.follow off idx.toUInt64 with
  | none => exact Or.inl ⟨rfl, rfl⟩
  | some new => exact Or.inr ⟨new, rfl, rfl⟩

theorem wanders_fieldarray (ti : T) {tf : Field T} (hbig : 2 ^ 32 ≤ tf.elemcount.toNat) (idx : UInt32)
    (off : UInt64) :
    Wanders w deep {c | ∃ off, ∃ i : UInt32, tf.follow off i.toUInt64 = some c}
      (.fieldarray ti tf idx off) := by
  refine ⟨fun fr => ∃ idx off, fr = .fieldarray ti tf idx off, ⟨idx, off, rfl⟩, ?_⟩
  rintro _ ⟨idx, off, rfl⟩
  have hlt : idx.toUInt64 < tf.elemcount := by
    have hidx := idx.toNat_lt
    rw [UInt64.lt_iff_toNat_lt, UInt32.toNat_toUInt64]
    omega
  rcases fillNext_fieldarray ti off hlt with ⟨-, hfill⟩ | ⟨new, hnew, hfill⟩
  · exact Or.inl ⟨_, hfill, _, _, rfl⟩
  · exact Or.inr ⟨_, new, hfill, ⟨_, _, rfl⟩, off, idx, hnew⟩

/-- The frame goes through `count` elements, behind which it is at the end of the field or of its
counter. -/
theorem yields_fieldarray (ti : T) {tf : Field T} {count : ℕ} {idx : UInt32} {off : UInt64}
    (hidx : idx.toNat + count = min tf.elemcount.toNat (2 ^ 32)) :
    Yields w deep (.fieldarray ti tf idx off) (fieldElems w tf count off idx.toNat)
      (if tf.elemcount.toNat < 2 ^ 32 then .left
        else .lost {c | ∃ off, ∃ i : UInt32, tf.follow off i.toUInt64 = some c}) := by
  induction count generalizing idx off with
  | zero =>
    have hlt := idx.toNat_lt
    have hsmall : tf.elemcount.toNat < 2 ^ 32 := by omega
    rw [if_pos hsmall]
    refine .exit (if_neg ?_)
    rw [UInt64.lt_iff_toNat_lt, UInt32.toNat_toUInt64]
    omega
  | succ count ih =>
    have hlt : idx.toUInt64 < tf.elemcount := by
      rw [UInt64.lt_iff_toNat_lt, UInt32.toNat_toUInt64]
      omega
    -- the rest of the elements, from any offset behind which there are some
    have hrest : ∀ off off', (count = 0 ∨ off = off') → Yields w deep (.fieldarray ti tf (idx + 1) off)
        (fieldElems w tf count off' (idx.toNat + 1)) (if tf.elemcount.toNat < 2 ^ 32 then .left
          else .lost {c | ∃ off, ∃ i : UInt32, tf.follow off i.toUInt64 = some c}) := by
      intro off off' hoff
      by_cases hend : idx.toNat + 1 = 2 ^ 32
      · -- the counter goes around
        have hzero : count = 0 := by omega
        have hbig : ¬ tf.elemcount.toNat < 2 ^ 32 := by omega
        rw [hzero, if_neg hbig]
        exact .lost (wanders_fieldarray ti (Nat.not_lt.mp hbig) _ _)
      · have hsucc : (idx + 1).toNat = idx.toNat + 1 := toNat_succ (by have := idx.toNat_lt; omega)
        have hy : ∀ off, Yields w deep (.fieldarray ti tf (idx + 1) off)
            (fieldElems w tf count off (idx + 1).toNat) _ := fun off => ih (by omega)
        rw [hsucc] at hy
        rcases hoff with rfl | rfl
        · exact hy off
        · exact hy off
    rw [fieldElems, ofNat_toNat_eq]
    rcases fillNext_fieldarray ti off hlt with ⟨hnew, hfill⟩ | ⟨new, hnew, hfill⟩
    · rw [hnew]
      exact .again hfill (hrest _ _ (Or.inr rfl))
    · rw [hnew]
      refine .create hfill (hrest _ _ ?_)
      split_ifs with hlast
      · exact Or.inr rfl
      · -- behind the last element the offset is not used
        have hone : (1 : UInt64).toNat = 1 := rfl
        have hle : (1 : UInt64) ≤ tf.elemcount := by
          rw [UInt64.le_iff_toNat_le]
          omega
        rw [UInt64.lt_iff_toNat_lt, UInt32.toNat_toUInt64, UInt64.toNat_sub_of_le _ _ hle] at hlast
        omega

/-! ### Ranges -/

/-- One round of `stkop_pointsto_next`. -/
theorem fillNext_pointsto (ti : T) {pt : Points T} {idx : UInt32} (hle : idx.toUInt64 ≤ pt.itMax) :
    (pt.follow idx.toUInt64 = none ∧
        fillNext w deep (.pointsto ti pt idx) = .again (.pointsto ti pt (idx + 1))) ∨
      ∃ new, pt.follow idx.toUInt64 = some new ∧
        fillNext w deep (.pointsto ti pt idx) = .create (.pointsto ti pt (idx + 1)) new := by
  rw [fillNext, if_pos hle]
  cases pt.follow idx.toUInt64 with
  | none => exact Or.inl ⟨rfl, rfl⟩
  | some new => exact Or.inr ⟨new, rfl, rfl⟩

theorem wanders_pointsto (ti : T) {pt : Points T} (hbig : 2 ^ 32 ≤ pt.itMax.toNat + 1) (idx : UInt32) :
    Wanders w deep {c | ∃ i : UInt32, pt.follow i.toUInt64 = some c} (.pointsto ti pt idx) := by
  refine ⟨fun fr => ∃ idx, fr = .pointsto ti pt idx, ⟨idx, rfl⟩, ?_⟩
  rintro _ ⟨idx, rfl⟩
  have hle : idx.toUInt64 ≤ pt.itMax := by
    have hidx := idx.toNat_lt
    rw [UInt64.le_iff_toNat_le, UInt32.toNat_toUInt64]
    omega
  rcases fillNext_pointsto ti hle with ⟨-, hfill⟩ | ⟨new, hnew, hfill⟩
  · exact Or.inl ⟨_, hfill, _, rfl⟩
  · exact Or.inr ⟨_, new, hfill, ⟨_, rfl⟩, idx, hnew⟩

theorem yields_pointsto (ti : T) {pt : Points T} {count : ℕ} {idx : UInt32}
    (hidx : idx.toNat + count = min (pt.itMax.toNat + 1) (2 ^ 32)) :
    Yields w deep (.pointsto ti pt idx)
      ((List.range' idx.toNat count).filterMap fun i => pt.follow (UInt64.ofNat i))
      (if pt.itMax.toNat + 1 < 2 ^ 32 then .left
        else .lost {c | ∃ i : UInt32, pt.follow i.toUInt64 = some c}) := by
  induction count generalizing idx with
  | zero =>
    have hlt := idx.toNat_lt
    have hsmall : pt.itMax.toNat + 1 < 2 ^ 32 := by omega
    rw [if_pos hsmall]
    refine .exit (if_neg ?_)
    rw [UInt64.le_iff_toNat_le, UInt32.toNat_toUInt64]
    omega
  | succ count ih =>
    have hle : idx.toUInt64 ≤ pt.itMax := by
      rw [UInt64.le_iff_toNat_le, UInt32.toNat_toUInt64]
      omega
    have hrest : Yields w deep (.pointsto ti pt (idx + 1))
        ((List.range' (idx.toNat + 1) count).filterMap fun i => pt.follow (UInt64.ofNat i))
        (if pt.itMax.toNat + 1 < 2 ^ 32 then .left
          else .lost {c | ∃ i : UInt32, pt.follow i.toUInt64 = some c}) := by
      by_cases hend : idx.toNat + 1 = 2 ^ 32
      · -- the counter goes around
        have hzero : count = 0 := by omega
        have hbig : ¬ pt.itMax.toNat + 1 < 2 ^ 32 := by omega
        rw [hzero, if_neg hbig]
        exact .lost (wanders_pointsto ti (Nat.not_lt.mp hbig) _)
      · have hsucc : (idx + 1).toNat = idx.toNat + 1 := toNat_succ (by have := idx.toNat_lt; omega)
        have hy : Yields w deep (.pointsto ti pt (idx + 1))
            ((List.range' (idx + 1).toNat count).filterMap fun i => pt.follow (UInt64.ofNat i)) _ :=
          ih (by omega)
        rwa [hsucc] at hy
    rw [List.range'_succ, List.filterMap_cons, ofNat_toNat_eq]
    rcases fillNext_pointsto ti hle with ⟨hnew, hfill⟩ | ⟨new, hnew, hfill⟩
    · rw [hnew]
      exact .again hfill hrest
    · rw [hnew]
      exact .create hfill hrest

/-! ### Virtual types -/

/-- One round of `stkop_virt_next`. -/
theorem fillNext_virt (ti : T) (vt : Virt T) (idx : UInt32) :
    (∃ new err, vt.follow idx = (some new, err) ∧
        fillNext w deep (.virt ti vt idx) = .create (.virt ti vt (idx + 1)) new) ∨
      (∃ err, vt.follow idx = (none, err) ∧ (err = .ok ∨ err = .badVerify) ∧
        fillNext w deep (.virt ti vt idx) = .again (.virt ti vt (idx + 1))) ∨
      ∃ err, vt.follow idx = (none, err) ∧ ¬ (err = .ok ∨ err = .badVerify) ∧
        fillNext w deep (.virt ti vt idx) = .exit := by
  rw [fillNext]
  cases hr : vt.follow idx with
  | mk new err =>
    cases new with
    | some new => exact Or.inl ⟨new, err, rfl, rfl⟩
    | none =>
      by_cases hgo : err = .ok ∨ err = .badVerify
      · exact Or.inr (Or.inl ⟨err, rfl, hgo, if_pos hgo⟩)
      · exact Or.inr (Or.inr ⟨err, rfl, hgo, if_neg hgo⟩)

theorem ends_eq_true_iff {new : Option T} {err : TiErr} :
    ends (new, err) = true ↔ new = none ∧ ¬ (err = .ok ∨ err = .badVerify) := by
  cases new <;> cases err <;> simp [ends]

theorem wanders_virt (ti : T) {vt : Virt T}
    (hend : ¬ ∃ m, m < 2 ^ 32 ∧ ends (vt.follow (UInt32.ofNat m)) = true) (idx : UInt32) :
    Wanders w deep {c | ∃ i err, vt.follow i = (some c, err)} (.virt ti vt idx) := by
  refine ⟨fun fr => ∃ idx, fr = .virt ti vt idx, ⟨idx, rfl⟩, ?_⟩
  rintro _ ⟨idx, rfl⟩
  rcases fillNext_virt ti vt idx with ⟨new, err, hr, hfill⟩ | ⟨err, -, -, hfill⟩ | ⟨err, hr, herr, -⟩
  · exact Or.inr ⟨_, new, hfill, ⟨_, rfl⟩, idx, err, hr⟩
  · exact Or.inl ⟨_, hfill, _, rfl⟩
  · refine absurd ⟨idx.toNat, idx.toNat_lt, ?_⟩ hend
    rw [UInt32.ofNat_toNat, hr]
    exact ends_eq_true_iff.mpr ⟨rfl, herr⟩

theorem yields_virt (ti : T) {vt : Virt T} {count : ℕ} {idx : UInt32}
    (hidx : idx.toNat + count = 2 ^ 32)
    (hbefore : ∀ m, m < idx.toNat → ends (vt.follow (UInt32.ofNat m)) = false) :
    Yields w deep (.virt ti vt idx) (virtElems vt count idx.toNat)
      (if ∃ m, m < 2 ^ 32 ∧ ends (vt.follow (UInt32.ofNat m)) = true then .left
        else .lost {c | ∃ i err, vt.follow i = (some c, err)}) := by
  induction count generalizing idx with
  | zero =>
    have hlt := idx.toNat_lt
    omega
  | succ count ih =>
    have hrest : ends (vt.follow idx) = false → Yields w deep (.virt ti vt (idx + 1))
        (virtElems vt count (idx.toNat + 1))
        (if ∃ m, m < 2 ^ 32 ∧ ends (vt.follow (UInt32.ofNat m)) = true then .left
          else .lost {c | ∃ i err, vt.follow i = (some c, err)}) := by
      intro hgo
      have hbefore' : ∀ m, m < idx.toNat + 1 → ends (vt.follow (UInt32.ofNat m)) = false := by
        intro m hm
        rcases Nat.eq_or_lt_of_le (Nat.le_of_lt_succ hm) with rfl | hlt
        · rw [UInt32.ofNat_toNat]
          exact hgo
        · exact hbefore m hlt
      by_cases hend : idx.toNat + 1 = 2 ^ 32
      · -- the counter goes around
        have hzero : count = 0 := by omega
        have hnone : ¬ ∃ m, m < 2 ^ 32 ∧ ends (vt.follow (UInt32.ofNat m)) = true := by
          rintro ⟨m, hm, hends⟩
          rw [hbefore' m (by omega)] at hends
          cases hends
        rw [hzero, if_neg hnone]
        exact .lost (wanders_virt ti hnone _)
      · have hsucc : (idx + 1).toNat = idx.toNat + 1 := toNat_succ (by have := idx.toNat_lt; omega)
        have hy : Yields w deep (.virt ti vt (idx + 1)) (virtElems vt count (idx + 1).toNat) _ :=
          ih (by omega) (by rw [hsucc]; exact hbefore')
        rwa [hsucc] at hy
    rw [virtElems, UInt32.ofNat_toNat]
    rcases fillNext_virt ti vt idx with ⟨new, err, hr, hfill⟩ | ⟨err, hr, hgo, hfill⟩ |
      ⟨err, hr, hstop, hfill⟩
    · rw [hr] at hrest ⊢
      exact .create hfill (hrest rfl)
    · rw [hr] at hrest ⊢
      dsimp only
      rw [if_pos hgo]
      refine .again hfill (hrest ?_)
      rw [Bool.eq_false_iff, Ne, ends_eq_true_iff]
      exact fun h => h.2 hgo
    · have hexists : ∃ m, m < 2 ^ 32 ∧ ends (vt.follow (UInt32.ofNat m)) = true := by
        refine ⟨idx.toNat, idx.toNat_lt, ?_⟩
        rw [UInt32.ofNat_toNat, hr]
        exact ends_eq_true_iff.mpr ⟨rfl, hstop⟩
      rw [hr, if_pos hexists]
      dsimp only
      rw [if_neg hstop]
      exact .exit hfill

end Fsl.ScanType
