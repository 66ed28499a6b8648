import Fsl.Compiler.ParamBufRoundTrip

/-!
# Following an iterator

A points-to, selection or choice iterator names instances of a destination type. The compiler emits
its `it_range`, which leaves the parameters of the instance in a buffer of the caller; the runtime
makes that buffer in `typeinfo_follow_pointsto` and `typeinfo_follow_iter`.
-/

namespace Fsl.ParamBuf

variable {Γ : Types}

/-- A type whose argument lists have distinct names. -/
structure UserType (Γ : Types) where
  name : String
  ty : Ty
  find : Γ.find name = some ty
  names : ((ty.args.getD []).map Prod.snd).Nodup

/-- `tt_param_c` -/
def UserType.paramC (t : UserType Γ) : ℕ := Γ.getParamBufEntryCount t.name

/-- `InstanceIter` and the functions it is compiled to. The lookup returns a closure behind whose
buffer pointer the words of the destination type can be read; a cast gives the arguments of the
destination type instead. -/
structure InstanceIter (Γ : Types) where
  dst : UserType Γ
  itMin : Closure → UInt64
  itMax : Closure → UInt64
  lookup : Closure → UInt64 → Closure
  readable : ∀ clo idx, dst.paramC ≤ (lookup clo idx).params.length
  dstCast : Option (Closure → UInt64 → List Val)
  typed : ∀ e ∈ dstCast, ∀ clo idx, Typed Γ (dst.ty.args.getD []) (e clo idx)

/-- What a `type_desc` holds. -/
structure TypeDesc where
  typenum : String
  clo : Closure
  deriving DecidableEq, Repr

namespace InstanceIter

variable (it : InstanceIter Γ)

/-- `iter_is_ok` -/
def isOk (clo : Closure) : Bool := it.itMin clo != -1 && !(it.itMax clo < it.itMin clo)

/-- The function that `genCodeLookup` emits: the buffer, the offset and the translation handle;
`none` where a store leaves the buffer. -/
def itRange (clo : Closure) (idx : UInt64) (parambuf : List UInt64) :
    Option (List UInt64 × UInt64 × UInt64) := do
  let ret := it.lookup clo idx
  match it.dstCast with
  | none =>
    let out ← memcpy64 parambuf 0 ret.params it.dst.paramC
    return (out, ret.offset, ret.xlate)
  | some exprs =>
    let (out, _) ← storeExprListIntoParamBuf Γ (it.dst.ty.args.getD []) (exprs clo idx) parambuf
    return (out, ret.offset, ret.xlate)

end InstanceIter

/-- The buffer on the stack, with as many words as the type of the parent has parameters. -/
def parambuf (parent : UserType Γ) (junk : ℕ → UInt64) : List UInt64 :=
  (List.range parent.paramC).map junk

/-- `typeinfo_follow_iter`, up to the description it allocates an instance from. -/
def typeinfoFollowIter (parent : UserType Γ) (clo : Closure) (it : InstanceIter Γ) (idx : UInt64)
    (junk : ℕ → UInt64) : Option TypeDesc := do
  let (params, diskoff, xlate) ← it.itRange clo idx (parambuf parent junk)
  return ⟨it.dst.name, diskoff, params, xlate⟩

/-- `typeinfo_follow_pointsto`, up to the description; `some none` is the `NULL` of an iterator with
nothing to point to. -/
def typeinfoFollowPointsto (parent : UserType Γ) (clo : Closure) (it : InstanceIter Γ)
    (idx : UInt64) (junk : ℕ → UInt64) : Option (Option TypeDesc) :=
  if it.isOk clo then do
    let (params, offset, xlate) ← it.itRange clo idx (parambuf parent junk)
    return some ⟨it.dst.name, offset, params, xlate⟩
  else some none

/-! ## When the buffer is large enough -/

theorem length_parambuf (parent : UserType Γ) (junk : ℕ → UInt64) :
    (parambuf parent junk).length = parent.paramC := by
  rw [parambuf, List.length_map, List.length_range]

theorem UserType.paramC_eq (t : UserType Γ) :
    t.paramC = ((t.ty.args.getD []).map (elemsStored Γ)).sum := by
  cases h : t.ty.args with
  | none =>
    rw [paramC, getParamBufEntryCount_of_args_none t.find h]
    rfl
  | some as =>
    have hnodup := t.names
    rw [h, Option.getD_some] at hnodup
    rw [paramC, getParamBufEntryCount_of_args t.find h, getNumParamBufEntries_of_nodup hnodup,
      startIdx, List.take_length]
    rfl

theorem store_eq_some {buf b : List UInt64} {i : ℕ} {v : UInt64} (h : store buf i v = some b) :
    i < buf.length ∧ b.length = buf.length := by
  rw [store] at h
  split at h
  · next hi =>
    cases h
    exact ⟨hi, List.length_set⟩
  · cases h

/-- A value that is stored without a fault fits. -/
theorem le_length_of_storeExpr {arg : String × String} {v : Val} (hv : v.HasType Γ arg.1)
    {buf : List UInt64} {pbIdx : ℕ} {r : List UInt64 × ℕ}
    (hr : storeExprIntoParamBuf Γ arg v buf pbIdx = some r) :
    pbIdx + elemsStored Γ arg ≤ buf.length := by
  cases v with
  | scalar v =>
    have hfind : Γ.find arg.1 = none := hv
    simp only [storeExprIntoParamBuf, hfind, Option.bind_eq_bind] at hr
    obtain ⟨b, hb, -⟩ := Option.bind_eq_some_iff.mp hr
    have hlt := (store_eq_some hb).1
    rw [elemsStored, hfind]
    exact hlt
  | closure c =>
    obtain ⟨t, ht⟩ := Option.isSome_iff_exists.mp hv.1
    have helems : elemsStored Γ arg = Γ.getParamBufEntryCount arg.1 + 2 := by rw [elemsStored, ht]
    simp only [storeExprIntoParamBuf, ht, storeClosureIntoParamBuf, Option.bind_eq_bind] at hr
    obtain ⟨b, hb, -⟩ := Option.bind_eq_some_iff.mp hr
    obtain ⟨b₁, hb₁, hb⟩ := Option.bind_eq_some_iff.mp hb
    obtain ⟨b₂, hb₂, hb⟩ := Option.bind_eq_some_iff.mp hb
    obtain ⟨-, hlen₁⟩ := store_eq_some hb₁
    obtain ⟨hlt, hlen₂⟩ := store_eq_some hb₂
    cases hargs : t.args with
    | none =>
      rw [helems, getParamBufEntryCount_of_args_none ht hargs]
      omega
    | some as =>
      simp only [hargs, memcpy64] at hb
      split at hb
      · next hfit =>
        obtain ⟨-, hle⟩ := hfit
        omega
      · cases hb

/-- The stores of the encoder all lie inside the buffer only if the words of the values fit. -/
theorem le_length_of_storeExprs {args : ArgsList} {vs : List Val} (h : Typed Γ args vs)
    {buf : List UInt64} {pbIdx : ℕ} {r : List UInt64 × ℕ} (hpb : pbIdx ≤ buf.length)
    (hr : storeExprs Γ args vs buf pbIdx = some r) :
    pbIdx + (args.map (elemsStored Γ)).sum ≤ buf.length := by
  induction h generalizing buf pbIdx with
  | nil => simpa using hpb
  | @cons arg v args vs hv _ ih =>
    rw [storeExprs, Option.bind_eq_bind] at hr
    obtain ⟨b, hb, hr⟩ := Option.bind_eq_some_iff.mp hr
    have hfit := le_length_of_storeExpr hv hb
    rw [storeExprIntoParamBuf_eq hv hfit] at hb
    cases hb
    have hlen : (buf.overwrite pbIdx v.words).length = buf.length :=
      List.length_overwrite (by rwa [hv.length_words])
    have hrest := ih (by rwa [hlen]) hr
    rw [hlen] at hrest
    rw [List.map_cons, List.sum_cons]
    omega

/-- `it_range` stays inside the buffer exactly when the parameters of its destination type fit. -/
theorem itRange_isSome_iff (it : InstanceIter Γ) (clo : Closure) (idx : UInt64)
    (buf : List UInt64) : (it.itRange clo idx buf).isSome ↔ it.dst.paramC ≤ buf.length := by
  cases hcast : it.dstCast with
  | none =>
    have hread := it.readable clo idx
    simp only [InstanceIter.itRange, hcast, memcpy64]
    split
    · next h => simpa using h.2
    · next h => simpa [hread] using h
  | some exprs =>
    have htyped := it.typed exprs (by rw [hcast]; rfl) clo idx
    simp only [InstanceIter.itRange, hcast, storeExprListIntoParamBuf]
    rw [it.dst.paramC_eq]
    constructor
    · intro h
      obtain ⟨r, hr⟩ := Option.isSome_iff_exists.mp h
      obtain ⟨b, hb, -⟩ := Option.bind_eq_some_iff.mp hr
      have hle := le_length_of_storeExprs htyped (Nat.zero_le _) hb
      rwa [Nat.zero_add] at hle
    · intro h
      rw [storeExprs_eq htyped (by rwa [Nat.zero_add])]
      rfl

theorem typeinfoFollowIter_isSome_iff (parent : UserType Γ) (clo : Closure) (it : InstanceIter Γ)
    (idx : UInt64) (junk : ℕ → UInt64) :
    (typeinfoFollowIter parent clo it idx junk).isSome ↔ it.dst.paramC ≤ parent.paramC := by
  rw [← length_parambuf parent junk, ← itRange_isSome_iff it clo idx, typeinfoFollowIter]
  cases it.itRange clo idx (parambuf parent junk) <;> rfl

theorem typeinfoFollowPointsto_isSome_iff (parent : UserType Γ) {clo : Closure}
    {it : InstanceIter Γ} (hok : it.isOk clo) (idx : UInt64) (junk : ℕ → UInt64) :
    (typeinfoFollowPointsto parent clo it idx junk).isSome ↔ it.dst.paramC ≤ parent.paramC := by
  rw [← length_parambuf parent junk, ← itRange_isSome_iff it clo idx, typeinfoFollowPointsto,
    if_pos hok]
  cases it.itRange clo idx (parambuf parent junk) <;> rfl

/-- For an instance of the parent's type, the buffer that is handed to `it_range` has the slots of the
destination type, and whichever of the two functions follows the iterator, no store leaves it. -/
def BufferSuffices (parent : UserType Γ) (clo : Closure) (it : InstanceIter Γ) : Prop :=
  ∀ idx junk, it.dst.paramC ≤ (parambuf parent junk).length ∧
    (typeinfoFollowIter parent clo it idx junk).isSome ∧
    (typeinfoFollowPointsto parent clo it idx junk).isSome

/-- The buffer is made for the parameters of the parent, so it suffices exactly when the destination
takes no more of them; where it takes more, following the iterator always faults. -/
theorem bufferSuffices_iff_paramC_le (parent : UserType Γ) (clo : Closure) (it : InstanceIter Γ) :
    (BufferSuffices parent clo it ↔ it.dst.paramC ≤ parent.paramC) ∧
      ∀ idx junk, (typeinfoFollowIter parent clo it idx junk).isSome →
        it.dst.paramC ≤ parent.paramC := by
  refine ⟨⟨fun h => ?_, fun h idx junk => ⟨?_, ?_, ?_⟩⟩, fun idx junk => ?_⟩
  · obtain ⟨-, hiter, -⟩ := h 0 (fun _ => 0)
    exact (typeinfoFollowIter_isSome_iff parent clo it _ _).mp hiter
  · rwa [length_parambuf]
  · exact (typeinfoFollowIter_isSome_iff parent clo it idx junk).mpr h
  · cases hok : it.isOk clo with
    | true => exact (typeinfoFollowPointsto_isSome_iff parent hok idx junk).mpr h
    | false =>
      rw [typeinfoFollowPointsto, hok]
      rfl
  · exact (typeinfoFollowIter_isSome_iff parent clo it idx junk).mp

/-! ## The root inode of minix -/

/-- `type disk` and `type minix_inode(int ino)` -/
def minixTypes : Types where
  find n := if n = "disk" then some ⟨none⟩ else
    if n = "minix_inode" then some ⟨some [("int", "ino")]⟩ else none
  rank n := if n = "minix_inode" then 1 else 0
  acyclic := by
    intro n t as a hn hargs ha hsome
    split at hn
    · obtain rfl := Option.some.inj hn
      cases hargs
    · split at hn
      · obtain rfl := Option.some.inj hn
        obtain rfl := Option.some.inj hargs
        obtain rfl := List.mem_singleton.mp ha
        exact absurd hsome (by decide)
      · cases hn

def minixDisk : UserType minixTypes where
  name := "disk"
  ty := ⟨none⟩
  find := rfl
  names := by decide

def minixInode : UserType minixTypes where
  name := "minix_inode"
  ty := ⟨some [("int", "ino")]⟩
  find := rfl
  names := by decide

theorem paramC_minixDisk : minixDisk.paramC = 0 := getParamBufEntryCount_of_args_none rfl rfl

theorem paramC_minixInode : minixInode.paramC = 1 := by
  rw [minixInode.paramC_eq]
  rfl

/-- `points_if(get_version() == MINIX_V1, get_inode_v1(MINIX_ROOT_INO)) as rootino`: one inode, with
its number as parameter. -/
def rootino : InstanceIter minixTypes where
  dst := minixInode
  itMin _ := 1
  itMax _ := 1
  lookup _ _ := ⟨8 * 4096, [1], 0⟩
  readable _ _ := by
    rw [paramC_minixInode]
    decide
  dstCast := none
  typed := by simp

theorem not_bufferSuffices_rootino : ¬ BufferSuffices minixDisk ⟨0, [], 0⟩ rootino := by
  rw [BufferSuffices]
  intro h
  obtain ⟨hle, -, -⟩ := h 1 (fun _ => 0)
  rw [length_parambuf, paramC_minixDisk] at hle
  change minixInode.paramC ≤ 0 at hle
  rw [paramC_minixInode] at hle
  omega

end Fsl.ParamBuf
