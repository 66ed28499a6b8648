import Fsl.Runtime.NodesOwned

/-!
# What is in memory

Where a client owns nodes and nothing else, the memory is made up of these nodes, the type infos that they
point to, those that these were reached from and their mappings; besides, searches by name may have left
buffers behind.
-/

namespace Fsl.Nodes

open TypeInfo Children Owned

variable {V : Type} {t : ℕ}

variable {m : Mem V} {T : Multiset (Res V)}

/-- The count of a type info: the references that are owned and the type infos reached from it. -/
theorem Owns.refC_eq (hm : Owns m T) {x : Ti} (hx : m.heap.ti t = some x) :
    (x.refC : ℕ∞) = (refs T).count t + (children m.heap t).encard := by
  obtain ⟨s, hi⟩ := hm.heap
  exact hi.ti_refC_eq hx

/-- The type infos in memory are those that are owned and those that they were reached from. -/
theorem Owns.ti_iff (hm : Owns m T) (t : ℕ) :
    m.heap.ti t ≠ none ↔ ∃ u ∈ refs T, Anc m.heap.ti u t := by
  obtain ⟨s, hi⟩ := hm.heap
  exact hi.ti_iff t

/-- The count of a mapping: the type infos that use it and the mappings that are stacked on it. -/
theorem Owns.rtm_refC_eq (hm : Owns m T) {r : ℕ} {k : Rtm V} (hk : m.heap.rtm r = some k) :
    (k.refC : ℕ∞) = (users m.heap r).encard + {b | Stacked m.heap b r}.encard := by
  obtain ⟨s, hi⟩ := hm.heap
  exact hi.rtm_refC_eq hk

/-- A mapping in memory is that of a type info in memory. -/
theorem Owns.exists_user (hm : Owns m T) {r : ℕ} (hr : m.heap.rtm r ≠ none) :
    ∃ a x, m.heap.ti a = some x ∧ x.td.clo.xlate = some r := by
  obtain ⟨s, hi⟩ := hm.heap
  obtain ⟨a, x, -, hx, hxr⟩ := hi.exists_user (rtm_not_mem _ r) (hi.live_of_rtm hr)
  exact ⟨a, x, hx, hxr⟩

/-! ## The buffers for names -/

section NameBufs

variable {U : Multiset Unit} {α : Type} (E : Tables V)

/-- The buffers for names are those of `U`. -/
def Bufs (m : Mem V) (U : Multiset Unit) : Prop := m.nameBufs = Multiset.card U

/-- The code leaves the buffers alone, if it returns. -/
abbrev Quiet (c : Client V α) : Prop :=
  ∀ U, Triple Bufs (fun _ : Fail => True) U c fun _ U' => U' = U

theorem quiet_pure (x : α) : Quiet (pure x : Client V α) := fun _ => .pure rfl

theorem quiet_bind {β : Type} {c : Client V α} {f : α → Client V β} (hc : Quiet c)
    (hf : ∀ x, Quiet (f x)) : Quiet (c >>= f) := fun U => (hc U).bind_eq fun x => hf x U

theorem quiet_ite {p : Prop} [Decidable p] {c c' : Client V α} (hc : Quiet c) (hc' : Quiet c') :
    Quiet (if p then c else c') := by
  split
  · exact hc
  · exact hc'

theorem quiet_onHeap (c : M V α) : Quiet (onHeap c) := by
  intro U rest m hm
  unfold onHeap
  cases hc : c m.heap with
  | ok r => exact Or.inl ⟨r.1, { m with heap := r.2 }, U, rfl, rfl, hm⟩
  | error e => cases e <;> exact Or.inr ⟨_, rfl, trivial⟩

theorem quiet_check (p : Prop) [Decidable p] : Quiet (check p : Client V Unit) :=
  quiet_ite (quiet_pure ()) fun _ => .throw trivial

theorem quiet_followFieldIdx (tf : Field V) (idx : UInt64) : Quiet (followFieldIdx E t tf idx) := by
  refine quiet_bind (quiet_bind (quiet_onHeap _) fun _ => quiet_pure _) fun _ => ?_
  exact quiet_bind (quiet_onHeap _) fun _ => quiet_onHeap _

theorem quiet_followPointsto (pt : PointsTo V) (idx : UInt64) :
    Quiet (followPointsto E t pt idx) := by
  refine quiet_bind (quiet_onHeap _) fun _ => quiet_ite (quiet_pure _) ?_
  exact quiet_bind (quiet_check _) fun _ => quiet_onHeap _

theorem quiet_getname (len : ℕ) : Quiet (getname E t len) := by
  refine quiet_bind ?_ fun res => ?_
  · refine quiet_bind (quiet_onHeap _) fun tt => ?_
    cases E.lookupField tt nameField with
    | some tf =>
      refine quiet_ite (quiet_pure _) (quiet_bind (quiet_onHeap _) fun _ => ?_)
      exact quiet_ite (quiet_pure _) (quiet_followFieldIdx E tf 0)
    | none =>
      cases E.lookupPoints tt nameField with
      | some pt => exact quiet_bind (quiet_onHeap _) fun _ => quiet_followPointsto E pt _
      | none =>
        cases E.lookupVirt tt nameField with
        | some vt => exact quiet_bind (quiet_onHeap _) fun _ => quiet_pure _
        | none => exact quiet_pure _
  · cases res with
    | none => exact quiet_pure _
    | some nameTi =>
      refine quiet_bind (quiet_bind (quiet_onHeap _) fun _ => quiet_bind (quiet_onHeap _) fun _ =>
        quiet_pure _) fun _ => ?_
      exact quiet_bind (quiet_onHeap _) fun _ => quiet_bind (quiet_onHeap _) fun _ => quiet_pure _

theorem quiet_searchName {inRange : UInt64 → Bool} {follow : UInt64 → Client V (Option ℕ × TiErr)}
    (hfollow : ∀ idx, Quiet (follow idx)) (name : List UInt8) (turns : ℕ) (idx : UInt64) :
    Quiet (searchName E inRange follow name turns idx) := by
  induction turns generalizing idx with
  | zero => exact fun _ => .throw trivial
  | succ turns ih =>
    rw [searchName]
    refine quiet_ite (quiet_pure _) (quiet_bind (hfollow idx) fun r => ?_)
    cases r.1 with
    | none => exact quiet_ite (ih _) (quiet_pure _)
    | some ret =>
      refine quiet_bind (quiet_getname E 255) fun _ => quiet_ite (quiet_pure _) ?_
      exact quiet_bind (quiet_onHeap _) fun _ => ih _

theorem triple_bufs_alloc : Triple Bufs (fun _ : Fail => True) U (nameBufAlloc : Client V Unit)
    fun _ U' => U' = () ::ₘ U := by
  intro rest m hm
  refine Or.inl ⟨(), { m with nameBufs := m.nameBufs + 1 }, _, rfl, rfl, ?_⟩
  rw [Bufs, Multiset.cons_add, Multiset.card_cons, ← show m.nameBufs = _ from hm]

theorem triple_bufs_free : Triple Bufs (fun _ : Fail => True) (() ::ₘ U) (nameBufFree : Client V Unit)
    fun _ U' => U' = U := by
  intro rest m hm
  refine Or.inl ⟨(), { m with nameBufs := m.nameBufs - 1 }, U, rfl, rfl, ?_⟩
  rw [Bufs, Multiset.cons_add, Multiset.card_cons] at hm
  show m.nameBufs - 1 = _
  rw [hm, Nat.add_sub_cancel]

/-- What a search by name leaves of its buffer. -/
def leftBuf (p : Prop) [Decidable p] (U : Multiset Unit) : Multiset Unit := if p then () ::ₘ U else U

theorem triple_freeAfter {p : Prop} [Decidable p] (hp : ¬ p) {c : Client V (Option ℕ)} (hc : Quiet c) :
    Triple Bufs (fun _ : Fail => True) (() ::ₘ U) (do let ret ← c; nameBufFree; return ret)
      fun _ U' => U' = leftBuf p U := by
  rw [leftBuf, if_neg hp]
  exact (hc _).bind_eq fun _ => triple_bufs_free.bind_eq fun _ => .pure rfl

variable {E} {turns : ℕ} {name : List UInt8} {m m' : Mem V} {r : Option ℕ}

/-- The number of buffers after code that returns. -/
theorem nameBufs_of_triple {p : Prop} [Decidable p] {c : Client V (Option ℕ)}
    (hc : ∀ U, Triple Bufs (fun _ : Fail => True) U c fun _ U' => U' = leftBuf p U)
    (hrun : c m = .ok (r, m')) : m'.nameBufs = m.nameBufs + if p then 1 else 0 := by
  have hstart : Bufs m (Multiset.replicate m.nameBufs () + 0) := by simp [Bufs]
  rcases hc _ 0 m hstart with ⟨r', m'', U', hrun', rfl, hm'⟩ | ⟨e, hrun', -⟩
  · obtain rfl : m' = m'' := congrArg Prod.snd (Except.ok.inj (hrun.symm.trans hrun'))
    rw [show m'.nameBufs = _ from hm', leftBuf]
    split <;> simp
  · rw [hrun] at hrun'
    cases hrun'

/-- The searches leave a buffer behind exactly where the elements have no field `name`. -/
theorem nameBufs_followNameTf {tf : Field V} (hrun : followNameTf E turns t tf name m = .ok (r, m')) :
    m'.nameBufs = m.nameBufs +
      if tf.typenum = typenumInvalid ∨ E.lookupHas tf.typenum nameField = false then 1 else 0 := by
  refine nameBufs_of_triple (fun U => ?_) hrun
  refine triple_bufs_alloc.bind_eq fun _ => ?_
  split_ifs with hprim hhas
  · exact .pure (if_pos (Or.inl hprim)).symm
  · exact .pure (if_pos (Or.inr hhas)).symm
  · refine (quiet_onHeap _ _).bind_eq fun w => ?_
    exact triple_freeAfter (not_or.mpr ⟨hprim, hhas⟩) (quiet_searchName E (fun idx =>
      quiet_bind (quiet_followFieldIdx E tf idx) fun _ => quiet_pure _) name turns 0)

theorem nameBufs_followNamePt {pt : PointsTo V}
    (hrun : followNamePt E turns t pt name m = .ok (r, m')) :
    m'.nameBufs = m.nameBufs + if E.lookupHas pt.iter.typeDst nameField = false then 1 else 0 := by
  refine nameBufs_of_triple (fun U => ?_) hrun
  refine triple_bufs_alloc.bind_eq fun _ => ?_
  split_ifs with hhas
  · exact .pure (if_pos hhas).symm
  · refine (quiet_onHeap _ _).bind_eq fun w => ?_
    split_ifs
    · exact triple_bufs_free.bind_eq fun _ => .pure (if_neg hhas).symm
    · exact triple_freeAfter hhas (quiet_searchName E (fun idx =>
        quiet_bind (quiet_followPointsto E pt idx) fun _ => quiet_pure _) name turns _)

theorem nameBufs_followNameVt {vt : V} (hrun : followNameVt E turns t vt name m = .ok (r, m')) :
    m'.nameBufs = m.nameBufs + if E.lookupHas (E.virttype vt) nameField = false then 1 else 0 := by
  refine nameBufs_of_triple (fun U => ?_) hrun
  refine triple_bufs_alloc.bind_eq fun _ => ?_
  split_ifs with hhas
  · exact .pure (if_pos hhas).symm
  · refine (quiet_onHeap _ _).bind_eq fun w => ?_
    split_ifs
    · exact triple_bufs_free.bind_eq fun _ => .pure (if_neg hhas).symm
    · exact triple_freeAfter hhas (quiet_searchName E (fun _ => quiet_onHeap _) name turns _)

end NameBufs

/-! ## Nodes that are kept -/

/-- Nodes with their references. -/
def wholes (nodes : Multiset (ℕ × Node V)) : Multiset (Res V) := nodes.bind fun p => whole p.1 p.2

theorem wholes_cons (p : ℕ × Node V) (nodes : Multiset (ℕ × Node V)) :
    wholes (p ::ₘ nodes) = whole p.1 p.2 + wholes nodes := Multiset.cons_bind _ _ _

theorem refs_held (l : List ℕ) : refs (held l : Multiset (Res V)) = l := by
  induction l with
  | nil => rfl
  | cons t l ih =>
    have hcons : (held (t :: l) : Multiset (Res V)) = .ref t ::ₘ held l := rfl
    rw [hcons, refs_ref, ih, Multiset.cons_coe]

theorem mems_held (l : List ℕ) : mems (held l : Multiset (Res V)) = 0 := by
  induction l with
  | nil => rfl
  | cons t l ih =>
    have hcons : (held (t :: l) : Multiset (Res V)) = .ref t ::ₘ held l := rfl
    rw [hcons, mems_ref, ih]

variable {nodes : Multiset (ℕ × Node V)} {files : Multiset ℕ}

theorem refs_wholes : refs (wholes nodes) = nodes.bind fun p => (p.2.tis : Multiset ℕ) := by
  induction nodes using Multiset.induction_on with
  | empty => rfl
  | cons p nodes ih => rw [wholes_cons, refs_add, ih, whole, refs_mem, refs_held, Multiset.cons_bind]

theorem mems_wholes : mems (wholes nodes) = nodes := by
  induction nodes using Multiset.induction_on with
  | empty => rfl
  | cons p nodes ih =>
    rw [wholes_cons, mems_add, ih, whole, mems_mem, mems_held, Multiset.cons_add, zero_add]

theorem whole_le {p : ℕ × Node V} (hp : p ∈ nodes) : whole p.1 p.2 ≤ wholes nodes := by
  obtain ⟨rest, rfl⟩ := Multiset.exists_cons_of_mem hp
  rw [wholes_cons]
  exact Multiset.le_add_right _ _

/-- Nodes at `files` that are filled in. -/
def Leaves (files : Multiset ℕ) (U : Multiset (Res V)) : Prop :=
  ∃ nodes : Multiset (ℕ × Node V), nodes.map Prod.fst = files ∧ (∀ p ∈ nodes, p.2.tis ≠ []) ∧
    U = wholes nodes

/-- Nothing is owned but nodes at `files`. -/
def Keeps (m : Mem V) (files : Multiset ℕ) : Prop := ∃ U, Leaves files U ∧ Owns m U

/-- The references of the nodes at `files`. -/
def refsAt (m : Mem V) (files : Multiset ℕ) : Multiset ℕ :=
  files.bind fun a => (((m.node a).elim [] Node.tis : List ℕ) : Multiset ℕ)

/-- The nodes, type infos and mappings in memory are those of the nodes at `files`: each of these once, with
the type infos that they refer to and those that these were reached from, and the mappings of these, all
with exact counts. -/
structure Exact (m : Mem V) (files : Multiset ℕ) : Prop where
  nodup : files.Nodup
  node_iff : ∀ a, m.node a ≠ none ↔ a ∈ files
  filled : ∀ a n, m.node a = some n → n.tis ≠ []
  ti_iff : ∀ t, m.heap.ti t ≠ none ↔ ∃ u ∈ refsAt m files, Anc m.heap.ti u t
  refC_eq : ∀ t x, m.heap.ti t = some x →
    (x.refC : ℕ∞) = (refsAt m files).count t + (children m.heap t).encard
  used : ∀ r, m.heap.rtm r ≠ none → ∃ a x, m.heap.ti a = some x ∧ x.td.clo.xlate = some r
  rtm_refC_eq : ∀ r k, m.heap.rtm r = some k →
    (k.refC : ℕ∞) = (users m.heap r).encard + {b | Stacked m.heap b r}.encard

theorem refs_eq_refsAt (hm : Owns m (wholes nodes)) :
    refs (wholes nodes) = refsAt m (nodes.map Prod.fst) := by
  rw [refs_wholes, refsAt, Multiset.bind_map]
  refine Multiset.bind_congr fun p hp => ?_
  have hnode : m.node p.1 = some p.2 := (hm.node p.1 p.2).mpr (by rwa [mems_wholes])
  rw [hnode, Option.elim_some]

theorem Keeps.exact (hk : Keeps m files) : Exact m files := by
  obtain ⟨_, ⟨nodes, rfl, hfilled, rfl⟩, hm⟩ := hk
  have hnode : ∀ a n, m.node a = some n ↔ (a, n) ∈ nodes := fun a n => by rw [hm.node, mems_wholes]
  have hrefs := refs_eq_refsAt hm
  constructor
  · simpa only [mems_wholes] using hm.nodup
  · intro a
    rw [Option.ne_none_iff_exists', Multiset.mem_map]
    constructor
    · rintro ⟨n, hn⟩
      exact ⟨(a, n), (hnode a n).mp hn, rfl⟩
    · rintro ⟨p, hp, rfl⟩
      exact ⟨p.2, (hnode p.1 p.2).mpr hp⟩
  · exact fun a n hn => hfilled (a, n) ((hnode a n).mp hn)
  · intro t
    rw [hm.ti_iff, hrefs]
  · intro t x hx
    rw [hm.refC_eq hx, hrefs]
  · exact fun r hr => hm.exists_user hr
  · exact fun r k hk => hm.rtm_refC_eq hk

/-- Where no node is kept the memory is empty. -/
theorem Exact.empty (he : Exact m 0) :
    (∀ a, m.node a = none) ∧ (∀ t, m.heap.ti t = none) ∧ ∀ r, m.heap.rtm r = none := by
  have hti : ∀ t, m.heap.ti t = none := fun t => by
    by_contra hne
    obtain ⟨u, hu, -⟩ := (he.ti_iff t).mp hne
    exact Multiset.notMem_zero u hu
  refine ⟨fun a => ?_, hti, fun r => ?_⟩
  · by_contra hne
    exact Multiset.notMem_zero a ((he.node_iff a).mp hne)
  · by_contra hne
    obtain ⟨a, x, hx, -⟩ := he.used r hne
    rw [hti a] at hx
    cases hx

/-- Memory in which nothing has been allocated. -/
def Mem.start : Mem V := ⟨⟨fun _ => none, fun _ => none, 0⟩, fun _ => none, 0, 0⟩

theorem keeps_start : Keeps (Mem.start : Mem V) 0 := by
  refine ⟨0, ⟨0, rfl, fun p hp => absurd hp (Multiset.notMem_zero p), rfl⟩, ?_⟩
  constructor
  · refine ⟨⟨∅, fun _ => 0, fun _ => 0⟩, ?_⟩
    constructor
    · constructor <;> simp [refs]
    all_goals simp [Mem.start]
  all_goals simp [mems, Mem.start]

end Fsl.Nodes
