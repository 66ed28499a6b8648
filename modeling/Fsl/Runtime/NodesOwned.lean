import Fsl.Lib.Owned
import Fsl.Runtime.Nodes

/-!
# Who owns nodes and references

A client owns references to type infos and nodes. In every memory the counts of the type infos are those
of the references that are owned, and the nodes are those that are owned, each once.
-/

namespace Fsl.Nodes

open TypeInfo Children Owned

variable {V : Type}

/-- What a client may own: a reference to a type info, or the memory of a node. -/
inductive Res (V : Type)
  | ref (t : ℕ)
  | mem (a : ℕ) (n : Node V)

def Res.ti : Res V → Option ℕ
  | .ref t => some t
  | .mem _ _ => none

def Res.place : Res V → Option (ℕ × Node V)
  | .ref _ => none
  | .mem a n => some (a, n)

/-- The type infos that the references are to. -/
def refs (T : Multiset (Res V)) : Multiset ℕ := T.filterMap Res.ti

/-- The nodes. -/
def mems (T : Multiset (Res V)) : Multiset (ℕ × Node V) := T.filterMap Res.place

/-- All that is owned, by anyone. -/
structure Owns (m : Mem V) (T : Multiset (Res V)) : Prop where
  heap : ∃ s, Inv m.heap s ((refs T).map .ti) ∅
  node : ∀ a n, m.node a = some n ↔ (a, n) ∈ mems T
  nodup : ((mems T).map Prod.fst).Nodup
  lt_next : ∀ p ∈ mems T, p.1 < m.next

section Refs

variable (T U : Multiset (Res V)) (t a : ℕ) (n : Node V)

@[simp] theorem refs_ref : refs (.ref t ::ₘ T) = t ::ₘ refs T := Multiset.filterMap_cons_some _ _ _ rfl

@[simp] theorem refs_mem : refs (.mem a n ::ₘ T) = refs T := Multiset.filterMap_cons_none _ _ rfl

@[simp] theorem mems_ref : mems (.ref t ::ₘ T) = mems T := Multiset.filterMap_cons_none _ _ rfl

@[simp] theorem mems_mem : mems (.mem a n ::ₘ T) = (a, n) ::ₘ mems T :=
  Multiset.filterMap_cons_some _ _ _ rfl

@[simp] theorem refs_add : refs (T + U) = refs T + refs U := Multiset.filterMap_add _ _ _

@[simp] theorem mems_add : mems (T + U) = mems T + mems U := Multiset.filterMap_add _ _ _

end Refs

theorem mem_refs {T : Multiset (Res V)} {t : ℕ} : t ∈ refs T ↔ .ref t ∈ T := by
  rw [refs, Multiset.mem_filterMap]
  constructor
  · rintro ⟨r, hr, heq⟩
    cases r with
    | ref t' => exact Option.some.inj heq ▸ hr
    | mem a n => cases heq
  · exact fun hr => ⟨_, hr, rfl⟩

theorem mem_mems {T : Multiset (Res V)} {a : ℕ} {n : Node V} : (a, n) ∈ mems T ↔ .mem a n ∈ T := by
  rw [mems, Multiset.mem_filterMap]
  constructor
  · rintro ⟨r, hr, heq⟩
    cases r with
    | ref t => cases heq
    | mem b k =>
      cases heq
      exact hr
  · exact fun hr => ⟨_, hr, rfl⟩

variable {stops : Fail → Prop} {P : Multiset (Res V)} {α : Type}

/-! ## Code of type infos -/

theorem rtm_not_mem (tok : Multiset ℕ) (r : ℕ) : .rtm r ∉ tok.map Obj.ti := by simp

/-- Code that leaves the nodes alone. -/
theorem triple_onHeap {c : M V α} {T : α → Multiset (Res V)} (hmem : ∀ a, mems (T a) = mems P)
    (hc : ∀ h s tok, (∀ r, .rtm r ∉ tok) → Inv h s ((refs P).map .ti + tok) ∅ →
      ∃ a h' s', c h = .ok (a, h') ∧ Inv h' s' ((refs (T a)).map .ti + tok) ∅) :
    Triple Owns stops P (onHeap c) fun a U => U = T a := by
  intro rest m hm
  obtain ⟨s, hi⟩ := hm.heap
  rw [refs_add, Multiset.map_add] at hi
  obtain ⟨a, h', s', hrun, hi'⟩ := hc m.heap s _ (rtm_not_mem (refs rest)) hi
  have hsame : mems (T a + rest) = mems (P + rest) := by rw [mems_add, mems_add, hmem a]
  refine Or.inl ⟨a, { m with heap := h' }, T a, ?_, rfl, ⟨s', ?_⟩, ?_, ?_, ?_⟩
  · rw [onHeap, hrun]
  · rwa [refs_add, Multiset.map_add]
  · rw [hsame]
    exact hm.node
  · rw [hsame]
    exact hm.nodup
  · rw [hsame]
    exact hm.lt_next

/-- Code that reads type infos. -/
theorem triple_reads {c : M V α}
    (hc : ∀ h s tok, Inv h s ((refs P).map .ti + tok) ∅ → ∃ a, c h = .ok (a, h)) :
    Triple Owns stops P (onHeap c) fun _ U => U = P :=
  triple_onHeap (T := fun _ => P) (fun _ => rfl) fun h s tok _ hi => by
    obtain ⟨a, hrun⟩ := hc h s tok hi
    exact ⟨a, h, s, hrun, hi⟩

variable {t : ℕ}

/-- What a client has a reference to is in memory. -/
theorem live_of_ref {h : Heap V} {s : RefCount.Store Obj} {tok : Multiset Obj} (ht : .ref t ∈ P)
    (hi : Inv h s ((refs P).map .ti + tok) ∅) : .ti t ∈ s.live :=
  hi.exact.tok_live _ (Multiset.mem_add.mpr (.inl (Multiset.mem_map_of_mem _ (mem_refs.mpr ht))))

theorem clo_run {h : Heap V} {s : RefCount.Store Obj} {tok : Multiset Obj}
    {z : Set Obj} (hi : Inv h s tok z) (ht : .ti t ∈ s.live) :
    ∃ w, (do view (← readTi t).td.clo : M V (View V)) h = .ok (w, h) := by
  obtain ⟨x, hx, -⟩ := hi.ti t ht
  have hlive : ∀ r, x.td.clo.xlate = some r → .rtm r ∈ s.live :=
    fun r hr => (hi.xlate_live ht hx hr).1
  obtain ⟨ls, hls, -⟩ := hi.exists_layers h.next x.td.clo.xlate
    fun r hr => ⟨hlive r hr, hi.lt_next _ (hlive r hr)⟩
  exact ⟨_, by rw [bind_run (readTi_run hx), hi.view_run hlive hls]⟩

theorem triple_tiTypenum (ht : .ref t ∈ P) : Triple Owns stops P (tiTypenum t) fun _ U => U = P :=
  triple_reads fun h s tok hi => by
    obtain ⟨x, hx, -⟩ := hi.ti t (live_of_ref ht hi)
    exact ⟨_, by rw [bind_run (readTi_run hx)]; rfl⟩

theorem triple_tiClo (ht : .ref t ∈ P) : Triple Owns stops P (tiClo t) fun _ U => U = P :=
  triple_reads fun _ _ _ hi => clo_run hi (live_of_ref ht hi)

theorem triple_tiPhysOffset (E : Env V) (ht : .ref t ∈ P) :
    Triple Owns stops P (onHeap (tiPhysOffset E t)) fun _ U => U = P :=
  triple_reads fun h s tok hi => by
    have htl := live_of_ref ht hi
    obtain ⟨x, hx, -⟩ := hi.ti t htl
    obtain ⟨ls, hls, -⟩ := hi.exists_layers h.next x.td.clo.xlate fun r hr => by
      obtain ⟨hrl, -⟩ := hi.xlate_live htl hx hr
      exact ⟨hrl, hi.lt_next _ hrl⟩
    exact ⟨_, hi.tiPhysOffset_run E htl hx hls⟩

theorem triple_tiRef (ht : .ref t ∈ P) :
    Triple Owns stops P (tiRef t) fun _ U => U = .ref t ::ₘ P :=
  triple_onHeap (T := fun _ => .ref t ::ₘ P) (fun _ => by simp) fun h s tok _ hi => by
    obtain ⟨h', hrun, hi', -⟩ := hi.typeinfoRef_run (live_of_ref ht hi)
    exact ⟨(), h', _, hrun, by simpa using hi'⟩

theorem triple_tiFree : Triple Owns stops (.ref t ::ₘ P) (tiFree t) fun _ U => U = P :=
  triple_onHeap (T := fun _ => P) (fun _ => by simp) fun h s tok htok hi => by
    have hlt : t < h.next := hi.lt_next _ (live_of_ref (Multiset.mem_cons_self _ _) hi)
    rw [refs_ref, Multiset.map_cons, Multiset.cons_add] at hi
    obtain ⟨h', s', hrun, hi', -⟩ := hi.typeinfoFree_run hlt fun r hr => by
      rcases Multiset.mem_add.mp hr with hr | hr
      · exact rtm_not_mem _ r hr
      · exact htok r hr
    exact ⟨(), h', s', by rw [bind_run get_run, hrun], hi'⟩

/-- What a call that reaches a type info leaves: a reference to it, if there is one. -/
def found (P : Multiset (Res V)) (res : Option ℕ) : Multiset (Res V) :=
  res.elim P fun t => .ref t ::ₘ P

@[simp] theorem found_none : found P none = P := rfl

@[simp] theorem found_some : found P (some t) = .ref t ::ₘ P := rfl

@[simp] theorem mems_found (res : Option ℕ) : mems (found P res) = mems P := by
  cases res <;> simp

theorem refs_found (res : Option ℕ) :
    (refs (found P res)).map Obj.ti = res.elim 0 (fun t => {.ti t}) + (refs P).map .ti := by
  cases res <;> simp

/-- A call that reaches a type info from one that there is a reference to. -/
theorem triple_call {c : M V (Option ℕ)} (E : Env V)
    (hc : ∀ h s tok, Inv h s ((refs P).map .ti + tok) ∅ →
      ∃ call : Call V, c h = call.run E h ∧ call.Allowed h) :
    Triple Owns stops P (onHeap c) fun res U => U = found P res :=
  triple_onHeap mems_found fun h s tok htok hi => by
    have htok' : ∀ r, .rtm r ∉ (refs P).map .ti + tok := fun r hr => by
      rcases Multiset.mem_add.mp hr with hr | hr
      · exact rtm_not_mem _ r hr
      · exact htok r hr
    obtain ⟨call, heq, hallowed⟩ := hc h s tok hi
    obtain ⟨res, h', s', hrun, hout⟩ := hi.call_run E htok' hallowed
    refine ⟨res, h', s', by rw [heq, hrun], ?_⟩
    rw [refs_found, add_assoc]
    exact hout.inv

variable (E : Tables V)

theorem triple_allocOrigin : Triple Owns stops P (allocOrigin E) fun res U => U = found P res :=
  triple_call E.toEnv fun _ _ _ _ => ⟨.byField _ none, rfl, rfl, fun p hp => by cases hp⟩

theorem ti_ne_none {h : Heap V} {s : RefCount.Store Obj} {tok : Multiset Obj} (ht : .ref t ∈ P)
    (hi : Inv h s ((refs P).map .ti + tok) ∅) : h.ti t ≠ none := by
  obtain ⟨x, hx, -⟩ := hi.ti t (live_of_ref ht hi)
  rw [hx]
  exact Option.some_ne_none x

theorem triple_tiFieldOff (ht : .ref t ∈ P) (tf : Field V) (idx : UInt32) :
    Triple Owns stops P (tiFieldOff t tf idx) fun _ U => U = P :=
  (triple_tiClo ht).bind fun _ _ hU => .pure hU

theorem triple_tiFieldSize (ht : .ref t ∈ P) (tf : Field V) :
    Triple Owns stops P (tiFieldSize t tf) fun _ U => U = P :=
  (triple_tiClo ht).bind fun w U hU => by
    dsimp only
    split_ifs <;> exact .pure hU

theorem triple_tiSize (ht : .ref t ∈ P) : Triple Owns stops P (tiSize E t) fun _ U => U = P := by
  refine (triple_tiTypenum ht).bind_eq fun _ => ?_
  exact (triple_tiClo ht).bind fun _ _ hU => .pure hU

theorem triple_followFieldOffIdx (ht : .ref t ∈ P) (tf : Field V) (off idx : UInt64) :
    Triple Owns stops P (followFieldOffIdx E t tf off idx) fun res U => U = found P res := by
  refine (triple_tiClo ht).bind_eq fun w => ?_
  refine triple_call E.toEnv fun h s tok hi => ⟨.byField _ (some t), rfl, rfl, ?_⟩
  rintro p ⟨⟩
  exact ti_ne_none ht hi

theorem triple_followFieldIdx (ht : .ref t ∈ P) (tf : Field V) (idx : UInt64) :
    Triple Owns stops P (followFieldIdx E t tf idx) fun res U => U = found P res := by
  refine (triple_tiFieldOff ht tf idx.toUInt32).bind_eq fun off => ?_
  exact triple_followFieldOffIdx E ht tf off idx

theorem triple_followField (ht : .ref t ∈ P) (tf : Field V) :
    Triple Owns stops P (followField E t tf) fun res U => U = found P res := by
  refine (triple_tiClo ht).bind_eq fun w => ?_
  split_ifs
  · exact .pure rfl
  · exact triple_followFieldOffIdx E ht tf _ 0

/-- The mapping is one that the type info inherits. -/
theorem chainXlate_run {h : Heap V} {s : RefCount.Store Obj} {tok : Multiset Obj} {z : Set Obj} (k : ℕ)
    (hi : Inv h s tok z) (ht : .ti t ∈ s.live) :
    ∃ xlate, chainXlate k t h = .ok (xlate, h) ∧ ∀ r, xlate = some r → Inherits h.ti t r := by
  induction k generalizing t with
  | zero =>
    obtain ⟨x, hx, -⟩ := hi.ti t ht
    exact ⟨x.td.clo.xlate, by rw [chainXlate, bind_run (readTi_run hx)]; rfl,
      fun r hr => ⟨t, x, .refl t, hx, hr⟩⟩
  | succ k ih =>
    obtain ⟨x, hx, -⟩ := hi.ti t ht
    cases hp : x.prev with
    | none => exact ⟨none, by rw [chainXlate, bind_run (readTi_run hx), hp]; rfl, fun r hr => by cases hr⟩
    | some p =>
      obtain ⟨xlate, hrun, hinh⟩ := ih (hi.prev_live ht hx hp).1
      refine ⟨xlate, by rw [chainXlate, bind_run (readTi_run hx), hp]; exact hrun, fun r hr => ?_⟩
      obtain ⟨q, y, hq, hy, hyr⟩ := hinh r hr
      exact ⟨q, y, .prev hx hp hq, hy, hyr⟩

theorem triple_check {p : Prop} [Decidable p] {f : Unit → Client V α}
    {post : α → Multiset (Res V) → Prop} (hstop : p ∨ stops .assertion)
    (hf : p → Triple Owns stops P (f ()) post) : Triple Owns stops P (check p >>= f) post := by
  unfold check
  split_ifs with hp
  · exact hf hp
  · exact .throw_bind (hstop.resolve_left hp)

theorem triple_followPointsto (hstop : stops .assertion) (ht : .ref t ∈ P) (pt : PointsTo V)
    (idx : UInt64) : Triple Owns stops P (followPointsto E t pt idx) fun res U => U = found P res := by
  refine (triple_tiClo ht).bind_eq fun w => ?_
  split_ifs
  · exact .pure rfl
  · refine triple_check (Or.inr hstop) fun _ => ?_
    refine triple_call E.toEnv fun h s tok hi => ?_
    have hne := ti_ne_none ht hi
    cases (pt.iter.range w idx).2.2 with
    | none =>
      refine ⟨.pointsto ⟨pt.iter.typeDst, ⟨_, _, none⟩⟩ t, rfl, hne, fun r hr => ?_⟩
      cases hr
    | some k =>
      obtain ⟨xlate, hrun, hinh⟩ := chainXlate_run k hi (live_of_ref ht hi)
      refine ⟨.pointsto ⟨pt.iter.typeDst, ⟨_, _, xlate⟩⟩ t, bind_run hrun, hne, hinh⟩

/-- Without the error code it is the allocation as such. -/
theorem fst_allocInVirtErr (v : V) (prev r : ℕ) (off : UInt64) :
    Prod.fst <$> allocInVirtErr E v prev r off = allocInVirt E.toEnv v prev r off := by
  unfold allocInVirtErr allocInVirt
  simp only [map_bind]
  congr 1
  funext phys
  split_ifs
  · simp only [map_bind]
    congr 1
    funext res
    cases res <;> simp
  · simp

theorem fst_allocVirtIdxErr (v : V) (prev : ℕ) (idx : UInt32) :
    Prod.fst <$> allocVirtIdxErr E v prev idx = allocVirtIdx E.toEnv v prev idx := by
  unfold allocVirtIdxErr allocVirtIdx
  simp only [map_bind]
  congr 1
  funext res
  cases res with
  | none => simp
  | some r =>
    dsimp only
    split_ifs
    · exact fst_allocInVirtErr E v prev r 0
    · simp only [map_bind]
      congr 1
      funext off
      split_ifs
      · simp
      · exact fst_allocInVirtErr E v prev r off

theorem exists_err {α β : Type} {c : M V (α × β)} {h h' : Heap V} {a : α}
    (hrun : (Prod.fst <$> c) h = .ok (a, h')) : ∃ b, c h = .ok ((a, b), h') := by
  rw [map_eq_pure_bind] at hrun
  obtain ⟨p, h₁, hc, hrun⟩ := exists_of_bind hrun
  cases hrun
  exact ⟨p.2, hc⟩

theorem triple_followVirt (ht : .ref t ∈ P) (vt : V) (idx : UInt32) :
    Triple Owns stops P (followVirt E t vt idx) fun res U => U = found P res.1 :=
  triple_onHeap (T := fun res : Option ℕ × TiErr => found P res.1) (fun _ => mems_found _)
    fun h s tok htok hi => by
      have htok' : ∀ r, .rtm r ∉ (refs P).map .ti + tok := fun r hr => by
        rcases Multiset.mem_add.mp hr with hr | hr
        · exact rtm_not_mem _ r hr
        · exact htok r hr
      obtain ⟨res, h', s', hrun, hout⟩ :=
        hi.call_run E.toEnv htok' (c := .virtIdx vt t idx) (ti_ne_none ht hi)
      rw [Call.run, ← fst_allocVirtIdxErr] at hrun
      obtain ⟨err, hrun⟩ := exists_err hrun
      refine ⟨(res, err), h', s', hrun, ?_⟩
      rw [refs_found, add_assoc]
      exact hout.inv

theorem triple_lookupFollowDirect (hstop : stops .assertion) (ht : .ref t ∈ P) (name : List UInt8) :
    Triple Owns stops P (lookupFollowDirect E t name) fun res U => U = found P res := by
  refine (triple_tiTypenum ht).bind_eq fun tt => ?_
  cases E.lookupField tt name with
  | some tf =>
    dsimp only
    split_ifs
    · exact .pure rfl
    · refine (triple_tiClo ht).bind_eq fun w => ?_
      split_ifs
      · exact .pure rfl
      · exact triple_followFieldIdx E ht tf 0
  | none =>
    cases E.lookupPoints tt name with
    | some pt =>
      refine (triple_tiClo ht).bind_eq fun w => ?_
      exact triple_followPointsto E hstop ht pt _
    | none =>
      cases E.lookupVirt tt name with
      | some vt => exact (triple_followVirt E ht vt 0).bind fun res U hU => .pure hU
      | none => exact .pure rfl

/-- A name is read and the type info of it freed again. -/
theorem triple_getname (hstop : stops .assertion) (ht : .ref t ∈ P) (len : ℕ) :
    Triple Owns stops P (getname E t len) fun _ U => U = P := by
  refine (triple_lookupFollowDirect E hstop ht nameField).bind_eq fun res => ?_
  cases res with
  | none => exact .pure rfl
  | some nameTi =>
    have hname : .ref nameTi ∈ found P (some nameTi) := Multiset.mem_cons_self _ _
    refine (triple_tiSize E hname).bind_eq fun sz => ?_
    refine (triple_tiPhysOffset E.toEnv hname).bind_eq fun phys => ?_
    exact triple_tiFree.bind fun _ _ hU => .pure hU

/-- The buffers are of no concern to who owns what. -/
theorem Owns.with_nameBufs {m : Mem V} {T : Multiset (Res V)} (hm : Owns m T) (k : ℕ) :
    Owns { m with nameBufs := k } T := ⟨hm.heap, hm.node, hm.nodup, hm.lt_next⟩

theorem triple_nameBufAlloc : Triple Owns stops P nameBufAlloc fun _ U => U = P :=
  fun _ m hm => Or.inl ⟨(), { m with nameBufs := m.nameBufs + 1 }, P, rfl, rfl, hm.with_nameBufs _⟩

theorem triple_nameBufFree : Triple Owns stops P nameBufFree fun _ U => U = P :=
  fun _ m hm => Or.inl ⟨(), { m with nameBufs := m.nameBufs - 1 }, P, rfl, rfl, hm.with_nameBufs _⟩

section Search

variable {inRange : UInt64 → Bool} {follow : UInt64 → Client V (Option ℕ × TiErr)}

/-- A search keeps the reference to what it found and no other. -/
theorem triple_searchName (hstop : stops .assertion) (hturns : stops .turns)
    (hfollow : ∀ idx, Triple Owns stops P (follow idx) fun res U => U = found P res.1)
    (name : List UInt8) (turns : ℕ) (idx : UInt64) :
    Triple Owns stops P (searchName E inRange follow name turns idx) fun res U => U = found P res := by
  induction turns generalizing idx with
  | zero => exact .throw hturns
  | succ turns ih =>
    rw [searchName]
    split_ifs
    · exact .pure rfl
    · refine (hfollow idx).bind_eq fun res => ?_
      obtain ⟨ret, err⟩ := res
      cases ret with
      | none =>
        dsimp only
        split_ifs
        · exact ih (idx + 1)
        · exact .pure rfl
      | some ret =>
        refine (triple_getname E hstop (Multiset.mem_cons_self _ _) 255).bind_eq fun found => ?_
        split_ifs
        · exact .pure rfl
        · refine triple_tiFree.bind_eq fun _ => ?_
          exact ih (idx + 1)

variable (hstop : stops .assertion) (hturns : stops .turns) (turns : ℕ) (name : List UInt8)

include hstop hturns

theorem triple_followNameTf (ht : .ref t ∈ P) (tf : Field V) :
    Triple Owns stops P (followNameTf E turns t tf name) fun res U => U = found P res := by
  refine triple_nameBufAlloc.bind_eq fun _ => ?_
  split_ifs
  · exact .pure rfl
  · exact .pure rfl
  · refine (triple_tiClo ht).bind_eq fun w => ?_
    exact (triple_searchName E hstop hturns (fun idx =>
      (triple_followFieldIdx E ht tf idx).bind fun _ _ hU => .pure hU) name turns 0).bind_eq
        fun _ => triple_nameBufFree.bind_eq fun _ => .pure rfl

theorem triple_followNamePt (ht : .ref t ∈ P) (pt : PointsTo V) :
    Triple Owns stops P (followNamePt E turns t pt name) fun res U => U = found P res := by
  refine triple_nameBufAlloc.bind_eq fun _ => ?_
  split_ifs
  · exact .pure rfl
  · refine (triple_tiClo ht).bind_eq fun w => ?_
    split_ifs
    · exact triple_nameBufFree.bind_eq fun _ => .pure rfl
    · exact (triple_searchName E hstop hturns (fun idx =>
        (triple_followPointsto E hstop ht pt idx).bind fun _ _ hU => .pure hU) name turns _).bind_eq
          fun _ => triple_nameBufFree.bind_eq fun _ => .pure rfl

theorem triple_followNameVt (ht : .ref t ∈ P) (vt : V) :
    Triple Owns stops P (followNameVt E turns t vt name) fun res U => U = found P res := by
  refine triple_nameBufAlloc.bind_eq fun _ => ?_
  split_ifs
  · exact .pure rfl
  · refine (triple_tiClo ht).bind_eq fun w => ?_
    split_ifs
    · exact triple_nameBufFree.bind_eq fun _ => .pure rfl
    · exact (triple_searchName E hstop hturns (fun idx => triple_followVirt E ht vt idx.toUInt32) name
        turns _).bind_eq fun _ => triple_nameBufFree.bind_eq fun _ => .pure rfl

end Search

/-! ## The memory of nodes -/

variable {a : ℕ} {n k : Node V}

theorem triple_fbnAlloc : Triple Owns stops P fbnAlloc fun a U => U = .mem a .blank ::ₘ P := by
  intro rest m hm
  have hnew : ∀ n, (m.next, n) ∉ mems (P + rest) := fun n hn => lt_irrefl _ (hm.lt_next _ hn)
  refine Or.inl ⟨m.next, _, _, rfl, rfl, ?_, ?_, ?_, ?_⟩
  · obtain ⟨s, hi⟩ := hm.heap
    exact ⟨s, by simpa using hi⟩
  · intro b k
    rw [Multiset.cons_add, mems_mem, Multiset.mem_cons]
    show Function.update m.node m.next (some Node.blank) b = some k ↔ _
    by_cases hb : b = m.next
    · subst hb
      rw [Function.update_self]
      constructor
      · rintro ⟨⟩
        exact .inl rfl
      · rintro (heq | hmem)
        · cases heq
          rfl
        · exact absurd hmem (hnew k)
    · rw [Function.update_of_ne hb, hm.node]
      exact ⟨.inr, fun h => h.resolve_left fun heq => hb (Prod.mk.inj heq).1⟩
  · rw [Multiset.cons_add, mems_mem, Multiset.map_cons, Multiset.nodup_cons]
    refine ⟨fun hmem => ?_, hm.nodup⟩
    obtain ⟨⟨b, k⟩, hk, rfl⟩ := Multiset.mem_map.mp hmem
    exact hnew k hk
  · intro p hp
    rw [Multiset.cons_add, mems_mem, Multiset.mem_cons] at hp
    rcases hp with rfl | hp
    · exact Nat.lt_succ_self _
    · exact (hm.lt_next p hp).trans (Nat.lt_succ_self _)

/-- What is owned is in memory. -/
theorem Owns.node_eq {m : Mem V} {T : Multiset (Res V)} (hm : Owns m T) (hn : .mem a n ∈ T) :
    m.node a = some n := (hm.node a n).mpr (mem_mems.mpr hn)

theorem triple_readNode {f : Node V → Client V α} {post : α → Multiset (Res V) → Prop}
    (hn : .mem a n ∈ P) (hf : Triple Owns stops P (f n) post) :
    Triple Owns stops P (readNode a >>= f) post := by
  intro rest m hm
  have hnode := hm.node_eq (Multiset.mem_add.mpr (.inl hn))
  have hread : readNode a m = .ok (n, m) := by rw [readNode, hnode]
  have hrun : (readNode a >>= f) m = (readNode a m >>= fun p => f p.1 p.2) := rfl
  rw [hrun, hread]
  exact hf rest m hm

/-- No other node of the memory has the address. -/
theorem Owns.ne_of_mem {m : Mem V} {T : Multiset (Res V)} (hm : Owns m (.mem a n ::ₘ T)) {b : ℕ}
    {j : Node V} (hj : (b, j) ∈ mems T) : b ≠ a := by
  have hnodup := hm.nodup
  rw [mems_mem, Multiset.map_cons, Multiset.nodup_cons] at hnodup
  rintro rfl
  exact hnodup.1 (Multiset.mem_map.mpr ⟨(b, j), hj, rfl⟩)

theorem Owns.lt_of_mem {m : Mem V} {T : Multiset (Res V)} (hm : Owns m (.mem a n ::ₘ T))
    {p : ℕ × Node V} (hp : p ∈ mems T) : p.1 < m.next :=
  hm.lt_next p (by rw [mems_mem]; exact Multiset.mem_cons_of_mem hp)

theorem triple_writeNode :
    Triple Owns stops (.mem a n ::ₘ P) (writeNode a k) fun _ U => U = .mem a k ::ₘ P := by
  intro rest m hm
  rw [Multiset.cons_add] at hm
  have hnode := hm.node_eq (Multiset.mem_cons_self _ _)
  refine Or.inl ⟨(), _, _, by rw [writeNode, hnode], rfl, ?_, ?_, ?_, ?_⟩
  · obtain ⟨s, hi⟩ := hm.heap
    exact ⟨s, by simpa using hi⟩
  · intro b j
    rw [Multiset.cons_add, mems_mem, Multiset.mem_cons]
    show Function.update m.node a (some k) b = some j ↔ _
    by_cases hb : b = a
    · subst hb
      rw [Function.update_self]
      constructor
      · rintro ⟨⟩
        exact .inl rfl
      · rintro (heq | hmem)
        · cases heq
          rfl
        · exact absurd rfl (hm.ne_of_mem hmem)
    · rw [Function.update_of_ne hb, hm.node, mems_mem, Multiset.mem_cons]
      have hne : ∀ i : Node V, (b, j) ≠ (a, i) := fun i heq => hb (Prod.mk.inj heq).1
      rw [or_iff_right (hne n), or_iff_right (hne k)]
  · have hnodup := hm.nodup
    rw [mems_mem, Multiset.map_cons] at hnodup
    rwa [Multiset.cons_add, mems_mem, Multiset.map_cons]
  · intro p hp
    rw [Multiset.cons_add, mems_mem, Multiset.mem_cons] at hp
    rcases hp with rfl | hp
    · exact hm.lt_next (a, n) (by simp)
    · exact hm.lt_of_mem hp

theorem triple_freeNode : Triple Owns stops (.mem a n ::ₘ P) (freeNode a) fun _ U => U = P := by
  intro rest m hm
  rw [Multiset.cons_add] at hm
  have hnode := hm.node_eq (Multiset.mem_cons_self _ _)
  refine Or.inl ⟨(), _, _, by rw [freeNode, hnode], rfl, ?_, ?_, ?_, ?_⟩
  · obtain ⟨s, hi⟩ := hm.heap
    exact ⟨s, by simpa using hi⟩
  · intro b j
    show Function.update m.node a none b = some j ↔ _
    by_cases hb : b = a
    · subst hb
      rw [Function.update_self]
      refine ⟨?_, fun hmem => absurd rfl (hm.ne_of_mem hmem)⟩
      rintro ⟨⟩
    · rw [Function.update_of_ne hb, hm.node, mems_mem, Multiset.mem_cons]
      exact ⟨fun h => h.resolve_left fun heq => hb (Prod.mk.inj heq).1, .inr⟩
  · have hnodup := hm.nodup
    rw [mems_mem, Multiset.map_cons, Multiset.nodup_cons] at hnodup
    exact hnodup.2
  · exact fun p hp => hm.lt_of_mem hp

/-! ## Nodes with their references -/

/-- The type infos that a node holds a reference to. -/
def Node.tis : Node V → List ℕ
  | .blank => []
  | .type t => [t]
  | .prim p _ t => [p, t]
  | .arrayPrim p _ _ | .arrayField p _ _ | .arrayPt p _ _ | .arrayVt p _ _ => [p]

/-- References to all of them. -/
def held (l : List ℕ) : Multiset (Res V) := (l.map Res.ref : List (Res V))

theorem held_cons (t : ℕ) (l : List ℕ) (P : Multiset (Res V)) :
    held (t :: l) + P = .ref t ::ₘ (held l + P) := by
  rw [held, List.map_cons, ← Multiset.cons_coe, Multiset.cons_add, held]

theorem mem_held {l : List ℕ} (hl : t ∈ l) : (.ref t : Res V) ∈ held l :=
  Multiset.mem_coe.mpr (List.mem_map_of_mem hl)

/-- The memory of a node and its references. -/
def whole (a : ℕ) (n : Node V) : Multiset (Res V) := .mem a n ::ₘ held n.tis

/-- A node is made and filled in, or none. -/
def Made (P : Multiset (Res V)) (res : Option ℕ) (U : Multiset (Res V)) : Prop :=
  res.elim (U = P) fun a => ∃ n : Node V, n.tis ≠ [] ∧ U = whole a n + P

theorem Made.none : Made P none P := rfl

theorem Made.some (hn : n.tis ≠ []) : Made P (some a) (whole a n + P) := ⟨n, hn, rfl⟩

theorem triple_freeAll (l : List ℕ) :
    Triple Owns stops (held l + P) (l.forM tiFree) fun _ U => U = P := by
  induction l with
  | nil => exact .pure (zero_add P)
  | cons t l ih => exact (triple_tiFree.of_pre (held_cons t l P)).bind_eq (T := fun _ => _) fun _ => ih

/-- `fsl_bridge_free` takes the node and its references. -/
theorem triple_bridgeFree : Triple Owns stops (whole a n + P) (bridgeFree a) fun _ U => U = P := by
  have hmem : .mem a n ∈ whole a n + P := Multiset.mem_add.mpr (.inl (Multiset.mem_cons_self _ _))
  refine triple_readNode hmem ?_
  have htis : n.ti.toList ++ n.fParent.toList ++ n.arrParent.toList ++ n.primTi.toList = n.tis := by
    cases n <;> rfl
  rw [htis]
  have hsplit : whole a n + P = held n.tis + (.mem a n ::ₘ P) := by
    rw [whole, Multiset.cons_add, Multiset.add_cons]
  exact ((triple_freeAll n.tis).of_pre hsplit).bind_eq (T := fun _ => _) fun _ => triple_freeNode

/-- What was made stays when another node is freed. -/
theorem triple_free_made {b : ℕ} {j : Node V} {ret : Option ℕ} {U : Multiset (Res V)}
    (hmade : Made (whole b j + P) ret U) :
    Triple Owns stops U (do bridgeFree b; return ret) fun r W => r = ret ∧ Made P r W := by
  cases ret with
  | none =>
    rw [show U = whole b j + P from hmade]
    exact triple_bridgeFree.bind_eq fun _ => .pure ⟨rfl, Made.none⟩
  | some c =>
    obtain ⟨i, hi, rfl⟩ := hmade
    have hswap : whole c i + (whole b j + P) = whole b j + (whole c i + P) := add_left_comm _ _ _
    exact (triple_bridgeFree.of_pre hswap).bind_eq (T := fun _ => _) fun _ => .pure ⟨rfl, Made.some hi⟩

theorem mem_of_whole (hn : whole a n ≤ P) : .mem a n ∈ P :=
  Multiset.subset_of_le hn (Multiset.mem_cons_self _ _)

theorem ref_of_whole (hn : whole a n ≤ P) (ht : t ∈ n.tis) : .ref t ∈ P :=
  Multiset.subset_of_le hn (Multiset.mem_cons_of_mem (mem_held ht))

/-- A node that is filled in takes over the references to what it points to. -/
theorem triple_fill : Triple Owns stops (.mem a k ::ₘ (held n.tis + P)) (writeNode a n)
    fun _ U => U = whole a n + P :=
  triple_writeNode.weaken fun _ U hU => by rw [hU, whole, Multiset.cons_add]

theorem triple_fill_ref (hn : n.tis = [t]) : Triple Owns stops (.mem a k ::ₘ .ref t ::ₘ P) (writeNode a n)
    fun _ U => U = whole a n + P :=
  triple_fill.of_pre <| by rw [hn, held_cons, held, List.map_nil, Multiset.coe_nil, zero_add]

/-- A node that is filled in with a parent gets a reference of its own. -/
theorem triple_fill_parent {f : Unit → Client V α} {post : α → Multiset (Res V) → Prop}
    (ht : .ref t ∈ P) (hn : n.tis = [t])
    (hf : ∀ u, Triple Owns stops (whole a n + P) (f u) post) :
    Triple Owns stops (.mem a k ::ₘ P) (tiRef t >>= fun _ => writeNode a n >>= f) post := by
  refine (triple_tiRef (Multiset.mem_cons_of_mem ht)).bind_eq fun _ => ?_
  exact ((triple_fill_ref hn).of_pre (Multiset.cons_swap _ _ _)).bind_eq (T := fun _ => _) hf

theorem triple_bridgeFromTi (hstop : stops .assertion) :
    Triple Owns stops (.ref t ::ₘ P) (bridgeFromTi t) fun a U => U = whole a (.type t) + P := by
  refine (triple_tiTypenum (Multiset.mem_cons_self _ _)).bind_eq fun tt => ?_
  refine triple_check (Or.inr hstop) fun _ => ?_
  refine triple_fbnAlloc.bind_eq fun a => ?_
  exact (triple_fill_ref rfl).bind_eq (T := fun _ => _) fun _ => .pure rfl

variable {E}

theorem triple_bridgeFollowTf (ht : .ref t ∈ P) (tf : Field V) :
    Triple Owns stops P (bridgeFollowTf E t tf) (Made P) := by
  refine (triple_tiClo ht).bind_eq fun w => ?_
  dsimp only
  split_ifs
  · exact .pure Made.none
  · exact .pure Made.none
  · -- one value of a primitive type
    refine (triple_followField E ht tf).bind_eq fun res => ?_
    cases res with
    | none => exact .pure Made.none
    | some ti =>
      refine triple_fbnAlloc.bind_eq fun a => ?_
      refine (triple_tiRef (by simp [ht])).bind_eq fun _ => ?_
      refine ((triple_fill (n := .prim t tf ti) (k := .blank) (P := P)).of_pre ?_).bind_eq (T := fun _ => _)
        fun _ => .pure (Made.some (List.cons_ne_nil _ _))
      rw [Node.tis, held_cons, held_cons, held, List.map_nil, Multiset.coe_nil, zero_add,
        Multiset.cons_swap]
      rfl
  · -- one instance of a user type
    refine (triple_followField E ht tf).bind_eq fun res => ?_
    cases res with
    | none => exact .pure Made.none
    | some ti =>
      refine triple_fbnAlloc.bind_eq fun a => ?_
      exact (triple_fill_ref rfl).bind_eq (T := fun _ => _) fun _ => .pure (Made.some (List.cons_ne_nil _ _))
  · exact triple_fbnAlloc.bind_eq fun a =>
      triple_fill_parent ht rfl fun _ => .pure (Made.some (List.cons_ne_nil _ _))
  · exact triple_fbnAlloc.bind_eq fun a =>
      triple_fill_parent ht rfl fun _ => .pure (Made.some (List.cons_ne_nil _ _))

theorem triple_bridgeFollowName (ht : .ref t ∈ P) (name : List UInt8) :
    Triple Owns stops P (bridgeFollowName E t name) (Made P) := by
  refine (triple_tiTypenum ht).bind_eq fun tt => ?_
  cases E.lookupField tt name with
  | some tf => exact triple_bridgeFollowTf ht tf
  | none =>
    refine triple_fbnAlloc.bind_eq fun a => ?_
    cases E.lookupPoints tt name with
    | some pt =>
      refine (triple_tiClo (Multiset.mem_cons_of_mem ht)).bind_eq fun w => ?_
      dsimp only
      split_ifs
      · exact triple_freeNode.bind_eq fun _ => .pure Made.none
      · exact triple_fill_parent ht rfl fun _ => .pure (Made.some (List.cons_ne_nil _ _))
    | none =>
      cases E.lookupVirt tt name with
      | some vt => exact triple_fill_parent ht rfl fun _ => .pure (Made.some (List.cons_ne_nil _ _))
      | none => exact triple_freeNode.bind_eq fun _ => .pure Made.none

/-- An element is followed from the parent of the array. -/
theorem triple_followElem (hstop : stops .assertion) (hn : whole a n ≤ P) (idx : UInt32) :
    Triple Owns stops P (followElem E n idx) fun res U => U = found P res.1 := by
  cases n with
  | blank => exact .throw hstop
  | type t => exact .throw hstop
  | prim p tf t => exact .throw hstop
  | arrayPrim p tf max => exact .pure rfl
  | arrayField p tf max =>
    have hp : .ref p ∈ P := ref_of_whole hn List.mem_cons_self
    exact (triple_followFieldIdx E hp tf _).bind fun _ _ hU => .pure hU
  | arrayPt p pt max =>
    have hp : .ref p ∈ P := ref_of_whole hn List.mem_cons_self
    exact (triple_tiClo hp).bind_eq fun w =>
      (triple_followPointsto E hstop hp pt _).bind fun _ _ hU => .pure hU
  | arrayVt p vt max => exact triple_followVirt E (ref_of_whole hn List.mem_cons_self) vt idx

/-- The node of an element is that of a type. -/
theorem triple_bridgeIdxInto (hstop : stops .assertion) (hn : whole a n ≤ P) (idx : UInt32) :
    Triple Owns stops P (bridgeIdxInto E a idx) fun res U =>
      res.1.elim (U = P) fun b => ∃ t, U = whole b (.type t) + P := by
  refine triple_readNode (mem_of_whole hn) ?_
  refine triple_check (Or.inr hstop) fun _ => ?_
  split_ifs
  · exact .pure rfl
  · refine (triple_followElem hstop hn idx).bind_eq fun res => ?_
    obtain ⟨ti, err⟩ := res
    cases ti with
    | none => exact .pure rfl
    | some ti =>
      refine triple_fbnAlloc.bind_eq fun b => ?_
      exact (triple_fill_ref rfl).bind_eq (T := fun _ => _) fun _ => .pure ⟨ti, rfl⟩

/-- Only on a node without a type info there is a null pointer. -/
theorem triple_followNameOf (hn : whole a n ≤ P) (hti : n.ti ≠ none ∨ stops .null) (name : List UInt8) :
    Triple Owns stops P (followNameOf E a name) (Made P) := by
  refine triple_readNode (mem_of_whole hn) ?_
  cases n with
  | type t => exact triple_bridgeFollowName (ref_of_whole hn List.mem_cons_self) name
  | _ => exact .throw (hti.resolve_left fun hne => hne rfl)

theorem triple_bridgeFbnFollowName (hstop : stops .assertion) (hn : whole a n ≤ P)
    (hti : n.arrParent.isSome ∨ n.ti ≠ none ∨ stops .null) (name : List UInt8) :
    Triple Owns stops P (bridgeFbnFollowName E a name) (Made P) := by
  refine triple_readNode (mem_of_whole hn) ?_
  split_ifs with harray
  · refine (triple_bridgeIdxInto hstop hn 0).bind fun res U hU => ?_
    cases hres : res.1 with
    | none =>
      rw [hres, Option.elim_none] at hU
      exact .pure hU
    | some tmp =>
      rw [hres, Option.elim_some] at hU
      obtain ⟨t, rfl⟩ := hU
      have htmp : whole tmp (.type t) ≤ whole tmp (.type t) + P := Multiset.le_add_right _ _
      exact (triple_followNameOf htmp (Or.inl (Option.some_ne_none t)) name).bind fun _ _ hmade =>
        (triple_free_made hmade).weaken fun _ _ h => h.2
  · exact triple_followNameOf hn (hti.resolve_left harray) name

theorem triple_searchElem (hstop : stops .assertion) (hturns : stops .turns) (hn : whole a n ≤ P)
    (turns : ℕ) (name : List UInt8) :
    Triple Owns stops P (searchElem E turns n name) fun res U => U = found P res := by
  cases n with
  | arrayField p tf max =>
    exact triple_followNameTf E hstop hturns turns name (ref_of_whole hn List.mem_cons_self) tf
  | arrayPt p pt max =>
    exact triple_followNamePt E hstop hturns turns name (ref_of_whole hn List.mem_cons_self) pt
  | arrayVt p vt max =>
    exact triple_followNameVt E hstop hturns turns name (ref_of_whole hn List.mem_cons_self) vt
  | _ => exact .pure rfl

theorem triple_bridgeFollowPrettyName (hstop : stops .assertion) (hturns : stops .turns)
    (hn : whole a n ≤ P) (turns : ℕ) (name : List UInt8) :
    Triple Owns stops P (bridgeFollowPrettyName E turns a name) (Made P) := by
  refine triple_readNode (mem_of_whole hn) ?_
  refine (triple_searchElem hstop hturns hn turns name).bind_eq fun res => ?_
  cases res with
  | none => exact .pure Made.none
  | some t =>
    exact (triple_bridgeFromTi hstop).bind_eq fun b => .pure (Made.some (List.cons_ne_nil _ _))

theorem triple_fbnBytes (hn : whole a n ≤ P) :
    Triple Owns stops P (fbnBytes E a) fun _ U => U = P := by
  refine triple_readNode (mem_of_whole hn) ?_
  cases n with
  | blank => exact .pure rfl
  | type t =>
    exact (triple_tiSize E (ref_of_whole hn List.mem_cons_self)).bind fun _ _ hU => .pure hU
  | prim p tf t =>
    have ht : .ref t ∈ P := ref_of_whole hn (List.mem_cons_of_mem _ List.mem_cons_self)
    exact (triple_tiTypenum ht).bind fun _ _ hU => .pure hU
  | arrayPrim p tf max =>
    exact (triple_tiFieldSize (ref_of_whole hn List.mem_cons_self) tf).bind fun _ _ hU => .pure hU
  | arrayField p tf max =>
    exact (triple_tiFieldSize (ref_of_whole hn List.mem_cons_self) tf).bind fun _ _ hU => .pure hU
  | arrayPt p pt max => exact .pure rfl
  | arrayVt p vt max => exact .pure rfl

end Fsl.Nodes
