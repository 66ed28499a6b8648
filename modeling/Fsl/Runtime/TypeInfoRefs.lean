import Fsl.Lib.RefCount
import Fsl.Runtime.TypeInfo

/-!
# Exact reference counts

The memory of type infos and mappings as a store of counted references: a type info refers to the one it
was reached from and to its mapping, a mapping to all the mappings it is stacked on. The closure that a
mapping is evaluated in is not counted; it stays because every user of the mapping was reached from it.
-/

namespace Fsl.TypeInfo

open RefCount

variable {V : Type}

/-- An object in the memory. -/
inductive Obj
  | ti (a : ℕ)
  | rtm (a : ℕ)
  deriving DecidableEq

def Obj.addr : Obj → ℕ
  | .ti a => a
  | .rtm a => a

/-- What a type info refers to. -/
def Ti.refs (x : Ti) : Multiset Obj :=
  (x.prev.elim 0 fun p => {.ti p}) + x.td.clo.xlate.elim 0 fun r => {.rtm r}

/-- A mapping and those it is stacked on. -/
def above (s : Store Obj) (xlate : Option ℕ) : Multiset Obj :=
  xlate.elim 0 fun r => .rtm r ::ₘ s.refs (.rtm r)

/-- What of an object does not change while it is in use. -/
def Ti.shape (x : Ti) : Desc × Option ℕ := (x.td, x.prev)

def Rtm.shape (m : Rtm V) : ℕ × V := (m.clo, m.virt)

/-- The type infos that another one was reached from, itself included. -/
inductive Anc (ti : ℕ → Option Ti) : ℕ → ℕ → Prop
  | refl (a : ℕ) : Anc ti a a
  | prev {a p q : ℕ} {x : Ti} (hx : ti a = some x) (hp : x.prev = some p) (hq : Anc ti p q) :
      Anc ti a q

/-- The closure of a type info that another one was reached from uses the mapping. -/
def Inherits (ti : ℕ → Option Ti) (p r : ℕ) : Prop :=
  ∃ q y, Anc ti p q ∧ ti q = some y ∧ y.td.clo.xlate = some r

/-- The memory represents the store; `tok` are references that are held from outside, and `z` is memory
that is about to be freed. -/
structure Inv (h : Heap V) (s : Store Obj) (tok : Multiset Obj) (z : Set Obj) : Prop where
  exact : Exact s tok
  ti : ∀ a, .ti a ∈ s.live → ∃ x, h.ti a = some x ∧ x.refC = s.cnt (.ti a) ∧ s.refs (.ti a) = x.refs
  rtm : ∀ a, .rtm a ∈ s.live → ∃ m, h.rtm a = some m ∧ m.refC = s.cnt (.rtm a)
  clo : ∀ a m, .rtm a ∈ s.live → h.rtm a = some m → .ti m.clo ∈ s.live ∧ m.clo < a
  stack : ∀ a m x, .rtm a ∈ s.live → h.rtm a = some m → h.ti m.clo = some x →
    s.refs (.rtm a) = above s x.td.clo.xlate
  lt_next : ∀ o ∈ s.live, o.addr < h.next
  rank : ∀ n ∈ s.live, ∀ m ∈ s.refs n, m.addr < n.addr
  own : ∀ a x r, .ti a ∈ s.live → h.ti a = some x → x.td.clo.xlate = some r →
    ∃ p, x.prev = some p ∧ (Inherits h.ti p r ∨ ∃ m, h.rtm r = some m ∧ m.clo = p)
  mem_ti : ∀ a, h.ti a ≠ none → .ti a ∈ s.live ∨ .ti a ∈ z
  mem_rtm : ∀ a, h.rtm a ≠ none → .rtm a ∈ s.live ∨ .rtm a ∈ z

/-- Two memories that differ in counts only. -/
structure Alike (h h' : Heap V) : Prop where
  ti : ∀ a, (h.ti a).map Ti.shape = (h'.ti a).map Ti.shape
  rtm : ∀ a, (h.rtm a).map Rtm.shape = (h'.rtm a).map Rtm.shape
  next : h.next = h'.next

namespace Alike

variable {h h' : Heap V}

theorem refl (h : Heap V) : Alike h h := ⟨fun _ => rfl, fun _ => rfl, rfl⟩

theorem symm (hs : Alike h h') : Alike h' h :=
  ⟨fun a => (hs.ti a).symm, fun a => (hs.rtm a).symm, hs.next.symm⟩

theorem trans {h'' : Heap V} (hs : Alike h h') (hs' : Alike h' h'') : Alike h h'' :=
  ⟨fun a => (hs.ti a).trans (hs'.ti a), fun a => (hs.rtm a).trans (hs'.rtm a), hs.next.trans hs'.next⟩

theorem exists_ti (hs : Alike h h') {a : ℕ} {x : Ti} (hx : h.ti a = some x) :
    ∃ x', h'.ti a = some x' ∧ x'.td = x.td ∧ x'.prev = x.prev := by
  have heq := hs.ti a
  rw [hx] at heq
  obtain ⟨x', hx', hshape⟩ := Option.map_eq_some_iff.mp heq.symm
  exact ⟨x', hx', congrArg Prod.fst hshape, congrArg Prod.snd hshape⟩

theorem exists_rtm (hs : Alike h h') {a : ℕ} {m : Rtm V} (hm : h.rtm a = some m) :
    ∃ m', h'.rtm a = some m' ∧ m'.clo = m.clo ∧ m'.virt = m.virt := by
  have heq := hs.rtm a
  rw [hm] at heq
  obtain ⟨m', hm', hshape⟩ := Option.map_eq_some_iff.mp heq.symm
  exact ⟨m', hm', congrArg Prod.fst hshape, congrArg Prod.snd hshape⟩

end Alike

variable {h h' : Heap V} {s s' : Store Obj} {tok tok' : Multiset Obj} {z : Set Obj}

theorem Ti.refs_congr {x x' : Ti} (htd : x'.td = x.td) (hprev : x'.prev = x.prev) :
    x'.refs = x.refs := by
  rw [Ti.refs, Ti.refs, htd, hprev]

/-- An ancestor stays one where the type infos that are looked at keep what they were reached from. -/
theorem Anc.congr {ti ti' : ℕ → Option Ti} {P : ℕ → Prop} {a q : ℕ} (hq : Anc ti a q) (ha : P a)
    (hstep : ∀ b x, P b → ti b = some x →
      ∃ x', ti' b = some x' ∧ x'.prev = x.prev ∧ ∀ p, x.prev = some p → P p) :
    Anc ti' a q ∧ P q := by
  induction hq with
  | refl a => exact ⟨.refl a, ha⟩
  | prev hx hp _ ih =>
    obtain ⟨x', hx', hprev, hnext⟩ := hstep _ _ ha hx
    obtain ⟨hanc, hP⟩ := ih (hnext _ hp)
    exact ⟨.prev hx' (hprev.trans hp) hanc, hP⟩

theorem Inherits.congr {ti ti' : ℕ → Option Ti} {P : ℕ → Prop} {p r : ℕ} (hinh : Inherits ti p r)
    (hp : P p)
    (hstep : ∀ b x, P b → ti b = some x →
      ∃ x', ti' b = some x' ∧ x'.td = x.td ∧ x'.prev = x.prev ∧ ∀ p, x.prev = some p → P p) :
    Inherits ti' p r := by
  obtain ⟨q, y, hq, hy, hyr⟩ := hinh
  obtain ⟨hanc, hPq⟩ := hq.congr hp fun b x hb hx => by
    obtain ⟨x', hx', -, hprev, hnext⟩ := hstep b x hb hx
    exact ⟨x', hx', hprev, hnext⟩
  obtain ⟨y', hy', htd, -⟩ := hstep q y hPq hy
  exact ⟨q, y', hanc, hy', by rw [htd, hyr]⟩

/-- Only counts change. -/
theorem Inv.recount (hi : Inv h s tok z) (hs : Alike h h') (hlive : s'.live = s.live)
    (hrefs : s'.refs = s.refs) (hexact : Exact s' tok')
    (hti : ∀ a x, .ti a ∈ s.live → h'.ti a = some x → x.refC = s'.cnt (.ti a))
    (hrtm : ∀ a m, .rtm a ∈ s.live → h'.rtm a = some m → m.refC = s'.cnt (.rtm a)) :
    Inv h' s' tok' z := by
  refine ⟨hexact, ?_, ?_, ?_, ?_, ?_, ?_, ?_, ?_, ?_⟩
  · intro a ha
    rw [hlive] at ha
    obtain ⟨x, hx, -, hxr⟩ := hi.ti a ha
    obtain ⟨x', hx', htd, hprev⟩ := hs.exists_ti hx
    exact ⟨x', hx', hti a x' ha hx', by rw [hrefs, hxr, Ti.refs_congr htd hprev]⟩
  · intro a ha
    rw [hlive] at ha
    obtain ⟨m, hm, -⟩ := hi.rtm a ha
    obtain ⟨m', hm', -⟩ := hs.exists_rtm hm
    exact ⟨m', hm', hrtm a m' ha hm'⟩
  · intro a m' ha hm'
    rw [hlive] at ha ⊢
    obtain ⟨m, hm, hclo, -⟩ := hs.symm.exists_rtm hm'
    rw [← hclo]
    exact hi.clo a m ha hm
  · intro a m' x' ha hm' hx'
    rw [hlive] at ha
    obtain ⟨m, hm, hclo, -⟩ := hs.symm.exists_rtm hm'
    rw [← hclo] at hx'
    obtain ⟨x, hx, htd, -⟩ := hs.symm.exists_ti hx'
    rw [above, hrefs, ← htd]
    exact hi.stack a m x ha hm hx
  · intro o ho
    rw [hlive] at ho
    rw [← hs.next]
    exact hi.lt_next o ho
  · intro n hn m hm
    rw [hlive] at hn
    rw [hrefs] at hm
    exact hi.rank n hn m hm
  · intro a x' r ha hx' hr
    rw [hlive] at ha
    obtain ⟨x, hx, htd, hprev⟩ := hs.symm.exists_ti hx'
    rw [← htd] at hr
    obtain ⟨p, hp, hinh | ⟨m, hm, hclo⟩⟩ := hi.own a x r ha hx hr
    · refine ⟨p, by rw [← hprev, hp], .inl (hinh.congr (P := fun _ => True) trivial ?_)⟩
      intro b y _ hy
      obtain ⟨y', hy', htd', hprev'⟩ := hs.exists_ti hy
      exact ⟨y', hy', htd', hprev', fun _ _ => trivial⟩
    · obtain ⟨m', hm', hclo', -⟩ := hs.exists_rtm hm
      exact ⟨p, by rw [← hprev, hp], .inr ⟨m', hm', by rw [hclo', hclo]⟩⟩
  · intro a ha
    rw [hlive]
    refine hi.mem_ti a fun hnone => ha ?_
    have heq := hs.ti a
    rw [hnone] at heq
    exact Option.map_eq_none_iff.mp heq.symm
  · intro a ha
    rw [hlive]
    refine hi.mem_rtm a fun hnone => ha ?_
    have heq := hs.rtm a
    rw [hnone] at heq
    exact Option.map_eq_none_iff.mp heq.symm

/-! ## Counting up and down -/

theorem bind_run {α β : Type} {x : M V α} {f : α → M V β} {a : α} (hx : x h = .ok (a, h')) :
    (x >>= f) h = f a h' := by
  show (x h >>= fun p => f p.1 p.2) = _
  rw [hx]
  rfl

section Run

variable {a : ℕ} {x x' : Ti} {m m' : Rtm V}

theorem readTi_run (hx : h.ti a = some x) : readTi a h = .ok (x, h) := by
  rw [readTi, hx]

theorem writeTi_run (hx : h.ti a = some x) :
    writeTi a x' h = .ok ((), (h.setTi a (some x'))) := by
  rw [writeTi, hx]

theorem freeTi_run (hx : h.ti a = some x) :
    freeTi a h = .ok ((), h.setTi a none) := by
  rw [freeTi, hx]

theorem readRtm_run (hm : h.rtm a = some m) : readRtm a h = .ok (m, h) := by
  rw [readRtm, hm]

theorem writeRtm_run (hm : h.rtm a = some m) :
    writeRtm a m' h = .ok ((), (h.setRtm a (some m'))) := by
  rw [writeRtm, hm]

theorem freeRtm_run (hm : h.rtm a = some m) :
    freeRtm a h = .ok ((), h.setRtm a none) := by
  rw [freeRtm, hm]

theorem alike_writeTi (hx : h.ti a = some x) (hs : x'.shape = x.shape) :
    Alike h (h.setTi a (some x')) := by
  refine ⟨fun b => ?_, fun _ => rfl, rfl⟩
  by_cases hb : b = a
  · subst hb
    simp [hx, hs]
  · rw [Heap.setTi_of_ne _ _ _ hb]

theorem alike_writeRtm (hm : h.rtm a = some m) (hs : m'.shape = m.shape) :
    Alike h (h.setRtm a (some m')) := by
  refine ⟨fun _ => rfl, fun b => ?_, rfl⟩
  by_cases hb : b = a
  · subst hb
    simp [hm, hs]
  · rw [Heap.setRtm_of_ne _ _ _ hb]

end Run

/-- The count of one mapping changes. -/
theorem Inv.recountRtm (hi : Inv h s tok z) {r n : ℕ} {m : Rtm V} (hm : h.rtm r = some m)
    (hexact : Exact { s with cnt := Function.update s.cnt (.rtm r) n } tok') :
    Inv (h.setRtm r (some { m with refC := n }))
      { s with cnt := Function.update s.cnt (.rtm r) n } tok' z := by
  refine hi.recount (alike_writeRtm hm rfl) rfl rfl hexact ?_ ?_
  · intro a x ha hx
    obtain ⟨x₀, hx₀, hcnt, -⟩ := hi.ti a ha
    rw [Heap.setRtm_ti, hx₀] at hx
    cases hx
    simpa using hcnt
  · intro a m' ha hm'
    by_cases heq : a = r
    · subst heq
      rw [Heap.setRtm_self] at hm'
      cases hm'
      simp
    · obtain ⟨m₀, hm₀, hcnt⟩ := hi.rtm a ha
      rw [Heap.setRtm_of_ne _ _ _ heq, hm₀] at hm'
      cases hm'
      have hne : Obj.rtm a ≠ .rtm r := fun h => heq (Obj.rtm.inj h)
      simpa [Function.update_of_ne hne] using hcnt

/-- The count of one type info changes. -/
theorem Inv.recountTi (hi : Inv h s tok z) {t n : ℕ} {x : Ti} (hx : h.ti t = some x)
    (hexact : Exact { s with cnt := Function.update s.cnt (.ti t) n } tok') :
    Inv (h.setTi t (some { x with refC := n }))
      { s with cnt := Function.update s.cnt (.ti t) n } tok' z := by
  refine hi.recount (alike_writeTi hx rfl) rfl rfl hexact ?_ ?_
  · intro a x' ha hx'
    by_cases heq : a = t
    · subst heq
      rw [Heap.setTi_self] at hx'
      cases hx'
      simp
    · obtain ⟨x₀, hx₀, hcnt, -⟩ := hi.ti a ha
      rw [Heap.setTi_of_ne _ _ _ heq, hx₀] at hx'
      cases hx'
      have hne : Obj.ti a ≠ .ti t := fun h => heq (Obj.ti.inj h)
      simpa [Function.update_of_ne hne] using hcnt
  · intro a m ha hm
    obtain ⟨m₀, hm₀, hcnt⟩ := hi.rtm a ha
    rw [Heap.setTi_rtm, hm₀] at hm
    cases hm
    simpa using hcnt

theorem Inv.virtRef_run (hi : Inv h s tok z) {r : ℕ} (hr : .rtm r ∈ s.live) :
    ∃ h', virtRef (some r) h = .ok (some r, h') ∧
      Inv h' (s.acquire (.rtm r)) (.rtm r ::ₘ tok) z ∧ Alike h h' ∧
      ∀ a, a ≠ r → h'.rtm a = h.rtm a := by
  obtain ⟨m, hm, hcnt⟩ := hi.rtm r hr
  refine ⟨h.setRtm r (some { m with refC := m.refC + 1 }), ?_, ?_,
    alike_writeRtm hm rfl, fun a ha => Heap.setRtm_of_ne _ _ _ ha⟩
  · rw [virtRef, bind_run (readRtm_run hm), bind_run (writeRtm_run hm)]
    rfl
  · rw [hcnt]
    exact hi.recountRtm hm (hi.exact.acquire hr)

theorem Inv.typeinfoRef_run (hi : Inv h s tok z) {t : ℕ} (ht : .ti t ∈ s.live) :
    ∃ h', typeinfoRef t h = .ok ((), h') ∧ Inv h' (s.acquire (.ti t)) (.ti t ::ₘ tok) z ∧
      Alike h h' ∧ ∀ a, a ≠ t → h'.ti a = h.ti a := by
  obtain ⟨x, hx, hcnt, -⟩ := hi.ti t ht
  refine ⟨h.setTi t (some { x with refC := x.refC + 1 }), ?_, ?_,
    alike_writeTi hx rfl, fun a ha => Heap.setTi_of_ne _ _ _ ha⟩
  · rw [typeinfoRef, bind_run (readTi_run hx), writeTi_run hx]
  · rw [hcnt]
    exact hi.recountTi hx (hi.exact.acquire ht)

section Refs

variable {a p r : ℕ} {x : Ti}

theorem Inv.refs_eq (hi : Inv h s tok z) (ha : .ti a ∈ s.live) (hx : h.ti a = some x) :
    s.refs (.ti a) = x.refs := by
  obtain ⟨x₀, hx₀, -, hrefs⟩ := hi.ti a ha
  rw [hx] at hx₀
  cases hx₀
  exact hrefs

theorem Inv.prev_live (hi : Inv h s tok z) (ha : .ti a ∈ s.live) (hx : h.ti a = some x)
    (hp : x.prev = some p) : .ti p ∈ s.live ∧ p < a := by
  have hmem : .ti p ∈ s.refs (.ti a) := by
    rw [hi.refs_eq ha hx, Ti.refs, hp]
    simp
  exact ⟨hi.exact.closed _ ha _ hmem, hi.rank _ ha _ hmem⟩

theorem Inv.mem_refs_of_xlate (hi : Inv h s tok z) (ha : .ti a ∈ s.live) (hx : h.ti a = some x)
    (hr : x.td.clo.xlate = some r) : .rtm r ∈ s.refs (.ti a) := by
  rw [hi.refs_eq ha hx, Ti.refs, hr]
  simp

theorem Inv.xlate_live (hi : Inv h s tok z) (ha : .ti a ∈ s.live) (hx : h.ti a = some x)
    (hr : x.td.clo.xlate = some r) : .rtm r ∈ s.live ∧ r < a :=
  ⟨hi.exact.closed _ ha _ (hi.mem_refs_of_xlate ha hx hr),
    hi.rank _ ha _ (hi.mem_refs_of_xlate ha hx hr)⟩

/-- What a type info in use inherits does not depend on other memory. -/
theorem Inv.inherits_congr (hi : Inv h s tok z) (hp : .ti p ∈ s.live) (hinh : Inherits h.ti p r)
    (hsame : ∀ b x, .ti b ∈ s.live → h.ti b = some x →
      ∃ x', h'.ti b = some x' ∧ x'.td = x.td ∧ x'.prev = x.prev) : Inherits h'.ti p r :=
  hinh.congr (P := fun b => .ti b ∈ s.live) hp fun b x hb hx => by
    obtain ⟨x', hx', htd, hprev⟩ := hsame b x hb hx
    exact ⟨x', hx', htd, hprev, fun _ hq => (hi.prev_live hb hx hq).1⟩

/-- An inherited mapping is that of a type info in use. -/
theorem Inv.exists_of_inherits (hi : Inv h s tok z) (hp : .ti p ∈ s.live) (hinh : Inherits h.ti p r) :
    ∃ q y, .ti q ∈ s.live ∧ q ≤ p ∧ h.ti q = some y ∧ y.td.clo.xlate = some r := by
  obtain ⟨q, y, hq, hy, hyr⟩ := hinh
  have hprev : ∀ b x, (.ti b ∈ s.live ∧ b ≤ p) → h.ti b = some x →
      ∃ x', h.ti b = some x' ∧ x'.prev = x.prev ∧
        ∀ c, x.prev = some c → .ti c ∈ s.live ∧ c ≤ p := by
    rintro b x ⟨hbl, hbp⟩ hx
    refine ⟨x, hx, rfl, fun c hc => ?_⟩
    obtain ⟨hcl, hcb⟩ := hi.prev_live hbl hx hc
    exact ⟨hcl, hcb.le.trans hbp⟩
  obtain ⟨-, hql, hqp⟩ := hq.congr (P := fun b => .ti b ∈ s.live ∧ b ≤ p) ⟨hp, le_rfl⟩ hprev
  exact ⟨q, y, hql, hqp, hy, hyr⟩

end Refs

/-! ## Memory that is given back -/

/-- A mapping that nothing refers to is not in use any more. -/
theorem Inv.releaseRtm {r : ℕ} (hi : Inv h s (.rtm r ::ₘ tok) z) (h1 : s.cnt (.rtm r) = 1) :
    Inv h (s.release (.rtm r)) (s.refs (.rtm r) + tok) (insert (.rtm r) z) := by
  have hlive : ∀ {o}, o ∈ (s.release (.rtm r)).live → o ∈ s.live := Finset.mem_of_mem_erase
  refine ⟨hi.exact.release h1, fun a ha => hi.ti a (hlive ha), fun a ha => hi.rtm a (hlive ha), ?_,
    fun a m x ha => hi.stack a m x (hlive ha), fun o ho => hi.lt_next o (hlive ho),
    fun n hn => hi.rank n (hlive hn), fun a x r' ha => hi.own a x r' (hlive ha), ?_, ?_⟩
  · intro a m ha hm
    obtain ⟨hclo, hlt⟩ := hi.clo a m (hlive ha) hm
    exact ⟨Finset.mem_erase.mpr ⟨by simp, hclo⟩, hlt⟩
  · intro a ha
    rcases hi.mem_ti a ha with hl | hz
    · exact .inl (Finset.mem_erase.mpr ⟨by simp, hl⟩)
    · exact .inr (Set.mem_insert_of_mem _ hz)
  · intro a ha
    rcases hi.mem_rtm a ha with hl | hz
    · by_cases heq : a = r
      · subst heq
        exact .inr (Set.mem_insert _ _)
      · exact .inl (Finset.mem_erase.mpr ⟨fun h => heq (Obj.rtm.inj h), hl⟩)
    · exact .inr (Set.mem_insert_of_mem _ hz)

/-- A mapping that is not in use is freed. -/
theorem Inv.eraseRtm {r : ℕ} (hi : Inv h s tok (insert (.rtm r) z)) (hr : .rtm r ∉ s.live) :
    Inv (h.setRtm r none) s tok z := by
  have hne : ∀ {a}, .rtm a ∈ s.live → a ≠ r := by
    rintro a ha rfl
    exact hr ha
  refine ⟨hi.exact, hi.ti, ?_, ?_, ?_, hi.lt_next, hi.rank, ?_, ?_, ?_⟩
  · intro a ha
    rw [Heap.setRtm_of_ne _ _ _ (hne ha)]
    exact hi.rtm a ha
  · intro a m ha hm
    rw [Heap.setRtm_of_ne _ _ _ (hne ha)] at hm
    exact hi.clo a m ha hm
  · intro a m x ha hm
    rw [Heap.setRtm_of_ne _ _ _ (hne ha)] at hm
    exact hi.stack a m x ha hm
  · intro a x r' ha hx hxr
    rw [Heap.setRtm_of_ne _ _ _ (hne (hi.xlate_live ha hx hxr).1)]
    exact hi.own a x r' ha hx hxr
  · intro a ha
    rcases hi.mem_ti a ha with hl | hz
    · exact .inl hl
    · exact .inr (hz.resolve_left (by simp))
  · intro a ha
    by_cases heq : a = r
    · subst heq
      rw [Heap.setRtm_self] at ha
      exact absurd rfl ha
    · rw [Heap.setRtm_of_ne _ _ _ heq] at ha
      rcases hi.mem_rtm a ha with hl | hz
      · exact .inl hl
      · exact .inr (hz.resolve_left fun h => heq (Obj.rtm.inj h))

/-- The memory of a type info that is not in use may change. -/
theorem Inv.writeZombie {t : ℕ} {x : Option Ti} (hi : Inv h s tok z) (ht : .ti t ∉ s.live)
    (hz : x ≠ none → .ti t ∈ z) : Inv (h.setTi t x) s tok z := by
  have hne : ∀ {a}, .ti a ∈ s.live → a ≠ t := by
    rintro a ha rfl
    exact ht ha
  refine ⟨hi.exact, ?_, hi.rtm, hi.clo, ?_, hi.lt_next, hi.rank, ?_, ?_, hi.mem_rtm⟩
  · intro a ha
    rw [Heap.setTi_of_ne _ _ _ (hne ha)]
    exact hi.ti a ha
  · intro a m y ha hm hy
    rw [Heap.setTi_of_ne _ _ _ (hne (hi.clo a m ha hm).1)] at hy
    exact hi.stack a m y ha hm hy
  · intro a y r ha hy hyr
    rw [Heap.setTi_of_ne _ _ _ (hne ha)] at hy
    obtain ⟨p, hp, hown⟩ := hi.own a y r ha hy hyr
    refine ⟨p, hp, hown.imp_left fun hinh => ?_⟩
    refine hi.inherits_congr (hi.prev_live ha hy hp).1 hinh fun b v hb hv => ⟨v, ?_, rfl, rfl⟩
    rw [Heap.setTi_of_ne _ _ _ (hne hb)]
    exact hv
  · intro a ha
    by_cases heq : a = t
    · subst heq
      rw [Heap.setTi_self] at ha
      exact .inr (hz ha)
    · rw [Heap.setTi_of_ne _ _ _ heq] at ha
      exact hi.mem_ti a ha

/-- A type info that is not in use is freed. -/
theorem Inv.eraseTi {t : ℕ} (hi : Inv h s tok (insert (.ti t) z)) (ht : .ti t ∉ s.live) :
    Inv (h.setTi t none) s tok z := by
  have hz := hi.writeZombie (x := none) ht fun hne => absurd rfl hne
  refine ⟨hz.exact, hz.ti, hz.rtm, hz.clo, hz.stack, hz.lt_next, hz.rank, hz.own, ?_, ?_⟩
  · intro a ha
    rcases hz.mem_ti a ha with hl | hmem
    · exact .inl hl
    · refine .inr (hmem.resolve_left fun heq => ha ?_)
      rw [Obj.ti.inj heq, Heap.setTi_self]
  · intro a ha
    rcases hz.mem_rtm a ha with hl | hmem
    · exact .inl hl
    · exact .inr (hmem.resolve_left (by simp))

/-! ## What stays -/

/-- Of what was there before, everything that is in use afterwards was in use, with the same shape. -/
structure Kept (h : Heap V) (s : Store Obj) (h' : Heap V) (s' : Store Obj) : Prop where
  next : h.next ≤ h'.next
  live : ∀ o ∈ s'.live, o.addr < h.next → o ∈ s.live
  refs : ∀ o ∈ s'.live, o.addr < h.next → s'.refs o = s.refs o
  ti : ∀ a, .ti a ∈ s'.live → a < h.next → (h'.ti a).map Ti.shape = (h.ti a).map Ti.shape
  rtm : ∀ a, .rtm a ∈ s'.live → a < h.next → (h'.rtm a).map Rtm.shape = (h.rtm a).map Rtm.shape

namespace Kept

theorem of_alike (hs : Alike h h') (hlive : s'.live ⊆ s.live) (hrefs : s'.refs = s.refs) :
    Kept h s h' s' :=
  ⟨hs.next.le, fun _ ho _ => hlive ho, fun o _ _ => by rw [hrefs], fun a _ _ => (hs.ti a).symm,
    fun a _ _ => (hs.rtm a).symm⟩

theorem trans {h'' : Heap V} {s'' : Store Obj} (hk : Kept h s h' s') (hk' : Kept h' s' h'' s'') :
    Kept h s h'' s'' := by
  have hlt : ∀ {a}, a < h.next → a < h'.next := fun ha => lt_of_lt_of_le ha hk.next
  refine ⟨hk.next.trans hk'.next, ?_, ?_, ?_, ?_⟩
  · intro o ho ha
    exact hk.live o (hk'.live o ho (hlt ha)) ha
  · intro o ho ha
    rw [hk'.refs o ho (hlt ha), hk.refs o (hk'.live o ho (hlt ha)) ha]
  · intro a ho ha
    rw [hk'.ti a ho (hlt ha), hk.ti a (hk'.live _ ho (hlt ha)) ha]
  · intro a ho ha
    rw [hk'.rtm a ho (hlt ha), hk.rtm a (hk'.live _ ho (hlt ha)) ha]

end Kept

/-! ## Releasing mappings -/

/-- A mapping that a type info in use has, besides a token, has two references. -/
theorem Inv.two_le_cnt {t r : ℕ} {x : Ti} (hi : Inv h s (.rtm r ::ₘ tok) z) (ht : .ti t ∈ s.live)
    (hx : h.ti t = some x) (hr : x.td.clo.xlate = some r) : 2 ≤ s.cnt (.rtm r) := by
  have hcnt := hi.exact.cnt_eq _ (hi.xlate_live ht hx hr).1
  have hheld : (s.refs (.ti t)).count (.rtm r) ≤ s.held (.rtm r) := Exact.count_le_held ht
  have hpos := Multiset.count_pos.mpr (hi.mem_refs_of_xlate ht hx hr)
  rw [Multiset.count_cons_self] at hcnt
  omega

theorem Inv.virtUnref_dec {r : ℕ} (hi : Inv h s (.rtm r ::ₘ tok) z) (h2 : 2 ≤ s.cnt (.rtm r))
    (k : ℕ) :
    ∃ h', virtUnref (k + 1) (some r) h = .ok ((), h') ∧ Inv h' (s.drop (.rtm r)) tok z ∧
      Alike h h' := by
  obtain ⟨m, hm, hcnt⟩ := hi.rtm r (hi.exact.tok_live _ (Multiset.mem_cons_self _ _))
  have hne : m.refC ≠ 1 := by omega
  refine ⟨h.setRtm r (some { m with refC := m.refC - 1 }), ?_, ?_, alike_writeRtm hm rfl⟩
  · rw [virtUnref, bind_run (readRtm_run hm), if_neg hne, writeRtm_run hm]
  · rw [hcnt]
    exact hi.recountRtm hm (hi.exact.drop h2)

/-- `fsl_virt_unref_all` drops the references to a mapping and those it is stacked on; none of them is
the last one. -/
theorem Inv.virtUnrefAll_run {k t : ℕ} {x : Ti} (htk : t < k)
    (hi : Inv h s (above s x.td.clo.xlate + tok) z) (ht : .ti t ∈ s.live) (hx : h.ti t = some x) :
    ∃ h' s', virtUnrefAll k t h = .ok ((), h') ∧ Inv h' s' tok z ∧ Alike h h' ∧
      s'.live = s.live ∧ s'.refs = s.refs := by
  induction k generalizing h s t x with
  | zero => omega
  | succ k ih =>
    cases hr : x.td.clo.xlate with
    | none =>
      rw [above, hr] at hi
      refine ⟨h, s, ?_, by simpa using hi, Alike.refl h, rfl, rfl⟩
      rw [virtUnrefAll, bind_run (readTi_run hx), hr]
      rfl
    | some r =>
      have hrt := (hi.xlate_live ht hx hr).2
      obtain ⟨k, rfl⟩ : ∃ j, k = j + 1 := ⟨k - 1, by omega⟩
      rw [above, hr, Option.elim_some, Multiset.cons_add] at hi
      obtain ⟨h₁, hrun₁, hi₁, hs₁⟩ := hi.virtUnref_dec (hi.two_le_cnt ht hx hr) k
      have hrl : .rtm r ∈ (s.drop (.rtm r)).live := (hi.xlate_live ht hx hr).1
      obtain ⟨m, hm, -⟩ := hi₁.rtm r hrl
      obtain ⟨hclo, hlt⟩ := hi₁.clo r m hrl hm
      obtain ⟨y, hy, -⟩ := hi₁.ti m.clo hclo
      have hstack : s.refs (.rtm r) = above (s.drop (.rtm r)) y.td.clo.xlate :=
        hi₁.stack r m y hrl hm hy
      rw [hstack] at hi₁
      obtain ⟨h', s', hrun, hi', hs', hlive, hrefs⟩ := ih (by omega) hi₁ hclo hy
      refine ⟨h', s', ?_, hi', hs₁.trans hs', hlive, hrefs⟩
      rw [virtUnrefAll, bind_run (readTi_run hx), hr]
      show (virtUnref (k + 1) (some r) >>= fun _ => _) h = _
      rw [bind_run hrun₁, bind_run (readRtm_run hm)]
      exact hrun

/-- `fsl_virt_free` on a mapping that only its caller refers to. -/
theorem Inv.virtFree_run {k r : ℕ} (hrk : r ≤ k) (hi : Inv h s (.rtm r ::ₘ tok) z)
    (h1 : s.cnt (.rtm r) = 1) :
    ∃ h' s', virtFree (k + 1) r h = .ok ((), h') ∧ Inv h' s' tok z ∧ Kept h s h' s' ∧
      h'.next = h.next ∧ (∀ a, (h.ti a).map Ti.shape = (h'.ti a).map Ti.shape) ∧
      s'.live = s.live.erase (.rtm r) := by
  have hrl : .rtm r ∈ s.live := hi.exact.tok_live _ (Multiset.mem_cons_self _ _)
  obtain ⟨m, hm, hcnt⟩ := hi.rtm r hrl
  obtain ⟨hclo, hlt⟩ := hi.clo r m hrl hm
  obtain ⟨x, hx, -⟩ := hi.ti m.clo hclo
  have hi₁ := hi.releaseRtm h1
  have hstack : s.refs (.rtm r) = above (s.release (.rtm r)) x.td.clo.xlate :=
    hi.stack r m x hrl hm hx
  rw [hstack] at hi₁
  obtain ⟨h₁, s₁, hrun, hi₂, hs, hlive, hrefs⟩ := Inv.virtUnrefAll_run (k := k) (by omega) hi₁
    (Finset.mem_erase.mpr ⟨by simp, hclo⟩) hx
  obtain ⟨m₁, hm₁, -⟩ := hs.exists_rtm hm
  have hdead : .rtm r ∉ s₁.live := by
    rw [hlive]
    exact Finset.notMem_erase _ _
  have hassert : (fslAssert (m.refC = 1) : M V Unit) h = .ok ((), h) := by
    rw [fslAssert, if_pos (hcnt.trans h1)]
    rfl
  refine ⟨h₁.setRtm r none, s₁, ?_, hi₂.eraseRtm hdead, ?_, hs.next.symm, hs.ti, hlive⟩
  · rw [virtFree, bind_run (readRtm_run hm), bind_run hassert, bind_run hrun, freeRtm_run hm₁]
  · refine ⟨hs.next.le, fun o ho _ => ?_, fun o _ _ => by rw [hrefs]; rfl,
      fun a _ _ => (hs.ti a).symm, fun a ha _ => ?_⟩
    · rw [hlive] at ho
      exact Finset.mem_of_mem_erase ho
    · have hne : a ≠ r := by
        rintro rfl
        exact hdead ha
      rw [Heap.setRtm_of_ne _ _ _ hne]
      exact (hs.rtm a).symm

/-- `fsl_virt_unref` drops one reference; the mapping goes with the last one. -/
theorem Inv.virtUnref_run {k r : ℕ} (hrk : r ≤ k) (hi : Inv h s (.rtm r ::ₘ tok) z) :
    ∃ h' s', virtUnref (k + 2) (some r) h = .ok ((), h') ∧ Inv h' s' tok z ∧ Kept h s h' s' ∧
      h'.next = h.next ∧ ∀ a, (h.ti a).map Ti.shape = (h'.ti a).map Ti.shape := by
  have hrl : .rtm r ∈ s.live := hi.exact.tok_live _ (Multiset.mem_cons_self _ _)
  by_cases h1 : s.cnt (.rtm r) = 1
  · obtain ⟨m, hm, hcnt⟩ := hi.rtm r hrl
    obtain ⟨h', s', hrun, hi', hk, hnext, hti, -⟩ := hi.virtFree_run hrk h1
    refine ⟨h', s', ?_, hi', hk, hnext, hti⟩
    rw [virtUnref, bind_run (readRtm_run hm), if_pos (hcnt.trans h1), hrun]
  · have hpos := hi.exact.pos _ hrl
    obtain ⟨h', hrun, hi', hs⟩ := hi.virtUnref_dec (by omega) (k + 1)
    exact ⟨h', _, hrun, hi', Kept.of_alike hs (Finset.Subset.refl _) rfl, hs.next.symm, hs.ti⟩

/-- A mapping that is not held from outside has a type info. -/
theorem Inv.exists_user (hi : Inv h s tok z) {r : ℕ} (htok : .rtm r ∉ tok) (hr : .rtm r ∈ s.live) :
    ∃ a x, .ti a ∈ s.live ∧ h.ti a = some x ∧ x.td.clo.xlate = some r := by
  classical
  have hex : ∃ b, ∃ o ∈ s.live, o.addr = b ∧ .rtm r ∈ s.refs o := by
    have hpos := hi.exact.pos _ hr
    rw [hi.exact.cnt_eq _ hr, Multiset.count_eq_zero.mpr htok, Nat.add_zero] at hpos
    obtain ⟨o, ho, hcount⟩ := Finset.exists_ne_zero_of_sum_ne_zero hpos.ne'
    exact ⟨o.addr, o, ho, rfl, Multiset.count_ne_zero.mp hcount⟩
  obtain ⟨o, ho, haddr, hmem⟩ := Nat.find_spec hex
  cases o with
  | ti a =>
    obtain ⟨x, hx, -, hrefs⟩ := hi.ti a ho
    refine ⟨a, x, ho, hx, ?_⟩
    rw [hrefs, Ti.refs] at hmem
    cases hp : x.prev <;> cases hxl : x.td.clo.xlate <;> simp [hp, hxl] at hmem
    · rw [hmem]
    · rw [hmem]
  | rtm b =>
    -- a mapping that is stacked on it: the lowest one is so directly
    obtain ⟨m, hm, -⟩ := hi.rtm b ho
    obtain ⟨hclo, -⟩ := hi.clo b m ho hm
    obtain ⟨x, hx, -⟩ := hi.ti m.clo hclo
    have hstack := hi.stack b m x ho hm hx
    refine ⟨m.clo, x, hclo, hx, ?_⟩
    cases hxl : x.td.clo.xlate with
    | none =>
      rw [hstack, above, hxl] at hmem
      simp at hmem
    | some r₁ =>
      rw [above, hxl, Option.elim_some] at hstack
      have hr₁ : .rtm r₁ ∈ s.refs (.rtm b) := by
        rw [hstack]
        exact Multiset.mem_cons_self _ _
      rw [hstack] at hmem
      rcases Multiset.mem_cons.mp hmem with heq | hdeep
      · rw [Obj.rtm.inj heq]
      · refine absurd ⟨.rtm r₁, hi.exact.closed _ ho _ hr₁, rfl, hdeep⟩ (Nat.find_min hex ?_)
        rw [← haddr]
        exact hi.rank _ ho _ hr₁

/-- The closure of a mapping is that of a type info from which another one was reached. -/
theorem Inv.exists_child (hi : Inv h s tok z) {r : ℕ} {m : Rtm V} (htok : .rtm r ∉ tok)
    (hr : .rtm r ∈ s.live) (hm : h.rtm r = some m) :
    ∃ a x, .ti a ∈ s.live ∧ h.ti a = some x ∧ x.prev = some m.clo := by
  classical
  have hex : ∃ a, ∃ x, .ti a ∈ s.live ∧ h.ti a = some x ∧ x.td.clo.xlate = some r :=
    hi.exists_user htok hr
  obtain ⟨x, ha, hx, hxr⟩ := Nat.find_spec hex
  obtain ⟨p, hp, hinh | ⟨m', hm', hclo⟩⟩ := hi.own _ x r ha hx hxr
  · -- the first type info that uses it does not inherit it
    obtain ⟨hpl, hlt⟩ := hi.prev_live ha hx hp
    obtain ⟨q, y, hql, hqp, hy, hyr⟩ := hi.exists_of_inherits hpl hinh
    exact absurd ⟨y, hql, hy, hyr⟩ (Nat.find_min hex (hqp.trans_lt hlt))
  · rw [hm] at hm'
    cases hm'
    exact ⟨_, x, ha, hx, by rw [hp, hclo]⟩

/-! ## Freeing type infos -/

/-- A type info that nothing refers to is not in use any more, and no mapping is evaluated in it. -/
theorem Inv.releaseTi {t : ℕ} (hi : Inv h s (.ti t ::ₘ tok) z) (htok : ∀ r, .rtm r ∉ tok)
    (h1 : s.cnt (.ti t) = 1) :
    Inv h (s.release (.ti t)) (s.refs (.ti t) + tok) (insert (.ti t) z) := by
  have hlive : ∀ {o}, o ∈ (s.release (.ti t)).live → o ∈ s.live := Finset.mem_of_mem_erase
  refine ⟨hi.exact.release h1, fun a ha => hi.ti a (hlive ha), fun a ha => hi.rtm a (hlive ha), ?_,
    fun a m x ha => hi.stack a m x (hlive ha), fun o ho => hi.lt_next o (hlive ho),
    fun n hn => hi.rank n (hlive hn), fun a x r' ha => hi.own a x r' (hlive ha), ?_, ?_⟩
  · intro a m ha hm
    obtain ⟨hclo, hlt⟩ := hi.clo a m (hlive ha) hm
    refine ⟨Finset.mem_erase.mpr ⟨fun heq => ?_, hclo⟩, hlt⟩
    obtain ⟨b, x, hb, hx, hp⟩ := hi.exists_child (by simp [htok a]) (hlive ha) hm
    refine Exact.not_mem_refs hb (hi.exact.unreferenced h1).1 ?_
    rw [hi.refs_eq hb hx, Ti.refs, hp, Obj.ti.inj heq]
    simp
  · intro a ha
    rcases hi.mem_ti a ha with hl | hz
    · by_cases heq : a = t
      · subst heq
        exact .inr (Set.mem_insert _ _)
      · exact .inl (Finset.mem_erase.mpr ⟨fun h => heq (Obj.ti.inj h), hl⟩)
    · exact .inr (Set.mem_insert_of_mem _ hz)
  · intro a ha
    rcases hi.mem_rtm a ha with hl | hz
    · exact .inl (Finset.mem_erase.mpr ⟨by simp, hl⟩)
    · exact .inr (Set.mem_insert_of_mem _ hz)

theorem Kept.writeZombie {t : ℕ} (x : Option Ti) (hlive : s'.live ⊆ s.live)
    (hrefs : s'.refs = s.refs) (ht : .ti t ∉ s'.live) : Kept h s (h.setTi t x) s' := by
  refine ⟨le_rfl, fun o ho _ => hlive ho, fun o _ _ => by rw [hrefs], fun a ha _ => ?_,
    fun _ _ _ => rfl⟩
  have hne : a ≠ t := by
    rintro rfl
    exact ht ha
  rw [Heap.setTi_of_ne _ _ _ hne]

/-- The mapping of a type info that goes. -/
theorem Inv.virtUnref_xlate {x : Ti} {rest : Multiset Obj}
    (hi : Inv h s (x.td.clo.xlate.elim 0 (fun r => {.rtm r}) + rest) z) :
    ∃ h' s', virtUnref (h.next + 2) x.td.clo.xlate h = .ok ((), h') ∧ Inv h' s' rest z ∧
      Kept h s h' s' ∧ h'.next = h.next ∧ (∀ a, (h.ti a).map Ti.shape = (h'.ti a).map Ti.shape) := by
  cases hr : x.td.clo.xlate with
  | none =>
    rw [hr, Option.elim_none, Multiset.zero_add] at hi
    refine ⟨h, s, ?_, hi, Kept.of_alike (Alike.refl h) (Finset.Subset.refl _) rfl, rfl, fun _ => rfl⟩
    rw [virtUnref]
    rfl
  | some r =>
    rw [hr, Option.elim_some, Multiset.singleton_add] at hi
    have hlt := hi.lt_next _ (hi.exact.tok_live _ (Multiset.mem_cons_self _ _))
    obtain ⟨h', s', hrun, hi', hk, hnext, hti⟩ := hi.virtUnref_run (le_of_lt hlt)
    exact ⟨h', s', hrun, hi', hk, hnext, hti⟩

theorem typeinfoUnref_run {t : ℕ} {x : Ti} (hx : h.ti t = some x) (hpos : 0 < x.refC) :
    typeinfoUnref t h = .ok (x.refC - 1, h.setTi t (some { x with refC := x.refC - 1 })) := by
  have hassert : (fslAssert (0 < x.refC) : M V Unit) h = .ok ((), h) := by
    rw [fslAssert, if_pos hpos]
    rfl
  rw [typeinfoUnref, bind_run (readTi_run hx), bind_run hassert, bind_run (writeTi_run hx)]
  rfl

theorem Kept.not_live (hk : Kept h s h' s') (hi : Inv h' s' tok z) (hnext : h'.next = h.next)
    {o : Obj} (ho : o ∉ s.live) : o ∉ s'.live :=
  fun hmem => ho (hk.live o hmem (hnext ▸ hi.lt_next o hmem))

/-- The references of a type info as tokens, its mapping first. -/
theorem Ti.refs_add (x : Ti) (tok : Multiset Obj) :
    x.refs + tok = x.td.clo.xlate.elim 0 (fun r => {.rtm r}) +
      (x.prev.elim 0 (fun p => {.ti p}) + tok) := by
  rw [Ti.refs, add_comm (x.prev.elim 0 _), add_assoc]

/-- The first part of freeing a type info that nothing else refers to: it gives up its mapping. -/
theorem Inv.releaseXlate {t : ℕ} {x : Ti} (hi : Inv h s (.ti t ::ₘ tok) z) (htok : ∀ r, .rtm r ∉ tok)
    (h1 : s.cnt (.ti t) = 1) (hx : h.ti t = some x) (x₀ : Ti) (htd : x₀.td = x.td) :
    ∃ h' s', virtUnref (h.next + 2) x₀.td.clo.xlate (h.setTi t (some x₀)) = .ok ((), h') ∧
      Inv h' s' (x.prev.elim 0 (fun p => {.ti p}) + tok) (insert (.ti t) z) ∧
      Kept h s h' s' ∧ h'.next = h.next ∧ .ti t ∉ s'.live ∧ h'.ti t ≠ none ∧
      ∀ a, a ≠ t → (h'.ti a).map Ti.shape = (h.ti a).map Ti.shape := by
  have htl : .ti t ∈ s.live := hi.exact.tok_live _ (Multiset.mem_cons_self _ _)
  have hdead : .ti t ∉ (s.release (.ti t)).live := Finset.notMem_erase _ _
  have hi₀ : Inv (h.setTi t (some x₀)) (s.release (.ti t)) (x.refs + tok) (insert (.ti t) z) := by
    rw [← hi.refs_eq htl hx]
    exact (hi.releaseTi htok h1).writeZombie hdead fun _ => Set.mem_insert _ _
  rw [Ti.refs_add, ← htd] at hi₀
  obtain ⟨h', s', hrun, hi', hk, hnext, hti⟩ := hi₀.virtUnref_xlate
  have hk₀ : Kept h s (h.setTi t (some x₀)) (s.release (.ti t)) :=
    Kept.writeZombie _ (Finset.erase_subset _ _) rfl hdead
  refine ⟨h', s', hrun, hi', hk₀.trans hk, hnext, hk.not_live hi' hnext hdead, fun hnone => ?_,
    fun a ha => ?_⟩
  · have heq := hti t
    rw [Heap.setTi_self, hnone] at heq
    cases heq
  · rw [← hti a, Heap.setTi_of_ne _ _ _ ha]

/-- `typeinfo_free` drops one reference; with the last one the type info goes, then those it was reached
from that nothing else refers to. -/
theorem Inv.typeinfoFree_run {k t : ℕ} (htk : t < k) (hi : Inv h s (.ti t ::ₘ tok) z)
    (htok : ∀ r, .rtm r ∉ tok) :
    ∃ h' s', typeinfoFree k t h = .ok ((), h') ∧ Inv h' s' tok z ∧ Kept h s h' s' ∧
      h'.next = h.next ∧
      ∀ a, .ti a ∉ s.live → (h'.ti a).map Ti.shape = (h.ti a).map Ti.shape := by
  induction k generalizing h s t z with
  | zero => omega
  | succ k ih =>
    have htl : .ti t ∈ s.live := hi.exact.tok_live _ (Multiset.mem_cons_self _ _)
    obtain ⟨⟨td, prev, refC⟩, hx, hcnt, -⟩ := hi.ti t htl
    set x : Ti := ⟨td, prev, refC⟩ with hxdef
    have hpos := hi.exact.pos _ htl
    have hunref := typeinfoUnref_run hx (by omega)
    have hne_t : ∀ {a}, .ti a ∉ s.live → a ≠ t := by
      rintro a ha rfl
      exact ha htl
    by_cases h1 : s.cnt (.ti t) = 1
    · have hzero : ¬ x.refC - 1 ≠ 0 := by omega
      obtain ⟨h₁, s₁, hrun₁, hi₁, hk₁, hnext₁, hdead₁, hmem₁, hframe₁⟩ :=
        hi.releaseXlate htok h1 hx { x with refC := x.refC - 1 } rfl
      obtain ⟨x₁, hx₁⟩ := Option.ne_none_iff_exists'.mp hmem₁
      -- the memory is still there while the type infos before it are freed
      set x₂ : Ti := { x with
        td := { x.td with clo := { x.td.clo with xlate := none } }, refC := x.refC - 1 } with hx₂
      have hi₂ : Inv (h₁.setTi t (some x₂)) s₁ (prev.elim 0 (fun p => {.ti p}) + tok)
          (insert (.ti t) z) := hi₁.writeZombie hdead₁ fun _ => Set.mem_insert _ _
      have hk₂ : Kept h s (h₁.setTi t (some x₂)) s₁ :=
        hk₁.trans (Kept.writeZombie _ (Finset.Subset.refl _) rfl hdead₁)
      cases prev with
      | none =>
        refine ⟨(h₁.setTi t (some x₂)).setTi t none, s₁, ?_, ?_, ?_, hnext₁, fun a ha => ?_⟩
        · rw [typeinfoFree, bind_run hunref, if_neg hzero,
            bind_run (readTi_run (Heap.setTi_self _ _ _))]
          show (virtUnref (h.next + 2) x.td.clo.xlate >>= fun _ => _) _ = _
          rw [bind_run hrun₁, bind_run (writeTi_run hx₁)]
          exact freeTi_run (Heap.setTi_self _ _ _)
        · simpa using hi₂.eraseTi hdead₁
        · exact hk₂.trans (Kept.writeZombie _ (Finset.Subset.refl _) rfl hdead₁)
        · rw [Heap.setTi_of_ne _ _ _ (hne_t ha), Heap.setTi_of_ne _ _ _ (hne_t ha),
            hframe₁ a (hne_t ha)]
      | some p =>
        rw [Option.elim_some, Multiset.singleton_add] at hi₂
        have hpt := (hi.prev_live htl hx rfl).2
        obtain ⟨h₃, s₃, hrun₃, hi₃, hk₃, hnext₃, hframe₃⟩ := ih (by omega) hi₂
        have hdead₃ : .ti t ∉ s₃.live := hk₃.not_live hi₃ hnext₃ hdead₁
        have hmem₃ : (h₃.ti t).map Ti.shape = some x₂.shape := by
          rw [hframe₃ t hdead₁, Heap.setTi_self]
          rfl
        obtain ⟨x₃, hx₃, -⟩ := Option.map_eq_some_iff.mp hmem₃
        refine ⟨h₃.setTi t none, s₃, ?_, hi₃.eraseTi hdead₃, ?_, hnext₃.trans hnext₁, fun a ha => ?_⟩
        · rw [typeinfoFree, bind_run hunref, if_neg hzero,
            bind_run (readTi_run (Heap.setTi_self _ _ _))]
          show (virtUnref (h.next + 2) x.td.clo.xlate >>= fun _ => _) _ = _
          rw [bind_run hrun₁, bind_run (writeTi_run hx₁)]
          exact (bind_run hrun₃).trans (freeTi_run hx₃)
        · exact (hk₂.trans hk₃).trans (Kept.writeZombie _ (Finset.Subset.refl _) rfl hdead₃)
        · rw [Heap.setTi_of_ne _ _ _ (hne_t ha), hframe₃ a (hk₂.not_live hi₂ hnext₁ ha),
            Heap.setTi_of_ne _ _ _ (hne_t ha), hframe₁ a (hne_t ha)]
    · have hne : x.refC - 1 ≠ 0 := by omega
      have hs : Alike h (h.setTi t (some { x with refC := x.refC - 1 })) := alike_writeTi hx rfl
      refine ⟨h.setTi t (some { x with refC := x.refC - 1 }), s.drop (.ti t), ?_, ?_,
        Kept.of_alike hs (Finset.Subset.refl _) rfl, rfl, fun a _ => (hs.ti a).symm⟩
      · rw [typeinfoFree, bind_run hunref, if_pos hne]
        rfl
      · rw [hcnt]
        exact hi.recountTi hx (hi.exact.drop (by omega))

end Fsl.TypeInfo
