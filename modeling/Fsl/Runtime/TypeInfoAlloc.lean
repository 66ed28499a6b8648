import Fsl.Runtime.TypeInfoEval

/-!
# Allocations

Every way to reach a new type info, on the store of counted references. A new object is memory that
nothing knows until the references it holds have been taken.
-/

namespace Fsl.TypeInfo

open RefCount

variable {V : Type} {h h' : Heap V} {s s' : Store Obj} {tok tok' : Multiset Obj} {z : Set Obj}

/-! ## New memory -/

def Heap.newTi (h : Heap V) (x : Ti) : Heap V := { h.setTi h.next (some x) with next := h.next + 1 }

def Heap.newRtm (h : Heap V) (m : Rtm V) : Heap V :=
  { h.setRtm h.next (some m) with next := h.next + 1 }

theorem allocTi_run (x : Ti) : allocTi x h = .ok (h.next, h.newTi x) := rfl

theorem allocRtm_run (m : Rtm V) : allocRtm m h = .ok (h.next, h.newRtm m) := rfl

theorem Heap.newTi_self (h : Heap V) (x : Ti) : (h.newTi x).ti h.next = some x :=
  Heap.setTi_self h h.next (some x)

theorem Heap.newTi_of_ne {a : ℕ} (h : Heap V) (x : Ti) (ha : a ≠ h.next) :
    (h.newTi x).ti a = h.ti a :=
  Heap.setTi_of_ne h h.next (some x) ha

theorem Heap.newRtm_self (h : Heap V) (m : Rtm V) : (h.newRtm m).rtm h.next = some m :=
  Heap.setRtm_self h h.next (some m)

theorem Heap.newRtm_of_ne {a : ℕ} (h : Heap V) (m : Rtm V) (ha : a ≠ h.next) :
    (h.newRtm m).rtm a = h.rtm a :=
  Heap.setRtm_of_ne h h.next (some m) ha

theorem Inv.ne_next (hi : Inv h s tok z) {o : Obj} (ho : o ∈ s.live) : o.addr ≠ h.next :=
  (hi.lt_next o ho).ne

theorem Inv.newTi (hi : Inv h s tok z) (x : Ti) : Inv (h.newTi x) s tok (insert (.ti h.next) z) := by
  have hold : ∀ {a}, .ti a ∈ s.live → (h.newTi x).ti a = h.ti a :=
    fun ha => h.newTi_of_ne x (hi.ne_next ha)
  refine ⟨hi.exact, ?_, hi.rtm, hi.clo, ?_, ?_, hi.rank, ?_, ?_, ?_⟩
  · intro a ha
    rw [hold ha]
    exact hi.ti a ha
  · intro a m y ha hm hy
    rw [hold (hi.clo a m ha hm).1] at hy
    exact hi.stack a m y ha hm hy
  · intro o ho
    exact Nat.lt_succ_of_lt (hi.lt_next o ho)
  · intro a y r ha hy hr
    rw [hold ha] at hy
    obtain ⟨p, hp, hown⟩ := hi.own a y r ha hy hr
    refine ⟨p, hp, hown.imp_left fun hinh => ?_⟩
    exact hi.inherits_congr (hi.prev_live ha hy hp).1 hinh fun b v hb hv =>
      ⟨v, by rw [hold hb, hv], rfl, rfl⟩
  · intro a ha
    by_cases heq : a = h.next
    · rw [heq]
      exact .inr (Set.mem_insert _ _)
    · rw [h.newTi_of_ne x heq] at ha
      exact (hi.mem_ti a ha).imp_right (Set.mem_insert_of_mem _)
  · intro a ha
    exact (hi.mem_rtm a ha).imp_right (Set.mem_insert_of_mem _)

theorem Inv.newRtm (hi : Inv h s tok z) (m : Rtm V) :
    Inv (h.newRtm m) s tok (insert (.rtm h.next) z) := by
  have hold : ∀ {a}, .rtm a ∈ s.live → (h.newRtm m).rtm a = h.rtm a :=
    fun ha => h.newRtm_of_ne m (hi.ne_next ha)
  refine ⟨hi.exact, hi.ti, ?_, ?_, ?_, ?_, hi.rank, ?_, ?_, ?_⟩
  · intro a ha
    rw [hold ha]
    exact hi.rtm a ha
  · intro a m' ha hm
    rw [hold ha] at hm
    exact hi.clo a m' ha hm
  · intro a m' y ha hm hy
    rw [hold ha] at hm
    exact hi.stack a m' y ha hm hy
  · intro o ho
    exact Nat.lt_succ_of_lt (hi.lt_next o ho)
  · intro a y r ha hy hr
    rw [hold (hi.xlate_live ha hy hr).1]
    exact hi.own a y r ha hy hr
  · intro a ha
    exact (hi.mem_ti a ha).imp_right (Set.mem_insert_of_mem _)
  · intro a ha
    by_cases heq : a = h.next
    · rw [heq]
      exact .inr (Set.mem_insert _ _)
    · rw [h.newRtm_of_ne m heq] at ha
      exact (hi.mem_rtm a ha).imp_right (Set.mem_insert_of_mem _)

/-- The memory before and after is the same except at new addresses. -/
theorem Kept.newTi (x : Ti) : Kept h s (h.newTi x) s := by
  refine ⟨Nat.le_succ _, fun _ ho _ => ho, fun _ _ _ => rfl, fun a _ hlt => ?_, fun _ _ _ => rfl⟩
  rw [h.newTi_of_ne x hlt.ne]

theorem Kept.newRtm (m : Rtm V) : Kept h s (h.newRtm m) s := by
  refine ⟨Nat.le_succ _, fun _ ho _ => ho, fun _ _ _ => rfl, fun _ _ _ => rfl, fun a _ hlt => ?_⟩
  rw [h.newRtm_of_ne m hlt.ne]

theorem Kept.insert (hk : Kept h s h' s') {o : Obj} {rs : Multiset Obj} (ho : h.next ≤ o.addr) :
    Kept h s h' (s'.insert o rs) := by
  have hne : ∀ {n : Obj}, n.addr < h.next → n ≠ o := by
    rintro n hn rfl
    omega
  have hold : ∀ {n : Obj}, n ∈ (s'.insert o rs).live → n.addr < h.next → n ∈ s'.live :=
    fun hmem hn => (Store.mem_insert.mp hmem).resolve_left (hne hn)
  refine ⟨hk.next, fun n hmem hn => hk.live n (hold hmem hn) hn, fun n hmem hn => ?_,
    fun a ha hlt => hk.ti a (hold ha hlt) hlt, fun a ha hlt => hk.rtm a (hold ha hlt) hlt⟩
  rw [Store.insert_refs_of_ne (hne hn)]
  exact hk.refs n (hold hmem hn) hn

/-! ## New objects -/

/-- Where a type info may have its mapping from: one that it was reached from has it, or it is evaluated
in the closure of the last of them. -/
def Owned (h : Heap V) (xlate prev : Option ℕ) : Prop :=
  ∀ r, xlate = some r →
    ∃ p, prev = some p ∧ (Inherits h.ti p r ∨ ∃ m, h.rtm r = some m ∧ m.clo = p)

theorem above_insert {o : Obj} {rs : Multiset Obj} (ho : o ∉ s.live) {xlate : Option ℕ}
    (hlive : ∀ r, xlate = some r → .rtm r ∈ s.live) : above (s.insert o rs) xlate = above s xlate := by
  cases xlate with
  | none => rfl
  | some r =>
    have hne : Obj.rtm r ≠ o := fun heq => ho (heq ▸ hlive r rfl)
    rw [above, Option.elim_some, Store.insert_refs_of_ne hne]
    rfl

/-- A type info that holds its references is an object in use. -/
theorem Inv.insertTi {t : ℕ} {x : Ti} (hi : Inv h s (x.refs + tok) (insert (.ti t) z))
    (hx : h.ti t = some x) (h1 : x.refC = 1) (ht : .ti t ∉ s.live) (hlt : t < h.next)
    (hrank : ∀ o ∈ x.refs, o.addr < t) (hown : Owned h x.td.clo.xlate x.prev) :
    Inv h (s.insert (.ti t) x.refs) (.ti t ::ₘ tok) z := by
  have hne : ∀ {o}, o ∈ s.live → o ≠ .ti t := fun ho heq => ht (heq ▸ ho)
  have hold : ∀ {o}, o ∈ s.live → (s.insert (.ti t) x.refs).cnt o = s.cnt o ∧
      (s.insert (.ti t) x.refs).refs o = s.refs o := fun ho =>
    ⟨Store.insert_cnt_of_ne (hne ho), Store.insert_refs_of_ne (hne ho)⟩
  have hcases : ∀ {o}, o ∈ (s.insert (.ti t) x.refs).live → o = .ti t ∨ o ∈ s.live :=
    Store.mem_insert.mp
  have hrtm : ∀ {a}, .rtm a ∈ (s.insert (.ti t) x.refs).live → .rtm a ∈ s.live :=
    fun ha => (hcases ha).resolve_left (by simp)
  refine ⟨hi.exact.insert ht, ?_, ?_, ?_, ?_, ?_, ?_, ?_, ?_, ?_⟩
  · intro a ha
    rcases hcases ha with heq | ha
    · rw [heq, Obj.ti.inj heq]
      exact ⟨x, hx, h1.trans Store.insert_cnt_self.symm, Store.insert_refs_self⟩
    · rw [(hold ha).1, (hold ha).2]
      exact hi.ti a ha
  · intro a ha
    rw [(hold (hrtm ha)).1]
    exact hi.rtm a (hrtm ha)
  · intro a m ha hm
    obtain ⟨hclo, hcr⟩ := hi.clo a m (hrtm ha) hm
    exact ⟨Finset.mem_insert_of_mem hclo, hcr⟩
  · intro a m y ha hm hy
    have hclo := (hi.clo a m (hrtm ha) hm).1
    rw [(hold (hrtm ha)).2, above_insert ht fun r hr => (hi.xlate_live hclo hy hr).1]
    exact hi.stack a m y (hrtm ha) hm hy
  · intro o ho
    rcases hcases ho with rfl | ho
    · exact hlt
    · exact hi.lt_next o ho
  · intro n hn o ho
    rcases hcases hn with rfl | hn
    · rw [Store.insert_refs_self] at ho
      exact hrank o ho
    · rw [(hold hn).2] at ho
      exact hi.rank n hn o ho
  · intro a y r ha hy hr
    rcases hcases ha with heq | ha
    · rw [Obj.ti.inj heq, hx] at hy
      cases hy
      exact hown r hr
    · exact hi.own a y r ha hy hr
  · intro a ha
    rcases hi.mem_ti a ha with hl | hz
    · exact .inl (Finset.mem_insert_of_mem hl)
    · rcases hz with heq | hz
      · exact .inl (heq ▸ Finset.mem_insert_self _ _)
      · exact .inr hz
  · intro a ha
    rcases hi.mem_rtm a ha with hl | hz
    · exact .inl (Finset.mem_insert_of_mem hl)
    · exact .inr (hz.resolve_left (by simp))

/-- So is a mapping that holds those it is stacked on. -/
theorem Inv.insertRtm {r : ℕ} {m : Rtm V} {x : Ti}
    (hi : Inv h s (above s x.td.clo.xlate + tok) (insert (.rtm r) z)) (hm : h.rtm r = some m)
    (h1 : m.refC = 1) (hr : .rtm r ∉ s.live) (hlt : r < h.next) (hclo : .ti m.clo ∈ s.live)
    (hx : h.ti m.clo = some x) (hcr : m.clo < r) :
    Inv h (s.insert (.rtm r) (above s x.td.clo.xlate)) (.rtm r ::ₘ tok) z := by
  set rs := above s x.td.clo.xlate with hrs
  have hne : ∀ {o}, o ∈ s.live → o ≠ .rtm r := fun ho heq => hr (heq ▸ ho)
  have hold : ∀ {o}, o ∈ s.live → (s.insert (.rtm r) rs).cnt o = s.cnt o ∧
      (s.insert (.rtm r) rs).refs o = s.refs o := fun ho =>
    ⟨Store.insert_cnt_of_ne (hne ho), Store.insert_refs_of_ne (hne ho)⟩
  have hcases : ∀ {o}, o ∈ (s.insert (.rtm r) rs).live → o = .rtm r ∨ o ∈ s.live :=
    Store.mem_insert.mp
  have hti : ∀ {a}, .ti a ∈ (s.insert (.rtm r) rs).live → .ti a ∈ s.live :=
    fun ha => (hcases ha).resolve_left (by simp)
  have habove : ∀ {a y}, .ti a ∈ s.live → h.ti a = some y →
      above (s.insert (.rtm r) rs) y.td.clo.xlate = above s y.td.clo.xlate :=
    fun ha hy => above_insert hr fun r' hr' => (hi.xlate_live ha hy hr').1
  refine ⟨hi.exact.insert hr, ?_, ?_, ?_, ?_, ?_, ?_, ?_, ?_, ?_⟩
  · intro a ha
    rw [(hold (hti ha)).1, (hold (hti ha)).2]
    exact hi.ti a (hti ha)
  · intro a ha
    rcases hcases ha with heq | ha
    · rw [heq, Obj.rtm.inj heq]
      exact ⟨m, hm, h1.trans Store.insert_cnt_self.symm⟩
    · rw [(hold ha).1]
      exact hi.rtm a ha
  · intro a m' ha hm'
    rcases hcases ha with heq | ha
    · rw [Obj.rtm.inj heq, hm] at hm'
      cases hm'
      rw [Obj.rtm.inj heq]
      exact ⟨Finset.mem_insert_of_mem hclo, hcr⟩
    · obtain ⟨hcl, hca⟩ := hi.clo a m' ha hm'
      exact ⟨Finset.mem_insert_of_mem hcl, hca⟩
  · intro a m' y ha hm' hy
    rcases hcases ha with heq | ha
    · rw [Obj.rtm.inj heq, hm] at hm'
      cases hm'
      rw [hx] at hy
      cases hy
      rw [heq, habove hclo hx, ← hrs]
      exact Store.insert_refs_self
    · rw [(hold ha).2, habove (hi.clo a m' ha hm').1 hy]
      exact hi.stack a m' y ha hm' hy
  · intro o ho
    rcases hcases ho with rfl | ho
    · exact hlt
    · exact hi.lt_next o ho
  · intro n hn o ho
    rcases hcases hn with rfl | hn
    · -- below the mapping of the closure, which is below the closure
      rw [Store.insert_refs_self] at ho
      cases hxl : x.td.clo.xlate with
      | none =>
        rw [hrs, hxl] at ho
        simp [above] at ho
      | some r' =>
        obtain ⟨hr'l, hr't⟩ := hi.xlate_live hclo hx hxl
        rw [hrs, hxl, above, Option.elim_some] at ho
        rcases Multiset.mem_cons.mp ho with rfl | ho
        · exact hr't.trans hcr
        · exact ((hi.rank _ hr'l o ho).trans hr't).trans hcr
    · rw [(hold hn).2] at ho
      exact hi.rank n hn o ho
  · intro a y r' ha hy hr'
    exact hi.own a y r' (hti ha) hy hr'
  · intro a ha
    rcases hi.mem_ti a ha with hl | hz
    · exact .inl (Finset.mem_insert_of_mem hl)
    · exact .inr (hz.resolve_left (by simp))
  · intro a ha
    rcases hi.mem_rtm a ha with hl | hz
    · exact .inl (Finset.mem_insert_of_mem hl)
    · rcases hz with heq | hz
      · exact .inl (heq ▸ Finset.mem_insert_self _ _)
      · exact .inr hz

/-! ## Type infos -/

theorem Owned.kept (hk : Kept h s h' s') (hi : Inv h' s' tok z) {xlate prev : Option ℕ} (hown : Owned h xlate prev)
    (hprev : ∀ p, prev = some p → .ti p ∈ s'.live ∧ p < h.next)
    (hxlate : ∀ r, xlate = some r → .rtm r ∈ s'.live ∧ r < h.next) : Owned h' xlate prev := by
  intro r hr
  obtain ⟨p, hp, hinh | ⟨m, hm, hclo⟩⟩ := hown r hr
  · refine ⟨p, hp, .inl (hinh.congr (P := fun b => .ti b ∈ s'.live ∧ b < h.next) (hprev p hp) ?_)⟩
    intro b y hb hy
    obtain ⟨y', hy', htd, hprev'⟩ := hk.exists_ti hb.1 hb.2 hy
    refine ⟨y', hy', htd, hprev', fun c hc => ?_⟩
    obtain ⟨hcl, hcb⟩ := hi.prev_live hb.1 hy' (hprev'.trans hc)
    exact ⟨hcl, hcb.trans hb.2⟩
  · obtain ⟨m', hm', hclo', -⟩ := hk.exists_rtm (hxlate r hr).1 (hxlate r hr).2 hm
    exact ⟨p, hp, .inr ⟨m', hm', by rw [hclo', hclo]⟩⟩

theorem Inv.virtRef_opt (hi : Inv h s tok z) {xlate : Option ℕ}
    (hlive : ∀ r, xlate = some r → .rtm r ∈ s.live) :
    ∃ h' s', virtRef xlate h = .ok (xlate, h') ∧
      Inv h' s' (xlate.elim 0 (fun r => {.rtm r}) + tok) z ∧ Alike h h' ∧ s'.live = s.live ∧
      s'.refs = s.refs := by
  cases xlate with
  | none => exact ⟨h, s, rfl, by simpa using hi, Alike.refl h, rfl, rfl⟩
  | some r =>
    obtain ⟨h', hrun, hi', hs, -⟩ := hi.virtRef_run (hlive r rfl)
    exact ⟨h', s.acquire (.rtm r), hrun, by simpa using hi', hs, rfl, rfl⟩

/-- The reference to where a new type info was reached from. -/
theorem Inv.refPrev (hi : Inv h s tok z) (prev : Option ℕ) (t : ℕ)
    (hprev : ∀ p, prev = some p → .ti p ∈ s.live ∧ p < t) :
    ∃ h' s', (match prev with
        | none => pure (some t)
        | some p => do
          typeinfoRef p
          pure (some t) : M V (Option ℕ)) h = .ok (some t, h') ∧
      Inv h' s' (prev.elim 0 (fun p => {.ti p}) + tok) z ∧ Alike h h' ∧ s'.live = s.live ∧
      s'.refs = s.refs ∧ h'.ti t = h.ti t := by
  cases prev with
  | none => exact ⟨h, s, rfl, by simpa using hi, Alike.refl h, rfl, rfl, rfl⟩
  | some p =>
    obtain ⟨hpl, hpt⟩ := hprev p rfl
    obtain ⟨h', hrun, hi', hs, hframe⟩ := hi.typeinfoRef_run hpl
    refine ⟨h', s.acquire (.ti p), ?_, by simpa using hi', hs, rfl, rfl, hframe t hpt.ne'⟩
    show (typeinfoRef p >>= fun _ => _) h = _
    rw [bind_run hrun]
    rfl

/-- What `typeinfo_alloc_generic` leaves: a new type info with its references, which its caller holds. -/
structure Fresh (h : Heap V) (s : Store Obj) (tok : Multiset Obj) (z : Set Obj)
    (xlate prev : Option ℕ) (h' : Heap V) (s' : Store Obj) : Prop where
  inv : Inv h' s' (.ti h.next ::ₘ tok) z
  kept : Kept h s h' s'
  next : h'.next = h.next + 1
  live : s'.live = insert (.ti h.next) s.live
  self : ∃ x, h'.ti h.next = some x ∧ x.td.clo.xlate = xlate ∧ x.prev = prev

theorem Inv.allocGeneric_run (E : Env V) (hi : Inv h s tok z) {td : Desc} {prev : Option ℕ}
    (hprev : ∀ p, prev = some p → .ti p ∈ s.live)
    (hxlate : ∀ r, td.clo.xlate = some r → .rtm r ∈ s.live) (hown : Owned h td.clo.xlate prev) :
    allocGeneric E td prev h = .ok (none, h) ∨
      ∃ h' s', allocGeneric E td prev h = .ok (some h.next, h') ∧
        Fresh h s tok z td.clo.xlate prev h' s' := by
  by_cases hrange : td.clo.offset < E.bdevBits
  · right
    obtain ⟨h₁, s₁, hrun₁, hi₁, hs₁, hlive₁, hrefs₁⟩ := hi.virtRef_opt hxlate
    set params := if td.typenum = typenumInvalid then [] else td.clo.params.take (E.paramC td.typenum)
      with hparams
    set x : Ti := ⟨⟨td.typenum, ⟨td.clo.offset, params, td.clo.xlate⟩⟩, prev, 1⟩ with hx
    have hnext : h₁.next = h.next := hs₁.next.symm
    have hi₂ := hi₁.newTi x
    obtain ⟨h₃, s₃, hrun₃, hi₃, hs₃, hlive₃, hrefs₃, hself₃⟩ := hi₂.refPrev prev h₁.next
      fun p hp => by
        have hpl := hprev p hp
        rw [← hlive₁] at hpl
        exact ⟨hpl, hi₁.lt_next _ hpl⟩
    have hlive : s₃.live = s.live := hlive₃.trans hlive₁
    have hk : Kept h s h₃ s₃ :=
      (Kept.of_alike hs₁ hlive₁.le hrefs₁).trans
        ((Kept.newTi x).trans (Kept.of_alike hs₃ hlive₃.le hrefs₃))
    have hdead : .ti h.next ∉ s.live := fun hmem => hi.ne_next hmem rfl
    have hself : h₃.ti h.next = some x := by
      rw [← hnext, hself₃]
      exact h₁.newTi_self x
    rw [hnext] at hi₃ hrun₃
    have htok : prev.elim 0 (fun p => {.ti p}) + (td.clo.xlate.elim 0 (fun r => {.rtm r}) + tok) =
        x.refs + tok := (add_assoc _ _ _).symm
    rw [htok] at hi₃
    have hold : ∀ o ∈ x.refs, o.addr < h.next := fun o ho => by
      have hol := hi₃.exact.tok_live o (Multiset.mem_add.mpr (.inl ho))
      rw [hlive] at hol
      exact hi.lt_next o hol
    have hown₃ : Owned h₃ x.td.clo.xlate x.prev := hown.kept hk hi₃
      (fun p hp => ⟨hlive ▸ hprev p hp, hi.lt_next _ (hprev p hp)⟩)
      (fun r hr => ⟨hlive ▸ hxlate r hr, hi.lt_next _ (hxlate r hr)⟩)
    have hnext₃ : h₃.next = h.next + 1 := by
      rw [← hs₃.next, ← hnext]
      rfl
    refine ⟨h₃, s₃.insert (.ti h.next) x.refs, ?_, ⟨?_, ?_, hnext₃, ?_, x, hself, rfl, rfl⟩⟩
    · rw [allocGeneric, if_neg (not_not.mpr hrange), bind_run hrun₁, bind_run (allocTi_run x), hnext]
      exact hrun₃
    · exact hi₃.insertTi hself rfl (hlive ▸ hdead) (by omega) hold hown₃
    · exact hk.insert le_rfl
    · show insert _ s₃.live = _
      rw [hlive]
  · left
    rw [allocGeneric, if_pos hrange]
    rfl

/-- A type info with another mapping. -/
def Ti.withXlate (x : Ti) (xlate : Option ℕ) : Ti :=
  { x with td := { x.td with clo := { x.td.clo with xlate := xlate } } }

/-- The newest type info takes over the mapping of the one it was reached from. -/
theorem Inv.attachXlate {t p r : ℕ} {x y : Ti} (hi : Inv h s (.rtm r ::ₘ tok) z)
    (ht : .ti t ∈ s.live) (hx : h.ti t = some x) (hnone : x.td.clo.xlate = none)
    (hp : x.prev = some p) (hy : h.ti p = some y) (hyr : y.td.clo.xlate = some r)
    (hnext : h.next = t + 1) :
    Inv (h.setTi t (some (x.withXlate (some r)))) (s.attach (.ti t) (.rtm r)) tok z := by
  have hrtm : ∀ a, (s.attach (.ti t) (.rtm r)).refs (.rtm a) = s.refs (.rtm a) :=
    fun a => Store.attach_refs_of_ne (by simp)
  have hclo_ne : ∀ {a m}, .rtm a ∈ s.live → h.rtm a = some m → m.clo ≠ t := fun ha hm => by
    have hlt := hi.lt_next _ ha
    have hca := (hi.clo _ _ ha hm).2
    simp only [Obj.addr] at hlt
    omega
  have hpl := hi.prev_live ht hx hp
  have hprev_ne : ∀ {a v q}, .ti a ∈ s.live → h.ti a = some v → v.prev = some q → q ≠ t :=
    fun ha hv hq => by
      have hlt := hi.lt_next _ ha
      have hqa := (hi.prev_live ha hv hq).2
      simp only [Obj.addr] at hlt
      omega
  refine ⟨hi.exact.attach ht, ?_, hi.rtm, hi.clo, ?_, hi.lt_next, ?_, ?_, ?_, hi.mem_rtm⟩
  · intro a ha
    by_cases heq : a = t
    · subst heq
      obtain ⟨x', hx', hcnt, hrefs⟩ := hi.ti a ha
      rw [hx] at hx'
      cases hx'
      refine ⟨_, Heap.setTi_self _ _ _, hcnt, ?_⟩
      rw [Store.attach_refs_self, hrefs, Ti.refs, Ti.refs, hnone]
      show _ = _ + {Obj.rtm r}
      rw [Option.elim_none, add_zero, add_comm, Multiset.singleton_add]
      rfl
    · have hne : Obj.ti a ≠ .ti t := fun h => heq (Obj.ti.inj h)
      rw [Heap.setTi_of_ne _ _ _ heq, Store.attach_refs_of_ne hne]
      exact hi.ti a ha
  · intro a m v ha hm hv
    rw [Heap.setTi_of_ne _ _ _ (hclo_ne ha hm)] at hv
    rw [hrtm, hi.stack a m v ha hm hv]
    cases v.td.clo.xlate with
    | none => rfl
    | some r' => rw [above, above, Option.elim_some, Option.elim_some, hrtm]
  · intro n hn o ho
    by_cases heq : n = .ti t
    · subst heq
      rw [Store.attach_refs_self] at ho
      rcases Multiset.mem_cons.mp ho with rfl | ho
      · exact (hi.xlate_live hpl.1 hy hyr).2.trans hpl.2
      · exact hi.rank _ hn o ho
    · rw [Store.attach_refs_of_ne heq] at ho
      exact hi.rank n hn o ho
  · intro a v r' ha hv hr'
    by_cases heq : a = t
    · subst heq
      rw [Heap.setTi_self] at hv
      cases hv
      cases hr'
      refine ⟨p, hp, .inl ⟨p, y, .refl p, ?_, hyr⟩⟩
      rw [Heap.setTi_of_ne _ _ _ hpl.2.ne]
      exact hy
    · rw [Heap.setTi_of_ne _ _ _ heq] at hv
      obtain ⟨q, hq, hown⟩ := hi.own a v r' ha hv hr'
      refine ⟨q, hq, hown.imp_left fun hinh => ?_⟩
      refine hinh.congr (P := fun b => .ti b ∈ s.live ∧ b ≠ t)
        ⟨(hi.prev_live ha hv hq).1, hprev_ne ha hv hq⟩ fun b w hb hw => ⟨w, ?_, rfl, rfl, fun c hc => ?_⟩
      · rw [Heap.setTi_of_ne _ _ _ hb.2, hw]
      · exact ⟨(hi.prev_live hb.1 hw hc).1, hprev_ne hb.1 hw hc⟩
  · intro a ha
    by_cases heq : a = t
    · subst heq
      exact .inl ht
    · rw [Heap.setTi_of_ne _ _ _ heq] at ha
      exact hi.mem_ti a ha

theorem Kept.attach (hk : Kept h s h' s') {t : ℕ} {o : Obj} {x : Option Ti} (ht : h.next ≤ t) :
    Kept h s (h'.setTi t x) (s'.attach (.ti t) o) := by
  refine ⟨hk.next, hk.live, fun n hn hlt => ?_, fun a ha hlt => ?_, hk.rtm⟩
  · have hne : n ≠ .ti t := by
      rintro rfl
      simp only [Obj.addr] at hlt
      omega
    rw [Store.attach_refs_of_ne hne]
    exact hk.refs n hn hlt
  · rw [Heap.setTi_of_ne _ _ _ (by omega)]
    exact hk.ti a ha hlt

/-- A type info by field has the mapping of its parent. -/
theorem Fresh.inheritXlate_run {prev : Option ℕ} (hf : Fresh h s tok z none prev h' s') :
    ∃ h'' s'', inheritXlate h.next prev h' = .ok ((), h'') ∧ Inv h'' s'' (.ti h.next ::ₘ tok) z ∧
      Kept h s h'' s'' ∧ s''.live = s'.live := by
  have htl : .ti h.next ∈ s'.live := hf.inv.exact.tok_live _ (Multiset.mem_cons_self _ _)
  obtain ⟨x, hx, hnone, hp⟩ := hf.self
  cases prev with
  | none => exact ⟨h', s', rfl, hf.inv, hf.kept, rfl⟩
  | some p =>
    obtain ⟨hpl, hpt⟩ := hf.inv.prev_live htl hx hp
    obtain ⟨y, hy, -⟩ := hf.inv.ti p hpl
    rw [inheritXlate, bind_run (readTi_run hy)]
    cases hyr : y.td.clo.xlate with
    | none => exact ⟨h', s', rfl, hf.inv, hf.kept, rfl⟩
    | some r =>
      obtain ⟨h₁, hrun₁, hi₁, hs₁, -⟩ := hf.inv.virtRef_run (hf.inv.xlate_live hpl hy hyr).1
      obtain ⟨x₁, hx₁, htd, hprev⟩ := hs₁.exists_ti hx
      obtain ⟨y₁, hy₁, hytd, -⟩ := hs₁.exists_ti hy
      refine ⟨h₁.setTi h.next (some (x₁.withXlate (some r))),
        (s'.acquire (.rtm r)).attach (.ti h.next) (.rtm r), ?_, ?_, ?_, rfl⟩
      · show (virtRef (some r) >>= fun _ => _) h' = _
        rw [bind_run hrun₁, bind_run (readTi_run hx₁), writeTi_run hx₁]
        rfl
      · exact hi₁.attachXlate htl hx₁ (by rw [htd, hnone]) (by rw [hprev, hp]) hy₁
          (by rw [hytd, hyr]) (by rw [← hs₁.next, hf.next])
      · have hk : Kept h s h₁ (s'.acquire (.rtm r)) :=
          hf.kept.trans (Kept.of_alike hs₁ (Finset.Subset.refl _) rfl)
        exact hk.attach le_rfl

/-! ## Verified type infos -/

/-- What an allocation leaves: its caller holds the type info it returns, which is at a place that its
chain has not visited. -/
structure Outcome (E : Env V) (h : Heap V) (s : Store Obj) (tok : Multiset Obj) (res : Option ℕ)
    (h' : Heap V) (s' : Store Obj) : Prop where
  inv : Inv h' s' (res.elim 0 (fun t => {.ti t}) + tok) ∅
  kept : Kept h s h' s'
  live : ∀ t a, res = some t → .ti a ∈ s'.live → .ti a ∈ s.live ∨ a = t
  place : ∀ t place l, res = some t → Chain E h' (some t) (place :: l) → place ∉ l

theorem Outcome.none (E : Env V) (hi : Inv h' s' tok ∅) (hk : Kept h s h' s') :
    Outcome E h s tok none h' s' :=
  ⟨by simpa using hi, hk, fun _ _ hres => (nomatch hres), fun _ _ _ hres => (nomatch hres)⟩

theorem Inv.verified_run (E : Env V) {t : ℕ} (hi : Inv h' s' (.ti t ::ₘ tok) ∅)
    (htok : ∀ r, .rtm r ∉ tok) (hk : Kept h s h' s')
    (hlive : ∀ a, .ti a ∈ s'.live → .ti a ∈ s.live ∨ a = t) :
    ∃ res h'' s'', verified E t h' = .ok (res, h'') ∧ Outcome E h s tok res h'' s'' := by
  have htl : .ti t ∈ s'.live := hi.exact.tok_live _ (Multiset.mem_cons_self _ _)
  obtain ⟨b, hrun, hplace⟩ := hi.verify_run E htl
  cases b with
  | true =>
    refine ⟨some t, h', s', ?_, ⟨by simpa using hi, hk, ?_, ?_⟩⟩
    · rw [verified, bind_run hrun]
      rfl
    · intro t' a ht' ha
      cases ht'
      exact hlive a ha
    · intro t' place l ht' hl
      cases ht'
      exact hplace rfl place l hl
  | false =>
    have hlt : t < h'.next := hi.lt_next _ htl
    obtain ⟨h₂, s₂, hrun₂, hi₂, hk₂, -⟩ := hi.typeinfoFree_run hlt htok
    refine ⟨none, h₂, s₂, ?_, .none E hi₂ (hk.trans hk₂)⟩
    rw [verified, bind_run hrun, if_neg (by decide), bind_run get_run, bind_run hrun₂]
    rfl

theorem Fresh.live_cases {xlate prev : Option ℕ} (hf : Fresh h s tok z xlate prev h' s') {a : ℕ}
    (ha : .ti a ∈ s'.live) : .ti a ∈ s.live ∨ a = h.next := by
  rw [hf.live] at ha
  rcases Finset.mem_insert.mp ha with heq | ha
  · exact .inr (Obj.ti.inj heq)
  · exact .inl ha

section Alloc

variable (E : Env V) (htok : ∀ r, .rtm r ∉ tok)

include htok

/-- `typeinfo_alloc_pointsto` and `typeinfo_alloc_iter` -/
theorem Inv.allocPointsto_run (hi : Inv h s tok ∅) {td : Desc} {prev : ℕ} (hprev : .ti prev ∈ s.live)
    (hxlate : ∀ r, td.clo.xlate = some r → .rtm r ∈ s.live)
    (hown : Owned h td.clo.xlate (some prev)) :
    ∃ res h' s', allocPointsto E td prev h = .ok (res, h') ∧ Outcome E h s tok res h' s' := by
  have hpl : ∀ p, some prev = some p → .ti p ∈ s.live := by
    rintro p ⟨⟩
    exact hprev
  rcases hi.allocGeneric_run E hpl hxlate hown with hrun | ⟨h₁, s₁, hrun, hf⟩
  · refine ⟨none, h, s, ?_, .none E hi (Kept.of_alike (Alike.refl h) (Finset.Subset.refl _) rfl)⟩
    rw [allocPointsto, bind_run hrun]
    rfl
  · obtain ⟨res, h', s', hrun', hout⟩ := hf.inv.verified_run E htok hf.kept fun a => hf.live_cases
    refine ⟨res, h', s', ?_, hout⟩
    rw [allocPointsto, bind_run hrun]
    exact hrun'

/-- `typeinfo_alloc_by_field` -/
theorem Inv.allocByField_run (hi : Inv h s tok ∅) {td : Desc} {prev : Option ℕ}
    (hprev : ∀ p, prev = some p → .ti p ∈ s.live) (hxlate : td.clo.xlate = none) :
    ∃ res h' s', allocByField E td prev h = .ok (res, h') ∧ Outcome E h s tok res h' s' := by
  have hnone : ∀ r, td.clo.xlate ≠ some r := by
    intro r hr
    rw [hxlate] at hr
    cases hr
  rcases hi.allocGeneric_run E hprev (fun r hr => absurd hr (hnone r))
      (fun r hr => absurd hr (hnone r)) with hrun | ⟨h₁, s₁, hrun, hf⟩
  · refine ⟨none, h, s, ?_, .none E hi (Kept.of_alike (Alike.refl h) (Finset.Subset.refl _) rfl)⟩
    rw [allocByField, bind_run hrun]
    rfl
  · rw [hxlate] at hf
    obtain ⟨h₂, s₂, hrun₂, hi₂, hk₂, hlive₂⟩ := hf.inheritXlate_run
    obtain ⟨res, h', s', hrun', hout⟩ := hi₂.verified_run E htok hk₂
      fun a ha => hf.live_cases (hlive₂ ▸ ha)
    refine ⟨res, h', s', ?_, hout⟩
    rw [allocByField, bind_run hrun]
    show (inheritXlate h.next prev >>= fun _ => _) h₁ = _
    rw [bind_run hrun₂]
    exact hrun'

end Alloc

/-! ## Mappings -/

/-- `fsl_virt_ref_all` takes a reference to a mapping and to all those it is stacked on. -/
theorem Inv.virtRefAll_run {k t : ℕ} {x : Ti} (htk : t < k) (hi : Inv h s tok z)
    (ht : .ti t ∈ s.live) (hx : h.ti t = some x) :
    ∃ h' s', virtRefAll k t h = .ok ((), h') ∧ Inv h' s' (above s x.td.clo.xlate + tok) z ∧
      Alike h h' ∧ s'.live = s.live ∧ s'.refs = s.refs ∧
      ∀ a, .rtm a ∉ s.live → h'.rtm a = h.rtm a := by
  induction k generalizing h s t x tok with
  | zero => omega
  | succ k ih =>
    cases hr : x.td.clo.xlate with
    | none =>
      refine ⟨h, s, ?_, by simpa [above] using hi, Alike.refl h, rfl, rfl, fun _ _ => rfl⟩
      rw [virtRefAll, bind_run (readTi_run hx), hr]
      rfl
    | some r =>
      obtain ⟨hrl, hrt⟩ := hi.xlate_live ht hx hr
      obtain ⟨h₁, hrun₁, hi₁, hs₁, hframe₁⟩ := hi.virtRef_run hrl
      obtain ⟨m, hm, -⟩ := hi₁.rtm r hrl
      obtain ⟨hclo, hlt⟩ := hi₁.clo r m hrl hm
      obtain ⟨y, hy, -⟩ := hi₁.ti m.clo hclo
      obtain ⟨h', s', hrun, hi', hs', hlive, hrefs, hframe⟩ := ih (by omega) hi₁ hclo hy
      have hstack : s.refs (.rtm r) = above (s.acquire (.rtm r)) y.td.clo.xlate :=
        hi₁.stack r m y hrl hm hy
      refine ⟨h', s', ?_, ?_, hs₁.trans hs', hlive, hrefs, fun a ha => ?_⟩
      · rw [virtRefAll, bind_run (readTi_run hx), hr]
        show (virtRef (some r) >>= fun _ => _) h = _
        rw [bind_run hrun₁, bind_run (readRtm_run hm)]
        exact hrun
      · rw [above, Option.elim_some, hstack, Multiset.cons_add, ← Multiset.add_cons]
        exact hi'
      · have hne : a ≠ r := by
          rintro rfl
          exact ha hrl
        rw [hframe a ha, hframe₁ a hne]

/-- What `fsl_virt_alloc` leaves: a new mapping, which its caller holds. -/
structure Mapped (h : Heap V) (s : Store Obj) (tok : Multiset Obj) (t : ℕ) (h' : Heap V)
    (s' : Store Obj) : Prop where
  inv : Inv h' s' (.rtm h.next ::ₘ tok) ∅
  kept : Kept h s h' s'
  live : s'.live = insert (.rtm h.next) s.live
  cnt : s'.cnt (.rtm h.next) = 1
  clo : ∃ m, h'.rtm h.next = some m ∧ m.clo = t

/-- The error exits free the mapping. -/
theorem Mapped.virtFree_run {t : ℕ} (hm : Mapped h s tok t h' s') :
    ∃ h'' s'', virtFree (h'.next + 1) h.next h' = .ok ((), h'') ∧ Inv h'' s'' tok ∅ ∧
      Kept h s h'' s'' := by
  have hlt : h.next < h'.next :=
    hm.inv.lt_next _ (hm.inv.exact.tok_live _ (Multiset.mem_cons_self _ _))
  obtain ⟨h'', s'', hrun, hi, hk, -⟩ := hm.inv.virtFree_run (le_of_lt hlt) hm.cnt
  exact ⟨h'', s'', hrun, hi, hm.kept.trans hk⟩

/-- The mapping before it is evaluated. -/
theorem Inv.mapped (hi : Inv h s tok ∅) {t : ℕ} (ht : .ti t ∈ s.live) (v : V) :
    ∃ h' s', virtRefAll (h.next + 1) t (h.newRtm ⟨t, v, 1⟩) = .ok ((), h') ∧
      h'.next = h.next + 1 ∧ Mapped h s tok t h' s' := by
  obtain ⟨x, hx, -⟩ := hi.ti t ht
  have htn : t < h.next := hi.lt_next _ ht
  have hdead : .rtm h.next ∉ s.live := fun hmem => hi.ne_next hmem rfl
  obtain ⟨h₁, s₁, hrun, hi₁, hs₁, hlive, hrefs, hframe⟩ :=
    Inv.virtRefAll_run (k := h.next + 1) (by omega) (hi.newRtm ⟨t, v, 1⟩) ht hx
  obtain ⟨x₁, hx₁, htd, -⟩ := hs₁.exists_ti (h := h.newRtm ⟨t, v, 1⟩) hx
  have hm : h₁.rtm h.next = some ⟨t, v, 1⟩ := by
    rw [hframe _ hdead]
    exact h.newRtm_self _
  have habove : above s x.td.clo.xlate = above s₁ x₁.td.clo.xlate := by
    rw [above, above, hrefs, htd]
  have hnext : h₁.next = h.next + 1 := hs₁.next.symm
  rw [habove] at hi₁
  have hdead₁ : .rtm h.next ∉ s₁.live := by
    rw [hlive]
    exact hdead
  refine ⟨h₁, s₁.insert (.rtm h.next) (above s₁ x₁.td.clo.xlate), hrun, hnext, ?_, ?_, ?_,
    Store.insert_cnt_self, _, hm, rfl⟩
  · exact hi₁.insertRtm hm rfl hdead₁ (by omega) (hlive ▸ ht) hx₁ htn
  · have hk : Kept h s h₁ s₁ := (Kept.newRtm _).trans (Kept.of_alike hs₁ hlive.le hrefs)
    exact hk.insert le_rfl
  · show insert _ s₁.live = _
    rw [hlive]

section Virt

variable (E : Env V)

/-- `fsl_virt_alloc` -/
theorem Inv.virtAlloc_run (hi : Inv h s tok ∅) {t : ℕ} (ht : .ti t ∈ s.live) (v : V) :
    (∃ h' s', virtAlloc E t v h = .ok (none, h') ∧ Inv h' s' tok ∅ ∧ Kept h s h' s') ∨
      ∃ h' s', virtAlloc E t v h = .ok (some h.next, h') ∧ Mapped h s tok t h' s' := by
  obtain ⟨h₁, s₁, hrun₁, hnext₁, hm⟩ := hi.mapped ht v
  obtain ⟨h₂, s₂, hfree, hi₂, hk₂⟩ := hm.virtFree_run
  have htl : .ti t ∈ s₁.live := by
    rw [hm.live]
    exact Finset.mem_insert_of_mem ht
  obtain ⟨x, hx, -⟩ := hm.inv.ti t htl
  have hxl : ∀ r, x.td.clo.xlate = some r → .rtm r ∈ s₁.live :=
    fun r hr => (hm.inv.xlate_live htl hx hr).1
  obtain ⟨ls, hls, -⟩ := hm.inv.exists_layers h₁.next x.td.clo.xlate
    fun r hr => ⟨hxl r hr, hm.inv.lt_next _ (hxl r hr)⟩
  have hview := hm.inv.view_run hxl hls
  have hstart : virtAlloc E t v h = (if E.loadCache v ⟨x.td.clo.offset, x.td.clo.params, ls⟩ = false
      then do
        virtFree ((← get).next + 1) h.next
        return none
      else match x.td.clo.xlate with
        | none => return some h.next
        | some _ => do
          if (← virtXlate E x.td.clo 0) =
              E.xlate v ⟨x.td.clo.offset, x.td.clo.params, ls⟩ 0 then
            virtFree ((← get).next + 1) h.next
            return none
          return some h.next : M V (Option ℕ)) h₁ := by
    rw [virtAlloc, bind_run (allocRtm_run _), bind_run get_run]
    show (virtRefAll (h.next + 1) t >>= fun _ => _) _ = _
    rw [bind_run hrun₁, bind_run (readTi_run hx)]
    exact bind_run hview
  have hbad : (do
      virtFree ((← get).next + 1) h.next
      return none : M V (Option ℕ)) h₁ = .ok (none, h₂) := by
    rw [bind_run get_run, bind_run hfree]
    rfl
  by_cases hload : E.loadCache v ⟨x.td.clo.offset, x.td.clo.params, ls⟩ = false
  · left
    refine ⟨h₂, s₂, ?_, hi₂, hk₂⟩
    rw [hstart, if_pos hload]
    exact hbad
  · rw [if_neg hload] at hstart
    cases hr : x.td.clo.xlate with
    | none =>
      right
      refine ⟨h₁, s₁, ?_, hm⟩
      rw [hstart, hr]
      rfl
    | some r =>
      obtain ⟨a, ha⟩ := hm.inv.virtXlate_run E x.td.clo hr (hxl r hr) 0
      rw [hr] at hstart
      by_cases heq : a = E.xlate v ⟨x.td.clo.offset, x.td.clo.params, ls⟩ 0
      · left
        refine ⟨h₂, s₂, ?_, hi₂, hk₂⟩
        rw [hstart]
        show (virtXlate E x.td.clo 0 >>= fun _ => _) h₁ = _
        rw [bind_run ha, if_pos heq]
        exact hbad
      · right
        refine ⟨h₁, s₁, ?_, hm⟩
        rw [hstart]
        show (virtXlate E x.td.clo 0 >>= fun _ => _) h₁ = _
        rw [bind_run ha, if_neg heq]
        rfl

/-- `typeinfo_alloc_virt_idx` with a mapping. The extra reference to it goes when the type info has its
own. -/
theorem Mapped.allocInVirt_run {prev : ℕ} (hm : Mapped h s tok prev h' s') (htok : ∀ r, .rtm r ∉ tok)
    (hprev : .ti prev ∈ s.live) (v : V) (off : UInt64) :
    ∃ res h'' s'', allocInVirt E v prev h.next off h' = .ok (res, h'') ∧
      Outcome E h s tok res h'' s'' := by
  have hrl : .rtm h.next ∈ s'.live := hm.inv.exact.tok_live _ (Multiset.mem_cons_self _ _)
  have hpl : ∀ p, some prev = some p → .ti p ∈ s'.live := by
    rintro p ⟨⟩
    rw [hm.live]
    exact Finset.mem_insert_of_mem hprev
  obtain ⟨h₂, s₂, hfree, hi₂, hk₂⟩ := hm.virtFree_run
  have hbad : (do
      virtFree ((← get).next + 1) h.next
      return none : M V (Option ℕ)) h' = .ok (none, h₂) := by
    rw [bind_run get_run, bind_run hfree]
    rfl
  set td : Desc := ⟨E.virttype v, ⟨off, [], some h.next⟩⟩ with htd
  obtain ⟨a, ha⟩ := hm.inv.virtXlateSafe_run E td.clo rfl hrl off
  by_cases hrange : a < E.bdevBits
  · have hxl : ∀ r, td.clo.xlate = some r → .rtm r ∈ s'.live := by
      rintro r ⟨⟩
      exact hrl
    have hown : Owned h' td.clo.xlate (some prev) := by
      rintro r ⟨⟩
      exact ⟨prev, rfl, .inr hm.clo⟩
    rcases hm.inv.allocGeneric_run E hpl hxl hown with hrun | ⟨h₃, s₃, hrun, hf⟩
    · refine ⟨none, h₂, s₂, ?_, .none E hi₂ hk₂⟩
      rw [allocInVirt, bind_run ha, if_neg (not_not.mpr hrange), bind_run hrun]
      exact hbad
    · obtain ⟨x, hx, hxr, -⟩ := hf.self
      have htl : .ti h'.next ∈ s₃.live := hf.inv.exact.tok_live _ (Multiset.mem_cons_self _ _)
      have hi₃ := hf.inv
      rw [Multiset.cons_swap] at hi₃
      obtain ⟨h₄, hrun₄, hi₄, hs₄⟩ := hi₃.virtUnref_dec (hi₃.two_le_cnt htl hx hxr) (h₃.next + 1)
      have hk₄ : Kept h s h₄ (s₃.drop (.rtm h.next)) :=
        (hm.kept.trans hf.kept).trans (Kept.of_alike hs₄ (Finset.Subset.refl _) rfl)
      obtain ⟨res, h₅, s₅, hrun₅, hout⟩ := hi₄.verified_run E htok hk₄ fun b hb => by
        refine (hf.live_cases hb).imp_left fun hb => ?_
        rw [hm.live] at hb
        exact (Finset.mem_insert.mp hb).resolve_left (by simp)
      refine ⟨res, h₅, s₅, ?_, hout⟩
      rw [allocInVirt, bind_run ha, if_neg (not_not.mpr hrange), bind_run hrun]
      show ((get : M V (Heap V)) >>= fun _ => _) h₃ = _
      rw [bind_run get_run, bind_run (readTi_run hx), hxr, bind_run hrun₄]
      exact hrun₅
  · refine ⟨none, h₂, s₂, ?_, .none E hi₂ hk₂⟩
    rw [allocInVirt, bind_run ha, if_pos hrange]
    exact hbad

/-- `typeinfo_alloc_virt_idx` -/
theorem Inv.allocVirtIdx_run (hi : Inv h s tok ∅) (htok : ∀ r, .rtm r ∉ tok) {prev : ℕ}
    (hprev : .ti prev ∈ s.live) (v : V) (idx : UInt32) :
    ∃ res h' s', allocVirtIdx E v prev idx h = .ok (res, h') ∧ Outcome E h s tok res h' s' := by
  rcases hi.virtAlloc_run E hprev v with ⟨h₁, s₁, hrun, hi₁, hk₁⟩ | ⟨h₁, s₁, hrun, hm⟩
  · refine ⟨none, h₁, s₁, ?_, .none E hi₁ hk₁⟩
    rw [allocVirtIdx, bind_run hrun]
    rfl
  · by_cases hidx : idx = 0
    · obtain ⟨res, h', s', hrun', hout⟩ := hm.allocInVirt_run E htok hprev v 0
      refine ⟨res, h', s', ?_, hout⟩
      rw [allocVirtIdx, bind_run hrun]
      show (if idx = 0 then _ else _ : M V (Option ℕ)) h₁ = _
      rw [if_pos hidx]
      exact hrun'
    · have hrl : .rtm h.next ∈ s₁.live := hm.inv.exact.tok_live _ (Multiset.mem_cons_self _ _)
      obtain ⟨off, hoff⟩ := hm.inv.virtGetNth_run E ⟨0, [], some h.next⟩ rfl hrl idx
      have hstart : allocVirtIdx E v prev idx h = (if (-2 : UInt64) ≤ off then do
            virtFree ((← get).next + 1) h.next
            return none
          else allocInVirt E v prev h.next off : M V (Option ℕ)) h₁ := by
        rw [allocVirtIdx, bind_run hrun]
        show (if idx = 0 then _ else _ : M V (Option ℕ)) h₁ = _
        rw [if_neg hidx, bind_run hoff]
      by_cases hbad : (-2 : UInt64) ≤ off
      · obtain ⟨h₂, s₂, hfree, hi₂, hk₂⟩ := hm.virtFree_run
        refine ⟨none, h₂, s₂, ?_, .none E hi₂ hk₂⟩
        rw [hstart, if_pos hbad, bind_run get_run, bind_run hfree]
        rfl
      · obtain ⟨res, h', s', hrun', hout⟩ := hm.allocInVirt_run E htok hprev v off
        refine ⟨res, h', s', ?_, hout⟩
        rw [hstart, if_neg hbad]
        exact hrun'

end Virt

end Fsl.TypeInfo
