import Fsl.Runtime.TypeInfoRefs

/-!
# Reading along the chain

What compiled code reads of a closure, and the physical offsets along `ti_prev`, as relations on the
memory: they need no bound, hold in every memory that keeps the objects, and give the value of every
function that reads.
-/

namespace Fsl.TypeInfo

open RefCount

variable {V : Type} {h h' : Heap V} {s s' : Store Obj} {tok tok' : Multiset Obj} {z z' : Set Obj}

/-- The mappings from an address space to the disk. -/
inductive Layers (h : Heap V) : Option ℕ → List (Layer V) → Prop
  | disk : Layers h none []
  | layer {r : ℕ} {m : Rtm V} {x : Ti} {ls : List (Layer V)} (hm : h.rtm r = some m)
      (hx : h.ti m.clo = some x) (hls : Layers h x.td.clo.xlate ls) :
      Layers h (some r) (⟨m.virt, x.td.clo.offset, x.td.clo.params⟩ :: ls)

/-- The address on the disk of a closure that these mappings lead from. -/
def physOf (E : Env V) (clo : Closure) : List (Layer V) → UInt64
  | [] => clo.offset
  | l :: ls => E.xlate l.virt ⟨l.offset, l.params, ls⟩ clo.offset

/-- The places that a chain of type infos visits. -/
inductive Chain (E : Env V) (h : Heap V) : Option ℕ → List (UInt64 × UInt32) → Prop
  | origin : Chain E h none []
  | link {t : ℕ} {x : Ti} {ls : List (Layer V)} {l : List (UInt64 × UInt32)} (hx : h.ti t = some x)
      (hls : Layers h x.td.clo.xlate ls) (hl : Chain E h x.prev l) :
      Chain E h (some t) ((physOf E x.td.clo ls, x.td.typenum) :: l)

theorem get_run : (get : M V (Heap V)) h = .ok (h, h) := rfl

/-! ## They exist in every memory with exact counts -/

theorem Inv.exists_layers (hi : Inv h s tok z) (k : ℕ) (xlate : Option ℕ)
    (hlive : ∀ r, xlate = some r → .rtm r ∈ s.live ∧ r < k) :
    ∃ ls, Layers h xlate ls ∧ layers k xlate h = .ok (ls, h) := by
  induction k generalizing xlate with
  | zero =>
    cases xlate with
    | none => exact ⟨[], .disk, rfl⟩
    | some r => exact absurd (hlive r rfl).2 (Nat.not_lt_zero r)
  | succ k ih =>
    cases xlate with
    | none => exact ⟨[], .disk, rfl⟩
    | some r =>
      obtain ⟨hrl, hrk⟩ := hlive r rfl
      obtain ⟨m, hm, -⟩ := hi.rtm r hrl
      obtain ⟨hclo, hlt⟩ := hi.clo r m hrl hm
      obtain ⟨x, hx, -⟩ := hi.ti m.clo hclo
      obtain ⟨ls, hls, hrun⟩ := ih x.td.clo.xlate fun r' hr' => by
        obtain ⟨hr'l, hr't⟩ := hi.xlate_live hclo hx hr'
        exact ⟨hr'l, by omega⟩
      refine ⟨_, .layer hm hx hls, ?_⟩
      rw [layers, bind_run (readRtm_run hm), bind_run (readTi_run hx), bind_run hrun]
      rfl

theorem Inv.exists_chain (hi : Inv h s tok z) (E : Env V) (k : ℕ) {t : Option ℕ}
    (hlive : ∀ a, t = some a → .ti a ∈ s.live ∧ a < k) : ∃ l, Chain E h t l := by
  induction k generalizing t with
  | zero =>
    cases t with
    | none => exact ⟨[], .origin⟩
    | some a => exact absurd (hlive a rfl).2 (Nat.not_lt_zero a)
  | succ k ih =>
    cases t with
    | none => exact ⟨[], .origin⟩
    | some a =>
      obtain ⟨hal, hak⟩ := hlive a rfl
      obtain ⟨x, hx, -⟩ := hi.ti a hal
      obtain ⟨ls, hls, -⟩ := hi.exists_layers a x.td.clo.xlate
        fun r hr => hi.xlate_live hal hx hr
      obtain ⟨l, hl⟩ := ih (t := x.prev) fun p hp => by
        obtain ⟨hpl, hpa⟩ := hi.prev_live hal hx hp
        exact ⟨hpl, by omega⟩
      exact ⟨_, .link hx hls hl⟩

/-! ## What the functions return -/

theorem Layers.unique {xlate : Option ℕ} {ls ls' : List (Layer V)} (hls : Layers h xlate ls)
    (hls' : Layers h xlate ls') : ls = ls' := by
  induction hls generalizing ls' with
  | disk =>
    cases hls'
    rfl
  | layer hm hx _ ih =>
    cases hls' with
    | layer hm' hx' hrest =>
      rw [hm] at hm'
      cases hm'
      rw [hx] at hx'
      cases hx'
      rw [ih hrest]

theorem Chain.unique {E : Env V} {t : Option ℕ} {l l' : List (UInt64 × UInt32)}
    (hl : Chain E h t l) (hl' : Chain E h t l') : l = l' := by
  induction hl generalizing l' with
  | origin =>
    cases hl'
    rfl
  | link hx hls _ ih =>
    cases hl' with
    | link hx' hls' hrest =>
      rw [hx] at hx'
      cases hx'
      rw [hls.unique hls', ih hrest]

theorem Inv.view_run (hi : Inv h s tok z) {clo : Closure} {ls : List (Layer V)}
    (hlive : ∀ r, clo.xlate = some r → .rtm r ∈ s.live) (hls : Layers h clo.xlate ls) :
    view clo h = .ok (⟨clo.offset, clo.params, ls⟩, h) := by
  obtain ⟨ls', hls', hrun⟩ := hi.exists_layers h.next clo.xlate
    fun r hr => ⟨hlive r hr, hi.lt_next _ (hlive r hr)⟩
  rw [hls.unique hls', view, bind_run get_run, bind_run hrun]
  rfl

/-- A closure with a mapping sees at least one layer. -/
theorem Inv.view_some (hi : Inv h s tok z) {clo : Closure} {r : ℕ} (hr : clo.xlate = some r)
    (hrl : .rtm r ∈ s.live) :
    ∃ l ls, Layers h clo.xlate (l :: ls) ∧ view clo h = .ok (⟨clo.offset, clo.params, l :: ls⟩, h) := by
  have hlive : ∀ r', clo.xlate = some r' → .rtm r' ∈ s.live := by
    intro r' hr'
    rw [hr] at hr'
    cases hr'
    exact hrl
  obtain ⟨ls, hls, -⟩ := hi.exists_layers h.next clo.xlate
    fun r' hr' => ⟨hlive r' hr', hi.lt_next _ (hlive r' hr')⟩
  have hrun := hi.view_run hlive hls
  cases ls with
  | nil =>
    rw [hr] at hls
    cases hls
  | cons l ls => exact ⟨l, ls, hls, hrun⟩

section Eval

variable (E : Env V)

theorem Inv.virtXlate_run (hi : Inv h s tok z) (clo : Closure) {r : ℕ} (hr : clo.xlate = some r)
    (hrl : .rtm r ∈ s.live) (off : UInt64) : ∃ v, virtXlate E clo off h = .ok (v, h) := by
  obtain ⟨l, ls, -, hview⟩ := hi.view_some hr hrl
  refine ⟨E.xlate l.virt ⟨l.offset, l.params, ls⟩ off, ?_⟩
  rw [virtXlate, bind_run hview]
  rfl

theorem Inv.virtXlateSafe_run (hi : Inv h s tok z) (clo : Closure) {r : ℕ} (hr : clo.xlate = some r)
    (hrl : .rtm r ∈ s.live) (off : UInt64) : ∃ v, virtXlateSafe E clo off h = .ok (v, h) := by
  obtain ⟨l, ls, -, hview⟩ := hi.view_some hr hrl
  rw [virtXlateSafe, bind_run hview]
  exact ⟨_, rfl⟩

theorem Inv.virtGetNth_run (hi : Inv h s tok z) (clo : Closure) {r : ℕ} (hr : clo.xlate = some r)
    (hrl : .rtm r ∈ s.live) (idx : UInt32) : ∃ v, virtGetNth E clo idx h = .ok (v, h) := by
  obtain ⟨l, ls, -, hview⟩ := hi.view_some hr hrl
  refine ⟨E.getNth l.virt ⟨l.offset, l.params, ls⟩ idx, ?_⟩
  rw [virtGetNth, bind_run hview]
  rfl

theorem Inv.tiPhysOffset_run (hi : Inv h s tok z) {t : ℕ} {x : Ti} {ls : List (Layer V)}
    (ht : .ti t ∈ s.live) (hx : h.ti t = some x) (hls : Layers h x.td.clo.xlate ls) :
    tiPhysOffset E t h = .ok (physOf E x.td.clo ls, h) := by
  rw [tiPhysOffset, bind_run (readTi_run hx)]
  cases hr : x.td.clo.xlate with
  | none =>
    rw [hr] at hls
    cases hls
    rfl
  | some r =>
    obtain ⟨l, ls', hls', hview⟩ := hi.view_some hr (hi.xlate_live ht hx hr).1
    rw [hls.unique hls']
    show (view x.td.clo >>= fun _ => _) h = _
    rw [bind_run hview]
    rfl

/-- The loop of `ti_has_loop` looks for a place in the rest of the chain. -/
theorem Inv.loopFrom_run (hi : Inv h s tok z) {c : Option ℕ} {l : List (UInt64 × UInt32)}
    (hl : Chain E h c l) (k : ℕ) (hlive : ∀ a, c = some a → .ti a ∈ s.live ∧ a < k) (poff : UInt64)
    (typenum : UInt32) : loopFrom E poff typenum k c h = .ok (decide ((poff, typenum) ∈ l), h) := by
  induction hl generalizing k with
  | origin =>
    rw [loopFrom]
    rfl
  | @link t x ls l hx hls _ ih =>
    obtain ⟨htl, htk⟩ := hlive t rfl
    obtain ⟨k, rfl⟩ : ∃ j, k = j + 1 := ⟨k - 1, by omega⟩
    rw [loopFrom, bind_run (readTi_run hx), bind_run (hi.tiPhysOffset_run E htl hx hls)]
    by_cases heq : physOf E x.td.clo ls = poff ∧ x.td.typenum = typenum
    · have hmem : (poff, typenum) ∈ (physOf E x.td.clo ls, x.td.typenum) :: l := by
        rw [← heq.1, ← heq.2]
        exact List.mem_cons_self
      rw [if_pos heq, decide_eq_true hmem]
      rfl
    · have hiff : (poff, typenum) ∈ (physOf E x.td.clo ls, x.td.typenum) :: l ↔
          (poff, typenum) ∈ l := by
        refine ⟨fun hmem => (List.mem_cons.mp hmem).resolve_left fun hhead => heq ?_,
          List.mem_cons_of_mem _⟩
        rw [Prod.mk.injEq] at hhead
        exact ⟨hhead.1.symm, hhead.2.symm⟩
      rw [if_neg heq, ih k fun a ha => ?_, decide_eq_decide.mpr hiff]
      obtain ⟨hal, hat⟩ := hi.prev_live htl hx ha
      exact ⟨hal, by omega⟩

/-- `ti_has_loop` is true exactly where the chain returns to its first place. -/
theorem Inv.tiHasLoop_run (hi : Inv h s tok z) {t : ℕ} {x : Ti} {ls : List (Layer V)}
    {l : List (UInt64 × UInt32)} (ht : .ti t ∈ s.live) (hx : h.ti t = some x)
    (hls : Layers h x.td.clo.xlate ls) (hl : Chain E h x.prev l) :
    tiHasLoop E t h = .ok (decide ((physOf E x.td.clo ls, x.td.typenum) ∈ l), h) := by
  rw [tiHasLoop, bind_run (readTi_run hx)]
  cases hp : x.prev with
  | none =>
    rw [hp] at hl
    cases hl
    rfl
  | some p =>
    rw [hp] at hl
    have hpl := (hi.prev_live ht hx hp).1
    show (tiPhysOffset E t >>= fun _ => _) h = _
    rw [bind_run (hi.tiPhysOffset_run E ht hx hls)]
    refine hi.loopFrom_run E hl h.next (fun a ha => ?_) _ _
    cases ha
    exact ⟨hpl, hi.lt_next _ hpl⟩

theorem Inv.verifyAsserts_run (hi : Inv h s tok z) {t : ℕ} (ht : .ti t ∈ s.live) :
    ∃ b, verifyAsserts E t h = .ok (b, h) := by
  obtain ⟨x, hx, -⟩ := hi.ti t ht
  have hlive : ∀ r, x.td.clo.xlate = some r → .rtm r ∈ s.live :=
    fun r hr => (hi.xlate_live ht hx hr).1
  obtain ⟨ls, hls, -⟩ := hi.exists_layers h.next x.td.clo.xlate
    fun r hr => ⟨hlive r hr, hi.lt_next _ (hlive r hr)⟩
  rw [verifyAsserts, bind_run (readTi_run hx)]
  by_cases hinv : x.td.typenum = typenumInvalid
  · exact ⟨true, by rw [if_pos hinv]; rfl⟩
  · refine ⟨E.asserts x.td.typenum ⟨x.td.clo.offset, x.td.clo.params, ls⟩, ?_⟩
    rw [if_neg hinv]
    show (view x.td.clo >>= fun _ => _) h = _
    rw [bind_run (hi.view_run hlive hls)]
    rfl

/-- `typeinfo_verify` reads what is in use only; a type info that it accepts is at a new place. -/
theorem Inv.verify_run (hi : Inv h s tok z) {t : ℕ} (ht : .ti t ∈ s.live) :
    ∃ b, verify E t h = .ok (b, h) ∧
      (b = true → ∀ place l, Chain E h (some t) (place :: l) → place ∉ l) := by
  obtain ⟨l, hl⟩ := hi.exists_chain E h.next (t := some t) fun a ha => by
    cases ha
    exact ⟨ht, hi.lt_next _ ht⟩
  cases hl with
  | @link _ x ls l hx hls hrest =>
    have hloop := hi.tiHasLoop_run E ht hx hls hrest
    by_cases hmem : (physOf E x.td.clo ls, x.td.typenum) ∈ l
    · rw [decide_eq_true hmem] at hloop
      refine ⟨false, ?_, fun hfalse => absurd hfalse (by decide)⟩
      rw [verify, bind_run hloop]
      rfl
    · rw [decide_eq_false hmem] at hloop
      obtain ⟨b, hb⟩ := hi.verifyAsserts_run E ht
      refine ⟨b, ?_, fun _ place l' hl' => ?_⟩
      · rw [verify, bind_run hloop]
        exact hb
      · cases hl' with
        | link hx' hls' hrest' =>
          rw [hx] at hx'
          cases hx'
          rw [← hls.unique hls', ← hrest.unique hrest']
          exact hmem

end Eval

/-! ## They stay -/

theorem Kept.exists_ti (hk : Kept h s h' s') {a : ℕ} {x : Ti} (ha : .ti a ∈ s'.live)
    (hlt : a < h.next) (hx : h.ti a = some x) :
    ∃ x', h'.ti a = some x' ∧ x'.td = x.td ∧ x'.prev = x.prev := by
  have heq := hk.ti a ha hlt
  rw [hx] at heq
  obtain ⟨x', hx', hshape⟩ := Option.map_eq_some_iff.mp heq
  exact ⟨x', hx', congrArg Prod.fst hshape, congrArg Prod.snd hshape⟩

theorem Kept.exists_rtm (hk : Kept h s h' s') {a : ℕ} {m : Rtm V} (ha : .rtm a ∈ s'.live)
    (hlt : a < h.next) (hm : h.rtm a = some m) :
    ∃ m', h'.rtm a = some m' ∧ m'.clo = m.clo ∧ m'.virt = m.virt := by
  have heq := hk.rtm a ha hlt
  rw [hm] at heq
  obtain ⟨m', hm', hshape⟩ := Option.map_eq_some_iff.mp heq
  exact ⟨m', hm', congrArg Prod.fst hshape, congrArg Prod.snd hshape⟩

theorem Layers.kept (hk : Kept h s h' s') (hi : Inv h' s' tok z) {xlate : Option ℕ}
    {ls : List (Layer V)} (hls : Layers h xlate ls)
    (hlive : ∀ r, xlate = some r → .rtm r ∈ s'.live ∧ r < h.next) : Layers h' xlate ls := by
  induction hls with
  | disk => exact .disk
  | @layer r m x ls hm hx _ ih =>
    obtain ⟨hrl, hlt⟩ := hlive r rfl
    obtain ⟨m', hm', hclo, hvirt⟩ := hk.exists_rtm hrl hlt hm
    obtain ⟨hcl, hcr⟩ := hi.clo r m' hrl hm'
    rw [hclo] at hcl hcr
    obtain ⟨x', hx', htd, -⟩ := hk.exists_ti hcl (hcr.trans hlt) hx
    have hrest := ih fun r' hr' => by
      obtain ⟨hr'l, hr't⟩ := hi.xlate_live hcl hx' (htd ▸ hr')
      exact ⟨hr'l, by omega⟩
    rw [← hvirt, ← htd]
    exact .layer hm' (hclo ▸ hx') (htd ▸ hrest)

theorem Chain.kept {E : Env V} (hk : Kept h s h' s') (hi : Inv h' s' tok z) {t : Option ℕ}
    {l : List (UInt64 × UInt32)} (hl : Chain E h t l)
    (hlive : ∀ a, t = some a → .ti a ∈ s'.live ∧ a < h.next) : Chain E h' t l := by
  induction hl with
  | origin => exact .origin
  | @link a x ls l hx hls _ ih =>
    obtain ⟨hal, hlt⟩ := hlive a rfl
    obtain ⟨x', hx', htd, hprev⟩ := hk.exists_ti hal hlt hx
    have hls' := hls.kept hk hi fun r hr => by
      obtain ⟨hrl, hra⟩ := hi.xlate_live hal hx' (htd ▸ hr)
      exact ⟨hrl, hra.trans hlt⟩
    have hrest := ih fun p hp => by
      obtain ⟨hpl, hpa⟩ := hi.prev_live hal hx' (hprev ▸ hp)
      exact ⟨hpl, hpa.trans hlt⟩
    rw [← htd]
    exact .link hx' (htd ▸ hls') (hprev ▸ hrest)

end Fsl.TypeInfo
