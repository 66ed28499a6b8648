import Fsl.Runtime.TypeInfoAlloc

/-!
# Runs of a client

A client reaches type infos from others, in any order, and frees what it got. In every memory that this
leads to the counts are exact, no chain visits a place twice, and the next call succeeds or has no effect.
-/

namespace Fsl.TypeInfo

open RefCount

variable {V : Type} {h h' : Heap V} {s s' : Store Obj} {tok : Multiset Obj} {held : Multiset ℕ}

/-- A call that reaches a new type info. -/
inductive Call (V : Type)
  | byField (td : Desc) (prev : Option ℕ)
  | pointsto (td : Desc) (prev : ℕ)
  | iter (td : Desc) (prev : ℕ)
  | virtIdx (v : V) (prev : ℕ) (idx : UInt32)

def Call.run (E : Env V) : Call V → M V (Option ℕ)
  | .byField td prev => allocByField E td prev
  | .pointsto td prev => allocPointsto E td prev
  | .iter td prev => allocIter E td prev
  | .virtIdx v prev idx => allocVirtIdx E v prev idx

/-- The descriptor that an iterator gives: compiled code knows no mapping but those of the closures that
the parent was reached through. -/
def FromChain (h : Heap V) (td : Desc) (prev : ℕ) : Prop :=
  ∀ r, td.clo.xlate = some r → Inherits h.ti prev r

/-- What the callers of these functions pass: a parent that is in memory, and a descriptor from
`td_init` or from an iterator of the parent. -/
def Call.Allowed (h : Heap V) : Call V → Prop
  | .byField td prev => td.clo.xlate = none ∧ ∀ p, prev = some p → h.ti p ≠ none
  | .pointsto td prev => h.ti prev ≠ none ∧ FromChain h td prev
  | .iter td prev => h.ti prev ≠ none ∧ FromChain h td prev
  | .virtIdx _ prev _ => h.ti prev ≠ none

/-- The memory, and the type infos that the client has obtained and not freed. -/
inductive Reach (E : Env V) : Heap V → Multiset ℕ → Prop
  | start : Reach E ⟨fun _ => none, fun _ => none, 0⟩ 0
  | call {h h' : Heap V} {held : Multiset ℕ} {c : Call V} {res : Option ℕ} (hr : Reach E h held)
      (hc : c.Allowed h) (hrun : c.run E h = .ok (res, h')) :
      Reach E h' (res.elim 0 (fun t => {t}) + held)
  | free {h h' : Heap V} {held : Multiset ℕ} {t : ℕ} (hr : Reach E h (t ::ₘ held))
      (hrun : typeinfoFree h.next t h = .ok ((), h')) : Reach E h' held

/-! ## What a call leaves -/

theorem Inv.live_of_ti (hi : Inv h s tok ∅) {a : ℕ} (ha : h.ti a ≠ none) : .ti a ∈ s.live :=
  (hi.mem_ti a ha).resolve_right (Set.notMem_empty _)

theorem Inv.live_of_rtm (hi : Inv h s tok ∅) {a : ℕ} (ha : h.rtm a ≠ none) : .rtm a ∈ s.live :=
  (hi.mem_rtm a ha).resolve_right (Set.notMem_empty _)

theorem Inv.call_run (E : Env V) (hi : Inv h s tok ∅) (htok : ∀ r, .rtm r ∉ tok) {c : Call V}
    (hc : c.Allowed h) : ∃ res h' s', c.run E h = .ok (res, h') ∧ Outcome E h s tok res h' s' := by
  have hiter : ∀ {td : Desc} {prev : ℕ}, h.ti prev ≠ none → FromChain h td prev →
      ∃ res h' s', allocPointsto E td prev h = .ok (res, h') ∧ Outcome E h s tok res h' s' := by
    intro td prev hprev hfrom
    refine hi.allocPointsto_run E htok (hi.live_of_ti hprev) (fun r hr => ?_)
      fun r hr => ⟨prev, rfl, .inl (hfrom r hr)⟩
    obtain ⟨q, y, hql, -, hy, hyr⟩ := hi.exists_of_inherits (hi.live_of_ti hprev) (hfrom r hr)
    exact (hi.xlate_live hql hy hyr).1
  cases c with
  | byField td prev =>
    exact hi.allocByField_run E htok (fun p hp => hi.live_of_ti (hc.2 p hp)) hc.1
  | pointsto td prev => exact hiter hc.1 hc.2
  | iter td prev => exact hiter hc.1 hc.2
  | virtIdx v prev idx => exact hi.allocVirtIdx_run E htok (hi.live_of_ti hc) v idx

/-- Two memories with the same holders are in the same state. -/
theorem Inv.live_eq (hi : Inv h s tok ∅) (hi' : Inv h' s' tok ∅) (hk : Kept h s h' s') :
    s'.live = s.live := by
  have hrefs : ∀ n ∈ s.live, n ∈ s'.live → s'.refs n = s.refs n :=
    fun n hn hn' => hk.refs n hn' (hi.lt_next n hn)
  refine Finset.Subset.antisymm ?_ ?_
  · exact hi'.exact.live_subset Obj.addr hi.exact hi'.rank fun n hn' hn => (hrefs n hn hn').symm
  · exact hi.exact.live_subset Obj.addr hi'.exact hi.rank hrefs

theorem Inv.cnt_eq (hi : Inv h s tok ∅) (hi' : Inv h' s' tok ∅) (hk : Kept h s h' s') {o : Obj}
    (ho : o ∈ s.live) : s'.cnt o = s.cnt o := by
  have hlive := hi.live_eq hi' hk
  have hheld : s'.held o = s.held o := by
    rw [Store.held, Store.held, hlive]
    refine Finset.sum_congr rfl fun n hn => ?_
    rw [hk.refs n (hlive ▸ hn) (hi.lt_next n hn)]
  rw [hi'.exact.cnt_eq o (hlive ▸ ho), hi.exact.cnt_eq o ho, hheld]

/-- No chain of type infos in use visits a place twice. -/
def Distinct (E : Env V) (h : Heap V) (s : Store Obj) : Prop :=
  ∀ t l, .ti t ∈ s.live → Chain E h (some t) l → l.Nodup

/-- A chain that was there before is the same. -/
theorem Distinct.kept {E : Env V} {tok' : Multiset Obj} {z : Set Obj} (hd : Distinct E h s)
    (hi : Inv h s tok ∅) (hi' : Inv h' s' tok' z) (hk : Kept h s h' s') {t : ℕ}
    {l : List (UInt64 × UInt32)} (ht : .ti t ∈ s.live) (ht' : .ti t ∈ s'.live)
    (hl : Chain E h' (some t) l) : l.Nodup := by
  have hlt := hi.lt_next _ ht
  obtain ⟨l₀, hl₀⟩ := hi.exists_chain E h.next (t := some t) fun a ha => by
    cases ha
    exact ⟨ht, hlt⟩
  have hl' : Chain E h' (some t) l₀ := hl₀.kept hk hi' fun a ha => by
    cases ha
    exact ⟨ht', hlt⟩
  rw [hl.unique hl']
  exact hd t l₀ ht hl₀

theorem Outcome.distinct {E : Env V} {res : Option ℕ} (ho : Outcome E h s tok res h' s')
    (hi : Inv h s tok ∅) (hd : Distinct E h s) : Distinct E h' s' := by
  intro t l ht hl
  cases res with
  | none =>
    have hi' : Inv h' s' tok ∅ := by simpa using ho.inv
    refine hd.kept hi hi' ho.kept ?_ ht hl
    rw [← hi.live_eq hi' ho.kept]
    exact ht
  | some t₀ =>
    rcases ho.live t₀ t rfl ht with hold | rfl
    · exact hd.kept hi ho.inv ho.kept hold ht hl
    · -- the new one: its place is new, and the rest of the chain was there before
      cases hl with
      | @link _ x ls l hx hls hrest =>
        refine List.nodup_cons.mpr ⟨ho.place t _ _ rfl (.link hx hls hrest), ?_⟩
        cases hp : x.prev with
        | none =>
          rw [hp] at hrest
          cases hrest
          exact List.nodup_nil
        | some p =>
          rw [hp] at hrest
          obtain ⟨hpl, hpt⟩ := ho.inv.prev_live ht hx hp
          have hold := (ho.live t p rfl hpl).resolve_right hpt.ne
          exact hd.kept hi ho.inv ho.kept hold hpl hrest

/-- The state of every run. -/
theorem Reach.inv {E : Env V} (hr : Reach E h held) :
    ∃ s, Inv h s (held.map .ti) ∅ ∧ Distinct E h s := by
  induction hr with
  | start =>
    refine ⟨⟨∅, fun _ => 0, fun _ => 0⟩, ?_, fun t l ht => absurd ht (Finset.notMem_empty _)⟩
    constructor
    · constructor <;> simp
    all_goals simp
  | @call h h' held c res _ hc hrun ih =>
    obtain ⟨s, hi, hd⟩ := ih
    obtain ⟨res', h'', s', hrun', ho⟩ := hi.call_run E (by simp) hc
    rw [hrun] at hrun'
    cases hrun'
    refine ⟨s', ?_, ho.distinct hi hd⟩
    have htok : (res.elim 0 (fun t => {t}) + held).map Obj.ti =
        res.elim 0 (fun t => {.ti t}) + held.map Obj.ti := by
      cases res <;> simp
    rw [htok]
    exact ho.inv
  | @free h h' held t _ hrun ih =>
    obtain ⟨s, hi, hd⟩ := ih
    rw [Multiset.map_cons] at hi
    have hlt : t < h.next := hi.lt_next _ (hi.exact.tok_live _ (Multiset.mem_cons_self _ _))
    obtain ⟨h'', s', hrun', hi', hk, hnext, -⟩ := hi.typeinfoFree_run hlt (by simp)
    rw [hrun] at hrun'
    cases hrun'
    refine ⟨s', hi', fun a l ha hl => hd.kept hi hi' hk ?_ ha hl⟩
    by_contra hnot
    exact hk.not_live hi' hnext hnot ha

/-! ## No place is visited twice -/

/-- The places along `ti_prev`: the physical offsets and the type numbers. -/
def places (E : Env V) : ℕ → Option ℕ → M V (List (UInt64 × UInt32))
  | _, none => return []
  | 0, some _ => throw Stop.fault
  | k + 1, some t => do
    let x ← readTi t
    let poff ← tiPhysOffset E t
    let l ← places E k x.prev
    return (poff, x.td.typenum) :: l

end Fsl.TypeInfo
