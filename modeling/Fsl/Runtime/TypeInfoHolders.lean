import Fsl.Runtime.TypeInfoRuns

/-!
# The holders of a mapping

The count of a mapping is the number of type infos whose closure uses it and of mappings stacked on it;
that of a type info, what the client holds and the type infos that were reached from it.
-/

namespace Fsl.TypeInfo

open RefCount

variable {V : Type} {h h' : Heap V} {s s' : Store Obj} {tok : Multiset Obj} {held : Multiset ℕ}

/-- The type infos whose closure uses a mapping. -/
def users (h : Heap V) (r : ℕ) : Set ℕ := {a | ∃ x, h.ti a = some x ∧ x.td.clo.xlate = some r}

/-- A mapping is stacked on the one that the closure it is evaluated in uses, and on all those that this
one is stacked on. -/
inductive Stacked (h : Heap V) : ℕ → ℕ → Prop
  | direct {b r : ℕ} {m : Rtm V} {x : Ti} (hm : h.rtm b = some m) (hx : h.ti m.clo = some x)
      (hr : x.td.clo.xlate = some r) : Stacked h b r
  | through {b c r : ℕ} {m : Rtm V} {x : Ti} (hm : h.rtm b = some m) (hx : h.ti m.clo = some x)
      (hc : x.td.clo.xlate = some c) (hr : Stacked h c r) : Stacked h b r

/-! ## Holders are references -/

theorem Inv.mem_refs_ti (hi : Inv h s tok ∅) {a r : ℕ} (ha : .ti a ∈ s.live) :
    .rtm r ∈ s.refs (.ti a) ↔ a ∈ users h r := by
  obtain ⟨x, hx, -, hrefs⟩ := hi.ti a ha
  constructor
  · intro hmem
    refine ⟨x, hx, ?_⟩
    rw [hrefs, Ti.refs] at hmem
    cases hp : x.prev <;> cases hxl : x.td.clo.xlate <;> simp [hp, hxl] at hmem
    · rw [hmem]
    · rw [hmem]
  · rintro ⟨x', hx', hr⟩
    exact hi.mem_refs_of_xlate ha hx' hr

theorem Inv.mem_refs_rtm (hi : Inv h s tok ∅) {b r : ℕ} (hb : .rtm b ∈ s.live) :
    .rtm r ∈ s.refs (.rtm b) ↔ Stacked h b r := by
  induction b using Nat.strong_induction_on with
  | _ b ih =>
    obtain ⟨m, hm, -⟩ := hi.rtm b hb
    obtain ⟨hclo, hcb⟩ := hi.clo b m hb hm
    obtain ⟨x, hx, -⟩ := hi.ti m.clo hclo
    rw [hi.stack b m x hb hm hx, above]
    constructor
    · intro hmem
      cases hc : x.td.clo.xlate with
      | none =>
        rw [hc] at hmem
        simp at hmem
      | some c =>
        obtain ⟨hcl, hct⟩ := hi.xlate_live hclo hx hc
        rw [hc, Option.elim_some] at hmem
        rcases Multiset.mem_cons.mp hmem with heq | hmem
        · exact .direct hm hx (by rw [hc, Obj.rtm.inj heq])
        · exact .through hm hx hc ((ih c (by omega) hcl).mp hmem)
    · intro hst
      cases hst with
      | direct hm' hx' hr =>
        rw [hm] at hm'
        cases hm'
        rw [hx] at hx'
        cases hx'
        rw [hr, Option.elim_some]
        exact Multiset.mem_cons_self _ _
      | @through _ c _ _ _ hm' hx' hc hst =>
        rw [hm] at hm'
        cases hm'
        rw [hx] at hx'
        cases hx'
        obtain ⟨hcl, hct⟩ := hi.xlate_live hclo hx hc
        rw [hc, Option.elim_some]
        exact Multiset.mem_cons_of_mem ((ih c (by omega) hcl).mpr hst)

/-- No object refers to a mapping twice. -/
theorem Inv.count_refs_le (hi : Inv h s tok ∅) {o : Obj} (ho : o ∈ s.live) (r : ℕ) :
    (s.refs o).count (.rtm r) ≤ 1 := by
  cases o with
  | ti a =>
    obtain ⟨x, hx, -, hrefs⟩ := hi.ti a ho
    rw [hrefs, Ti.refs]
    cases x.prev <;> cases x.td.clo.xlate <;> simp [Multiset.count_singleton]
    all_goals split <;> simp
  | rtm b =>
    induction b using Nat.strong_induction_on with
    | _ b ih =>
      obtain ⟨m, hm, -⟩ := hi.rtm b ho
      obtain ⟨hclo, hcb⟩ := hi.clo b m ho hm
      obtain ⟨x, hx, -⟩ := hi.ti m.clo hclo
      rw [hi.stack b m x ho hm hx, above]
      cases hc : x.td.clo.xlate with
      | none => simp
      | some c =>
        obtain ⟨hcl, hct⟩ := hi.xlate_live hclo hx hc
        rw [Option.elim_some, Multiset.count_cons]
        by_cases heq : Obj.rtm r = .rtm c
        · -- a mapping does not refer to itself
          have hnot : .rtm r ∉ s.refs (.rtm c) := by
            rw [heq]
            exact fun hmem => lt_irrefl _ (hi.rank _ hcl _ hmem)
          rw [if_pos heq, Multiset.count_eq_zero.mpr hnot]
        · rw [if_neg heq]
          exact ih c (by omega) hcl

theorem Inv.stacked_live (hi : Inv h s tok ∅) {b r : ℕ} (hst : Stacked h b r) : .rtm b ∈ s.live := by
  cases hst with
  | direct hm => exact hi.live_of_rtm (by rw [hm]; exact Option.some_ne_none _)
  | through hm => exact hi.live_of_rtm (by rw [hm]; exact Option.some_ne_none _)

theorem Inv.users_live (hi : Inv h s tok ∅) {a r : ℕ} (ha : a ∈ users h r) : .ti a ∈ s.live := by
  obtain ⟨x, hx, -⟩ := ha
  exact hi.live_of_ti (by rw [hx]; exact Option.some_ne_none _)

/-- The objects that refer to a mapping are its holders. -/
theorem Inv.holders_eq (hi : Inv h s tok ∅) (r : ℕ) :
    (↑(s.live.filter fun o => .rtm r ∈ s.refs o) : Set Obj) =
      Obj.ti '' users h r ∪ Obj.rtm '' {b | Stacked h b r} := by
  ext o
  rw [Finset.mem_coe, Finset.mem_filter]
  constructor
  · rintro ⟨ho, hmem⟩
    cases o with
    | ti a => exact .inl ⟨a, (hi.mem_refs_ti ho).mp hmem, rfl⟩
    | rtm b => exact .inr ⟨b, (hi.mem_refs_rtm ho).mp hmem, rfl⟩
  · rintro (⟨a, ha, rfl⟩ | ⟨b, hb, rfl⟩)
    · exact ⟨hi.users_live ha, (hi.mem_refs_ti (hi.users_live ha)).mpr ha⟩
    · exact ⟨hi.stacked_live hb, (hi.mem_refs_rtm (hi.stacked_live hb)).mpr hb⟩

theorem Inv.held_eq_card (hi : Inv h s tok ∅) (r : ℕ) :
    s.held (.rtm r) = (s.live.filter fun o => .rtm r ∈ s.refs o).card := by
  rw [Finset.card_filter, Store.held]
  refine Finset.sum_congr rfl fun o ho => ?_
  have hle := hi.count_refs_le ho r
  by_cases hmem : .rtm r ∈ s.refs o
  · have hpos := Multiset.count_pos.mpr hmem
    rw [if_pos hmem]
    omega
  · rw [if_neg hmem, Multiset.count_eq_zero.mpr hmem]

theorem Inv.held_eq_encard (hi : Inv h s tok ∅) (r : ℕ) :
    (s.held (.rtm r) : ℕ∞) = (users h r).encard + {b | Stacked h b r}.encard := by
  have hdisj : Disjoint (Obj.ti '' users h r) (Obj.rtm '' {b | Stacked h b r}) := by
    rw [Set.disjoint_left]
    rintro _ ⟨a, -, rfl⟩ ⟨b, -, hb⟩
    cases hb
  have hti : Function.Injective Obj.ti := fun _ _ => Obj.ti.inj
  have hrtm : Function.Injective Obj.rtm := fun _ _ => Obj.rtm.inj
  rw [hi.held_eq_card r, ← Set.encard_coe_eq_coe_finsetCard, hi.holders_eq r,
    Set.encard_union_eq hdisj, hti.encard_image, hrtm.encard_image]

/-- The count of a mapping that no client holds is the number of its holders. -/
theorem Inv.rtm_refC_eq (hi : Inv h s (held.map Obj.ti) ∅) {r : ℕ} {m : Rtm V} (hm : h.rtm r = some m) :
    (m.refC : ℕ∞) = (users h r).encard + {b | Stacked h b r}.encard := by
  have hrl := hi.live_of_rtm (a := r) (by rw [hm]; exact Option.some_ne_none _)
  obtain ⟨m', hm', hcnt⟩ := hi.rtm r hrl
  rw [hm] at hm'
  cases hm'
  have htok : (held.map Obj.ti).count (.rtm r) = 0 := Multiset.count_eq_zero.mpr (by simp)
  rw [hcnt, hi.exact.cnt_eq _ hrl, htok, Nat.add_zero]
  exact hi.held_eq_encard r

section

variable {t : ℕ}

theorem anc_snoc {ti : ℕ → Option Ti} {u p : ℕ} {x : Ti} (hu : Anc ti u t) (hx : ti t = some x)
    (hp : x.prev = some p) : Anc ti u p := by
  induction hu with
  | refl => exact .prev hx hp (.refl p)
  | prev hy hq _ ih => exact .prev hy hq (ih hx)

/-- A mapping refers to mappings only. -/
theorem Inv.ti_not_mem_refs (hi : Inv h s tok ∅) {b : ℕ} (hb : .rtm b ∈ s.live) :
    .ti t ∉ s.refs (.rtm b) := by
  induction b using Nat.strong_induction_on with
  | _ b ih =>
    obtain ⟨m, hm, -⟩ := hi.rtm b hb
    obtain ⟨hclo, hcb⟩ := hi.clo b m hb hm
    obtain ⟨x, hx, -⟩ := hi.ti m.clo hclo
    rw [hi.stack b m x hb hm hx, above]
    cases hc : x.td.clo.xlate with
    | none => exact Multiset.notMem_zero _
    | some c =>
      obtain ⟨hcl, hct⟩ := hi.xlate_live hclo hx hc
      rw [Option.elim_some, Multiset.mem_cons, not_or]
      exact ⟨fun heq => (by cases heq), ih c (by omega) hcl⟩

/-- The type infos that were reached from another one. -/
def children (h : Heap V) (t : ℕ) : Set ℕ := {a | ∃ y, h.ti a = some y ∧ y.prev = some t}

theorem Inv.mem_refs_iff_child (hi : Inv h s tok ∅) {o : Obj} (ho : o ∈ s.live) :
    .ti t ∈ s.refs o ↔ ∃ a ∈ children h t, o = .ti a := by
  constructor
  · intro hmem
    cases o with
    | rtm b => exact absurd hmem (hi.ti_not_mem_refs ho)
    | ti a =>
      obtain ⟨y, hy, -, hrefs⟩ := hi.ti a ho
      refine ⟨a, ⟨y, hy, ?_⟩, rfl⟩
      rw [hrefs, Ti.refs] at hmem
      cases hp : y.prev <;> cases hxl : y.td.clo.xlate <;> simp [hp, hxl] at hmem
      · rw [hmem]
      · rw [hmem]
  · rintro ⟨a, ⟨y, hy, hp⟩, rfl⟩
    rw [hi.refs_eq ho hy, Ti.refs, hp]
    simp

theorem Inv.count_child_le (hi : Inv h s tok ∅) {o : Obj} (ho : o ∈ s.live) :
    (s.refs o).count (.ti t) ≤ 1 := by
  cases o with
  | rtm b => exact (Multiset.count_eq_zero.mpr (hi.ti_not_mem_refs ho)).le.trans (Nat.zero_le _)
  | ti a =>
    obtain ⟨y, hy, -, hrefs⟩ := hi.ti a ho
    have hxlate : (y.td.clo.xlate.elim 0 fun r => ({.rtm r} : Multiset Obj)).count (.ti t) = 0 :=
      Multiset.count_eq_zero.mpr (by cases y.td.clo.xlate <;> simp)
    have hprev : (y.prev.elim 0 fun p => ({.ti p} : Multiset Obj)).count (.ti t) ≤ 1 := by
      cases y.prev with
      | none => exact (Multiset.count_zero _).le.trans (Nat.zero_le _)
      | some p =>
        rw [Option.elim_some, Multiset.count_singleton]
        split_ifs <;> omega
    rw [hrefs, Ti.refs, Multiset.count_add, hxlate]
    exact hprev

/-- What refers to a type info from within the memory are those that were reached from it. -/
theorem Inv.held_ti_eq (hi : Inv h s tok ∅) (t : ℕ) :
    (s.held (.ti t) : ℕ∞) = (children h t).encard := by
  have hcard : s.held (.ti t) = (s.live.filter fun o => .ti t ∈ s.refs o).card := by
    rw [Finset.card_filter, Store.held]
    refine Finset.sum_congr rfl fun o ho => ?_
    have hle := hi.count_child_le (t := t) ho
    by_cases hmem : .ti t ∈ s.refs o
    · have hpos := Multiset.count_pos.mpr hmem
      rw [if_pos hmem]
      omega
    · rw [if_neg hmem, Multiset.count_eq_zero.mpr hmem]
  have hset : (↑(s.live.filter fun o => .ti t ∈ s.refs o) : Set Obj) = Obj.ti '' children h t := by
    ext o
    rw [Finset.mem_coe, Finset.mem_filter]
    constructor
    · rintro ⟨ho, hmem⟩
      obtain ⟨a, ha, rfl⟩ := (hi.mem_refs_iff_child ho).mp hmem
      exact ⟨a, ha, rfl⟩
    · rintro ⟨a, ha, rfl⟩
      have hal : .ti a ∈ s.live := by
        obtain ⟨y, hy, -⟩ := ha
        exact hi.live_of_ti (by rw [hy]; exact Option.some_ne_none _)
      exact ⟨hal, (hi.mem_refs_iff_child hal).mpr ⟨a, ha, rfl⟩⟩
  have hti : Function.Injective Obj.ti := fun _ _ => Obj.ti.inj
  rw [hcard, ← Set.encard_coe_eq_coe_finsetCard, hset, hti.encard_image]

/-- The count of a type info: what the client holds of it, and the type infos reached from it. -/
theorem Inv.ti_refC_eq (hi : Inv h s (held.map Obj.ti) ∅) {x : Ti} (hx : h.ti t = some x) :
    (x.refC : ℕ∞) = held.count t + (children h t).encard := by
  have hlive := hi.live_of_ti (a := t) (by rw [hx]; exact Option.some_ne_none _)
  obtain ⟨y, hy, hcnt, -⟩ := hi.ti t hlive
  rw [hx] at hy
  cases hy
  have hti : Function.Injective Obj.ti := fun _ _ => Obj.ti.inj
  rw [hcnt, hi.exact.cnt_eq _ hlive, Multiset.count_map_eq_count' _ _ hti, Nat.cast_add,
    hi.held_ti_eq t, add_comm]

/-- The type infos in memory are those that the client holds and those that they were reached from. -/
theorem Inv.ti_iff (hi : Inv h s (held.map Obj.ti) ∅) (t : ℕ) :
    h.ti t ≠ none ↔ ∃ u ∈ held, Anc h.ti u t := by
  constructor
  · intro hne
    have hlive := hi.live_of_ti hne
    -- what was reached from it has a higher address
    induction hk : h.next - t using Nat.strong_induction_on generalizing t with
    | _ k ih =>
      subst hk
      by_cases htok : t ∈ held
      · exact ⟨t, htok, .refl t⟩
      · have hcount : (held.map Obj.ti).count (.ti t) = 0 := Multiset.count_eq_zero.mpr fun hmem => by
          obtain ⟨u, hu, heq⟩ := Multiset.mem_map.mp hmem
          exact htok (Obj.ti.inj heq ▸ hu)
        have hpos := hi.exact.pos _ hlive
        rw [hi.exact.cnt_eq _ hlive, hcount, Nat.add_zero] at hpos
        obtain ⟨o, ho, hne'⟩ := Finset.exists_ne_zero_of_sum_ne_zero hpos.ne'
        obtain ⟨a, ⟨y, hy, hp⟩, rfl⟩ := (hi.mem_refs_iff_child ho).mp (Multiset.count_ne_zero.mp hne')
        have hlt : t < a := (hi.prev_live ho hy hp).2
        have hnext : a < h.next := hi.lt_next _ ho
        obtain ⟨u, hu, hanc⟩ := ih (h.next - a) (by omega) a
          (by rw [hy]; exact Option.some_ne_none y) ho rfl
        exact ⟨u, hu, anc_snoc hanc hy hp⟩
  · rintro ⟨u, hu, hanc⟩
    have hul : .ti u ∈ s.live := hi.exact.tok_live _ (Multiset.mem_map_of_mem _ hu)
    have hlive : .ti t ∈ s.live := (hanc.congr (P := fun b => .ti b ∈ s.live) hul
      fun b x hb hx => ⟨x, hx, rfl, fun p hp => (hi.prev_live hb hx hp).1⟩).2
    obtain ⟨x, hx, -⟩ := hi.ti t hlive
    rw [hx]
    exact Option.some_ne_none x

end

/-! ## The last reference -/

theorem exists_of_bind {α β : Type} {x : M V α} {f : α → M V β} {p : β × Heap V}
    (hrun : (x >>= f) h = .ok p) : ∃ a h₁, x h = .ok (a, h₁) ∧ f a h₁ = .ok p := by
  change (x h >>= fun q => f q.1 q.2) = _ at hrun
  cases hx : x h with
  | error e =>
    rw [hx] at hrun
    cases hrun
  | ok q =>
    rw [hx] at hrun
    exact ⟨q.1, q.2, rfl, hrun⟩

end Fsl.TypeInfo
