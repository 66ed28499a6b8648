import Fsl.Compiler.PrecedenceCmp

/-!
# When expressions are grouped as in C

Where the operators do not group, there are operands that tell the two trees apart. They are found for
the shortest sequences first; operators before and after them get operands that change neither tree.
-/

namespace Fsl.Parse

open OpTree

/-- The operands tell the trees apart, and leave room for operators at the end; the last operand is
small, unless it is a modulus. -/
structure Separates (a : UInt64) (s : List (Op × UInt64)) (c : UInt64) : Prop
    extends Steady a s c where
  parse : value (rightNest a s) ≠ some c
  last : last a s < big ∨ ∃ s', s = s' ++ [(.mod, big)]

theorem comb_none_right (o : Op) (x : Option UInt64) : o.comb x none = none := by
  cases x <;> rfl

/-- A modulus that becomes zero leaves the right-nested tree without a value. -/
theorem rightWith_mod_zero (a : UInt64) (s : List (Op × UInt64)) (b : UInt64) :
    rightWith Op.comb some a (s ++ [(.mod, b)]) (some 0) = none := by
  induction s generalizing a with
  | nil => rfl
  | cons p s ih =>
    rw [List.cons_append, rightWith, ih]
    rfl

theorem apply_big_neutral (o : Op) :
    o.apply big (neutral o) = some big ∨ o.apply big (neutral o) = some 0 := by
  cases o <;> decide

theorem Separates.append {a : UInt64} {s : List (Op × UInt64)} {c : UInt64}
    (h : Separates a s c) (o : Op) : Separates a (s ++ [(o, neutral o)]) c := by
  refine ⟨h.toSteady.append o, ?_, ?_⟩
  · rw [value, eval_rightNest_append_singleton]
    have hold : value (rightNest a s) = rightWith Op.comb some a s (some (OpTree.last a s)) :=
      eval_rightNest a s
    have hp := h.parse
    rw [hold] at hp
    rcases h.last with hlt | ⟨s', rfl⟩
    · rwa [Op.comb_some, apply_neutral hlt]
    · rw [last_append_cons] at hp ⊢
      rw [Op.comb_some]
      rcases apply_big_neutral o with heq | heq
      · exact heq ▸ hp
      · rw [show OpTree.last big [] = big from rfl, heq, rightWith_mod_zero]
        simp
  · rw [last_append_cons]
    cases o with
    | mod => exact .inr ⟨s, rfl⟩
    | _ =>
      left
      decide

/-! ## Operators at the front -/

/-- Some operands separate the trees of these operators; the last one is small, and where all
operators bind tighter than a shift the value is a small shift. -/
def Sep (ops : List Op) : Prop :=
  ∃ a s c, s.map Prod.fst = ops ∧ Separates a s c ∧ OpTree.last a s < big ∧
    ((∀ q ∈ ops, 3 ≤ q.prec) → c ≤ 5)

theorem Sep.cons_leftNeutral {p : Op} {n : UInt64} (hn : leftNeutral p = some n) {ops : List Op}
    (h : Sep ops) : Sep (p :: ops) := by
  obtain ⟨a, s, c, rfl, hs, hlast, hc⟩ := h
  have hgraft : Grafts Op.prec Op.comb some p n (OpTree.climb Op.prec n ((p, a) :: s))
      (OpTree.climb Op.prec a s) :=
    (Grafts.leaf a).foldl (comb_leftNeutral hn) s
  refine ⟨n, (p, a) :: s, c, rfl, ⟨⟨?_, fun o => ?_⟩, ?_, .inl hlast⟩, hlast, fun h3 => hc ?_⟩
  · rw [← hs.climb]
    exact hgraft.eval_eq (comb_leftNeutral hn)
  · obtain ⟨x, hx, hlt⟩ := hs.spots o
    exact ⟨x, (hgraft.eval_spot_eq (comb_leftNeutral hn) o).trans hx, hlt⟩
  · have hr : value (rightNest n ((p, a) :: s)) = value (rightNest a s) :=
      comb_leftNeutral hn _
    rw [hr]
    exact hs.parse
  · exact fun q hq => h3 q (List.mem_cons_of_mem _ hq)

/-- An operator with a neutral left operand, after one that binds looser. -/
theorem Sep.insert {l : List Op} {p q : Op} {n : UInt64} (hn : leftNeutral q = some n)
    (hpq : p.prec < q.prec) {ops : List Op} (h : Sep (l ++ p :: ops)) :
    Sep (l ++ p :: q :: ops) := by
  obtain ⟨a, s, c, hmap, hs, hlast, hc⟩ := h
  obtain ⟨s₀, s₁, rfl, rfl, hs₁⟩ := List.map_eq_append_iff.mp hmap
  obtain ⟨⟨p', x⟩, s₂, rfl, rfl, rfl⟩ := List.map_eq_cons_iff.mp hs₁
  have hgraft : Grafts Op.prec Op.comb some q n
      (OpTree.climb Op.prec a (s₀ ++ (p', n) :: (q, x) :: s₂))
      (OpTree.climb Op.prec a (s₀ ++ (p', x) :: s₂)) := by
    simp only [OpTree.climb, List.foldl_append, List.foldl_cons]
    exact (grafts_push_push hpq _ n x).foldl (comb_leftNeutral hn) s₂
  refine ⟨a, s₀ ++ (p', n) :: (q, x) :: s₂, c, by simp, ⟨⟨?_, fun o => ?_⟩, ?_, .inl ?_⟩, ?_,
    fun h3 => hc ?_⟩
  · rw [← hs.climb]
    exact hgraft.eval_eq (comb_leftNeutral hn)
  · obtain ⟨y, hy, hlt⟩ := hs.spots o
    exact ⟨y, (hgraft.eval_spot_eq (comb_leftNeutral hn) o).trans hy, hlt⟩
  · have hr : value (rightNest a (s₀ ++ (p', n) :: (q, x) :: s₂)) =
        value (rightNest a (s₀ ++ (p', x) :: s₂)) := by
      refine eval_rightNest_append_congr (fun b => ?_) a s₀
      exact congrArg (p'.comb (some b)) (comb_leftNeutral hn _)
    rw [hr]
    exact hs.parse
  · rw [last_append_cons] at hlast ⊢
    exact hlast
  · rw [last_append_cons] at hlast ⊢
    exact hlast
  · intro o ho
    refine h3 o ?_
    simp only [List.mem_append, List.mem_cons] at ho ⊢
    tauto

/-- The left operand that keeps two values of the right one apart. -/
def front : Op → UInt64 → UInt64
  | .sub, c => c
  | .lshift, _ => 1
  | _, _ => big >>> 1

theorem shift_apart : ∀ c < 6, ∀ r < 64, r ≠ c →
    (1 : UInt64) <<< UInt64.ofNat r ≠ 1 <<< UInt64.ofNat c ∧
      (big >>> 1) >>> UInt64.ofNat r ≠ (big >>> 1) >>> UInt64.ofNat c := by
  decide +kernel

theorem shift_small : ∀ c < 6, (1 : UInt64) <<< UInt64.ofNat c < big ∧
    (big >>> 1) >>> UInt64.ofNat c < big := by
  decide +kernel

/-- Subtraction, or a shift by a small amount, of a value that nothing else gives. -/
theorem front_spec {p : Op} (hp : p = .sub ∨ p = .lshift ∨ p = .rshift) {c : UInt64}
    (hc : p ≠ .sub → c ≤ 5) :
    ∃ d, p.apply (front p c) c = some d ∧ d < big ∧ (p = .sub → d = 0) ∧
      ∀ r, r ≠ c → p.apply (front p c) r ≠ some d := by
  rcases hp with rfl | hp
  · refine ⟨0, by simp [Op.apply, front], by decide, fun _ => rfl, fun r hr h => hr ?_⟩
    have hsub : c - r = 0 := Option.some.inj h
    grind
  · have hc6 : c.toNat < 6 := by
      have hle : c.toNat ≤ 5 := hc (by rcases hp with rfl | rfl <;> decide)
      omega
    have hc64 : c < 64 := by
      rw [UInt64.lt_iff_toNat_lt]
      exact hc6.trans (by decide)
    have hsmall := shift_small c.toNat hc6
    have hapart (r : UInt64) (hr : r ≠ c) (hlt : r < 64) :=
      shift_apart c.toNat hc6 r.toNat hlt fun h => hr (UInt64.toNat_inj.mp h)
    simp only [UInt64.ofNat_toNat] at hsmall hapart
    rcases hp with rfl | rfl
    · refine ⟨1 <<< c, by rw [Op.apply, if_pos hc64]; rfl, hsmall.1, fun h => Op.noConfusion h,
        fun r hr h => ?_⟩
      rw [Op.apply] at h
      split at h
      · next hlt => exact (hapart r hr hlt).1 (Option.some.inj h)
      · cases h
    · refine ⟨(big >>> 1) >>> c, by rw [Op.apply, if_pos hc64]; rfl, hsmall.2, fun h => Op.noConfusion h,
        fun r hr h => ?_⟩
      rw [Op.apply] at h
      split at h
      · next hlt => exact (hapart r hr hlt).2 (Option.some.inj h)
      · cases h

theorem Sep.cons_looser {p : Op} (hp : p = .sub ∨ p = .lshift ∨ p = .rshift) {ops : List Op}
    (hlt : ∀ q ∈ ops, p.prec < q.prec) (h : Sep ops) : Sep (p :: ops) := by
  obtain ⟨a, s, c, rfl, hs, hlast, hc⟩ := h
  have hc5 : p ≠ .sub → c ≤ 5 := by
    intro hne
    refine hc fun q hq => ?_
    have h2 : p.prec = 2 := by
      rcases hp with rfl | rfl | rfl
      · exact absurd rfl hne
      · rfl
      · rfl
    have := hlt q hq
    omega
  obtain ⟨d, hd, hdlt, hd0, hne⟩ := front_spec hp hc5
  have hclimb : OpTree.climb Op.prec (front p c) ((p, a) :: s) =
      .node p (.leaf (front p c)) (OpTree.climb Op.prec a s) := foldl_push_node hlt
  have hval : value (OpTree.climb Op.prec (front p c) ((p, a) :: s)) = some d := by
    rw [hclimb, value_node, hs.climb, ← hd]
    rfl
  refine ⟨front p c, (p, a) :: s, d, rfl, ⟨⟨hval, fun o => ?_⟩, ?_, .inl hlast⟩, hlast, fun h3 => ?_⟩
  · rw [hclimb, spot_node]
    split
    · exact hs.spots o
    · exact ⟨d, hclimb ▸ hval, hdlt⟩
  · have hr : value (rightNest (front p c) ((p, a) :: s)) =
        p.comb (some (front p c)) (value (rightNest a s)) := rfl
    rw [hr]
    cases hv : value (rightNest a s) with
    | none => simp [comb_none_right]
    | some r =>
      rw [Op.comb_some]
      refine hne r fun hrc => hs.parse ?_
      rw [hv, hrc]
  · have hsub : p = .sub := by
      rcases hp with rfl | rfl | rfl
      · rfl
      · exact absurd (h3 _ List.mem_cons_self) (by decide)
      · exact absurd (h3 _ List.mem_cons_self) (by decide)
    rw [hd0 hsub]
    decide

/-! ## The shortest sequences -/

def allOps : List Op := [.bitor, .bitand, .add, .sub, .div, .mul, .lshift, .rshift, .mod]

/-- The operands separate the trees as `Sep` asks for. -/
def separates (a : UInt64) (s : List (Op × UInt64)) : Bool :=
  match value (climb Op.prec a s) with
  | none => false
  | some c => value (rightNest a s) != some c &&
      allOps.all (fun o => (value ((climb Op.prec a s).spot Op.prec o)).any fun x => x < big) &&
      OpTree.last a s < big && (c ≤ 5 || s.any (fun p => p.1.prec < 3))

theorem sep_of_separates {a : UInt64} {s : List (Op × UInt64)} (h : separates a s) :
    Sep (s.map Prod.fst) := by
  rw [separates] at h
  split at h
  · cases h
  · next c hc =>
    simp only [Bool.and_eq_true, bne_iff_ne, List.all_eq_true, decide_eq_true_eq,
      Bool.or_eq_true, List.any_eq_true] at h
    obtain ⟨⟨⟨hne, hall⟩, hlast⟩, hsmall⟩ := h
    refine ⟨a, s, c, rfl, ⟨⟨hc, fun o => ?_⟩, hne, .inl hlast⟩, hlast, fun h3 => ?_⟩
    · have ho := hall o (by cases o <;> decide)
      cases hv : value ((OpTree.climb Op.prec a s).spot Op.prec o) with
      | none =>
        rw [hv] at ho
        cases ho
      | some x =>
        rw [hv] at ho
        exact ⟨x, rfl, by simpa using ho⟩
    · refine hsmall.resolve_right ?_
      rintro ⟨x, hx, hlt⟩
      have := h3 x.1 (List.mem_map_of_mem hx)
      omega

theorem sep_pair {p o : Op} (hle : o.prec ≤ p.prec) (hre : p.regroups o = false) : Sep [p, o] := by
  have h : separates 3 [(p, 1), (o, 2)] ∨ separates 5 [(p, 3), (o, 3)] ∨
      separates 1 [(p, 3), (o, 1)] := by
    revert hle hre
    cases p <;> cases o <;> decide +kernel
  rcases h with h | h | h <;> exact sep_of_separates h

theorem sep_triple {p q o : Op} (hp : p = .sub ∨ p = .lshift ∨ p = .rshift)
    (hq : q = .sub ∨ q = .div ∨ q = .mod) (hpq : p.prec < q.prec) (hle : o.prec ≤ p.prec) :
    Sep [p, q, o] := by
  have h : separates 2 [(p, 1), (q, 1), (o, 2)] ∨ separates 1 [(p, 0), (q, 1), (o, 1)] := by
    revert hpq hle
    rcases hp with rfl | rfl | rfl <;> rcases hq with rfl | rfl | rfl <;> cases o <;>
      decide +kernel
  rcases h with h | h <;> exact sep_of_separates h

theorem sep_quadruple {p q o : Op} (hp : p = .lshift ∨ p = .rshift)
    (hq : q = .div ∨ q = .mod) (hle : o.prec ≤ p.prec) : Sep [p, .sub, q, o] := by
  have h : separates 1 [(p, 0), (.sub, 0), (q, 1), (o, 2)] := by
    revert hle
    rcases hp with rfl | rfl <;> rcases hq with rfl | rfl <;> cases o <;> decide +kernel
  exact sep_of_separates h

/-! ## All sequences -/

/-- An operator that regroups with nothing binds looser than all that follow. -/
theorem prec_lt_of_groups {p : Op} (hp : ∀ q, p.regroups q = false) {ops : List Op}
    (h : groups (p :: ops)) : ∀ q ∈ ops, p.prec < q.prec := by
  cases ops with
  | nil => simp
  | cons q ops =>
    rw [groups, hp q, Bool.or_false, Bool.and_eq_true] at h
    simpa using h.2

theorem groups_div_mod {p : Op} (hp : p = .div ∨ p = .mod) {ops : List Op}
    (h : groups (p :: ops)) : ops = [] := by
  rw [List.eq_nil_iff_forall_not_mem]
  intro q hq
  have hlt := prec_lt_of_groups (by rcases hp with rfl | rfl <;> exact fun q => by cases q <;> rfl) h q hq
  rcases hp with rfl | rfl <;> cases q <;> exact absurd hlt (by decide)

/-- A shift, a subtraction and operators above it, then one that binds no tighter than the shift. -/
theorem sep_shift_sub {p o : Op} (hp : p = .lshift ∨ p = .rshift) (hle : o.prec ≤ p.prec)
    {ops : List Op} (h : groups (.sub :: ops)) : Sep (p :: .sub :: (ops ++ [o])) := by
  have hlt := prec_lt_of_groups (fun q => by cases q <;> rfl) h
  have hg := groups_tail h
  clear h
  induction ops with
  | nil => exact sep_triple (.inr hp) (.inl rfl) (by rcases hp with rfl | rfl <;> decide) hle
  | cons q ops ih =>
    have hq := hlt q List.mem_cons_self
    cases q with
    | mul =>
      exact Sep.insert (l := [p]) rfl (by decide)
        (ih (fun q hq => hlt q (List.mem_cons_of_mem _ hq)) (groups_tail hg))
    | div =>
      rw [groups_div_mod (.inl rfl) hg]
      exact sep_quadruple hp (.inl rfl) hle
    | mod =>
      rw [groups_div_mod (.inr rfl) hg]
      exact sep_quadruple hp (.inr rfl) hle
    | _ => exact absurd hq (by decide)

/-- An operator without a neutral left operand, operators above it, then one that binds no
tighter. -/
theorem sep_between {p o : Op} (hp : p = .sub ∨ p = .lshift ∨ p = .rshift)
    (hle : o.prec ≤ p.prec) {ops : List Op} (hlt : ∀ q ∈ ops, p.prec < q.prec)
    (hg : groups ops) : Sep (p :: (ops ++ [o])) := by
  induction ops with
  | nil =>
    refine sep_pair hle ?_
    rcases hp with rfl | rfl | rfl <;> cases o <;> rfl
  | cons q ops ih =>
    have hq := hlt q List.mem_cons_self
    have hrest := ih (fun q hq => hlt q (List.mem_cons_of_mem _ hq)) (groups_tail hg)
    cases q with
    | add => exact Sep.insert (l := []) rfl hq hrest
    | mul => exact Sep.insert (l := []) rfl hq hrest
    | sub =>
      rcases hp with rfl | hp
      · exact absurd hq (by decide)
      · exact sep_shift_sub hp hle hg
    | div =>
      rw [groups_div_mod (.inl rfl) hg]
      exact sep_triple hp (.inr (.inl rfl)) hq hle
    | mod =>
      rw [groups_div_mod (.inr rfl) hg]
      exact sep_triple hp (.inr (.inr rfl)) hq hle
    | _ => rcases hp with rfl | rfl | rfl <;> exact absurd hq (by decide)

/-- The only way for a looser operator to regroup with tighter ones before it. -/
theorem eq_mul_lshift {o : Op} {ops : List Op} (hne : ops ≠ [])
    (hlt : ∀ q ∈ ops, o.prec < q.prec) (hg : groups (ops ++ [o])) :
    (∀ q ∈ ops, q = .mul) ∧ o = .lshift := by
  induction ops with
  | nil => exact absurd rfl hne
  | cons q ops ih =>
    have hq := hlt q List.mem_cons_self
    cases ops with
    | nil =>
      rw [List.forall_mem_singleton]
      simp only [List.cons_append, List.nil_append, groups, List.all_cons, List.all_nil,
        Bool.true_and, Bool.and_true, Bool.or_eq_true, decide_eq_true_eq] at hg
      have hre := hg.resolve_left (by omega)
      cases q <;> cases o <;> first
        | exact ⟨rfl, rfl⟩
        | exact absurd hre (by decide)
        | exact absurd hq (by decide)
    | cons r ops =>
      obtain ⟨hmul, rfl⟩ := ih (by simp) (fun q hq => hlt q (List.mem_cons_of_mem _ hq))
        (groups_tail hg)
      obtain rfl := hmul r List.mem_cons_self
      refine ⟨?_, rfl⟩
      rw [List.forall_mem_cons]
      refine ⟨?_, hmul⟩
      rw [List.cons_append, List.cons_append, groups, Bool.and_eq_true, Bool.or_eq_true] at hg
      have hre := hg.2.resolve_left fun hall => by
        have hlast := List.all_eq_true.mp hall .lshift (by simp)
        rw [decide_eq_true_eq] at hlast
        omega
      cases q <;> first
        | rfl
        | exact absurd hre (by decide)

/-- Additions and multiplications that a left shift follows. -/
theorem sep_add_mul_lshift {ops : List Op} (h : ∀ q ∈ ops, q = .mul) :
    Sep (.add :: (ops ++ [.lshift])) := by
  induction ops with
  | nil => exact sep_pair (by decide) rfl
  | cons q ops ih =>
    obtain rfl := h q List.mem_cons_self
    exact Sep.insert (l := []) rfl (by decide) (ih fun q hq => h q (List.mem_cons_of_mem _ hq))

theorem op_cases (p : Op) : (∃ n, leftNeutral p = some n) ∨
    (p = .sub ∨ p = .lshift ∨ p = .rshift) ∨ (p = .div ∨ p = .mod) := by
  cases p <;> simp [leftNeutral]

/-- The first operator that does not group with those before it. -/
theorem sep_of_not_groups_last {ops : List Op} {o : Op} (hg : groups ops)
    (hnot : ¬ groups (ops ++ [o])) : Sep (ops ++ [o]) := by
  induction ops with
  | nil => exact absurd rfl hnot
  | cons p ops ih =>
    cases ops with
    | nil =>
      simp only [List.cons_append, List.nil_append, groups, List.all_cons, List.all_nil,
        Bool.true_and, Bool.and_true, Bool.or_eq_true, decide_eq_true_eq, not_or, not_lt,
        Bool.not_eq_true] at hnot
      exact sep_pair hnot.1 hnot.2
    | cons q ops =>
      have hdiv : ¬ (p = .div ∨ p = .mod) := fun h => absurd (groups_div_mod h hg) (by simp)
      by_cases hrest : groups (q :: ops ++ [o])
      · -- the new operator groups with all but `p`, so it binds no tighter than `p`
        have hre : p.regroups q = false := by
          by_contra hre
          refine hnot ?_
          rw [List.cons_append, List.cons_append, groups, Bool.eq_true_of_not_eq_false hre,
            Bool.or_true, Bool.and_true]
          exact hrest
        have hlt : ∀ x ∈ q :: ops, p.prec < x.prec := by
          rw [groups, hre, Bool.or_false, Bool.and_eq_true] at hg
          simpa using hg.2
        have hle : o.prec ≤ p.prec := by
          by_contra hgt
          refine hnot ?_
          rw [List.cons_append, List.cons_append, groups, Bool.and_eq_true, Bool.or_eq_true]
          refine ⟨hrest, .inl ?_⟩
          rw [← List.cons_append, List.all_append, Bool.and_eq_true]
          exact ⟨by simpa using hlt, by simpa using hgt⟩
        rcases op_cases p with ⟨n, hn⟩ | hp | hp
        · obtain ⟨hmul, rfl⟩ := eq_mul_lshift (by simp) (fun x hx => hle.trans_lt (hlt x hx)) hrest
          obtain rfl := hmul q List.mem_cons_self
          have hadd : p = .add := by
            have hq := hlt .mul List.mem_cons_self
            cases p <;> first
              | rfl
              | exact absurd hle (by decide)
              | exact absurd hq (by decide)
              | exact absurd hn (by simp [leftNeutral])
          rw [hadd]
          exact sep_add_mul_lshift hmul
        · exact sep_between hp hle hlt (groups_tail hg)
        · exact absurd hp hdiv
      · have hsep := ih (groups_tail hg) hrest
        rcases op_cases p with ⟨n, hn⟩ | hp | hp
        · exact hsep.cons_leftNeutral hn
        · have hlt := prec_lt_of_groups
            (by rcases hp with rfl | rfl | rfl <;> exact fun q => by cases q <;> rfl) hg
          by_cases hpo : p.prec < o.prec
          · refine hsep.cons_looser hp fun x hx => ?_
            rcases List.mem_append.mp hx with hx | hx
            · exact hlt x hx
            · rwa [List.mem_singleton.mp hx]
          · exact sep_between hp (not_lt.mp hpo) hlt (groups_tail hg)
        · exact absurd hp hdiv

theorem sep_of_not_groups {ops : List Op} (h : ¬ groups ops) :
    ∃ a s c, s.map Prod.fst = ops ∧ Separates a s c := by
  induction ops using List.reverseRecOn with
  | nil => exact absurd rfl h
  | append_singleton ops o ih =>
    by_cases hg : groups ops
    · obtain ⟨a, s, c, hmap, hs, -⟩ := sep_of_not_groups_last hg h
      exact ⟨a, s, c, hmap, hs⟩
    · obtain ⟨a, s, c, rfl, hs⟩ := ih hg
      exact ⟨a, s ++ [(o, neutral o)], c, by simp, hs.append o⟩

/-- Whatever operands stand between them, the operators are grouped as in C. -/
def ArithAgrees (ops : List Op) : Prop :=
  ∀ (a : UInt64) (s : List (Op × UInt64)), s.map Prod.fst = ops →
    value (parse a s) = value (climb Op.prec a s)

theorem arithAgrees_iff (ops : List Op) : ArithAgrees ops ↔ groups ops := by
  constructor
  · intro h
    by_contra hnot
    obtain ⟨a, s, c, hmap, hs⟩ := sep_of_not_groups hnot
    have heq := h a s hmap
    rw [parse_eq_rightNest, hs.climb] at heq
    exact hs.parse heq
  · rintro h a s rfl
    exact value_parse_of_groups h

/-- Whatever operands stand in it, a comparison and its sides have the values of C. -/
def CmpAgrees (o : CmpOp) (ops ops' : List Op) : Prop :=
  ArithAgrees ops ∧ ArithAgrees ops' ∧
    ∀ (a : UInt64) (s : List (Op × UInt64)) (b : UInt64) (t : List (Op × UInt64)),
      s.map Prod.fst = ops → t.map Prod.fst = ops' →
        (Cmp.cmp o a s b t).truth = (Cmp.cmp o a s b t).truthC

theorem cmpAgrees_iff (o : CmpOp) (ops ops' : List Op) :
    CmpAgrees o ops ops' ↔ (groups ops ∧ groups ops') ∧ plain ops ∧ plain ops' := by
  rw [CmpAgrees, arithAgrees_iff, arithAgrees_iff, ← and_assoc]
  refine and_congr_right fun hg => ⟨fun h => ?_, ?_⟩
  · by_contra hnot
    obtain ⟨a, s, b, t, hs, ht, hne⟩ := parts_of_not_plain o hg.1 hg.2 hnot
    exact hne (h a s b t hs ht)
  · rintro hplain a s b t rfl rfl
    refine Cmp.truth_eq_truthC ?_
    simp only [Cmp.groups, Bool.and_eq_true]
    exact ⟨hg, hplain⟩

/-- An arithmetic expression has the value that C gives it for all operands exactly when each of its
operators binds looser in C than all that follow it or regroups with the next; a comparison and its sides
have their values exactly when, besides, no side has a `|` or `&`; and a condition of such comparisons
exactly when no `||` follows an `&&`. -/
theorem agrees_iff_groups (ops : List Op) (o : CmpOp) (left right : List Op) (logOps : List LogOp) :
    (ArithAgrees ops ↔ groups ops) ∧
      (CmpAgrees o left right ↔ (groups left ∧ groups right) ∧ plain left ∧ plain right) ∧
      (CondAgrees logOps ↔ logGroups logOps) :=
  ⟨arithAgrees_iff ops, cmpAgrees_iff o left right, condAgrees_iff logOps⟩

/-- `elems + 8 * BLK_SZ - 1` of `get_bmp_blks`, with blocks of 1024 bytes: one element takes 8185 where
8192 is meant. -/
theorem not_agrees_get_bmp_blks :
    ¬ ∀ (a : UInt64) (s : List (Op × UInt64)), value (parse a s) = value (climb Op.prec a s) := by
  intro h
  have heq := h 1 [(.add, 8), (.mul, 1024), (.sub, 1)]
  exact absurd heq (by decide +kernel)

end Fsl.Parse
