import Fsl.Compiler.Precedence

/-!
# Comparisons

The grammar takes every arithmetic operator to a side of a comparison, and C does so but for `|` and `&`,
which bind looser than a comparison. Where both sides group, a comparison has its meaning in C exactly
when there is neither. The operands that tell the two trees apart are found for the shortest sides first;
further operators get operands that change neither tree.
-/

namespace Fsl.Parse

open OpTree

/-! ## Operands that change nothing -/

/-- Operands are kept below this, so that a mask and a remainder can leave them alone. -/
def big : UInt64 := 4611686018427387904

/-! ## Operators at the end -/

/-- A right operand that leaves a small left one alone. -/
def neutral : Op → UInt64
  | .mul | .div => 1
  | .bitand => big - 1
  | .mod => big
  | _ => 0

theorem and_big_sub_one {x : UInt64} (hx : x < big) : x &&& (big - 1) = x := by
  apply UInt64.toNat_inj.mp
  have hlt : x.toNat < 2 ^ 62 := hx
  rw [UInt64.toNat_and, show (big - 1).toNat = 2 ^ 62 - 1 from rfl, Nat.and_two_pow_sub_one_eq_mod,
    Nat.mod_eq_of_lt hlt]

theorem mod_big {x : UInt64} (hx : x < big) : x % big = x := by
  apply UInt64.toNat_inj.mp
  rw [UInt64.toNat_mod]
  exact Nat.mod_eq_of_lt hx

theorem apply_neutral {x : UInt64} (hx : x < big) (o : Op) : o.apply x (neutral o) = some x := by
  cases o with
  | bitand => exact congrArg some (and_big_sub_one hx)
  | mod => exact congrArg some (mod_big hx)
  | bitor => exact congrArg some UInt64.or_zero
  | add => exact congrArg some (UInt64.add_zero x)
  | sub => exact congrArg some (UInt64.sub_zero x)
  | mul => exact congrArg some (UInt64.mul_one x)
  | div => exact congrArg some UInt64.div_one
  | lshift => exact congrArg some UInt64.shiftLeft_zero
  | rshift => exact congrArg some UInt64.shiftRight_zero

theorem value_node (o : Op) (l r : OpTree Op UInt64) :
    value (.node o l r) = o.comb (value l) (value r) := rfl

/-- C's tree has the value `c` and leaves room for operators at the end: all values on its right edge
are small. -/
structure Steady (a : UInt64) (s : List (Op × UInt64)) (c : UInt64) : Prop where
  climb : value (climb Op.prec a s) = some c
  spots : ∀ o, ∃ x, value ((OpTree.climb Op.prec a s).spot Op.prec o) = some x ∧ x < big

theorem Steady.append {a : UInt64} {s : List (Op × UInt64)} {c : UInt64} (h : Steady a s c) (o : Op) :
    Steady a (s ++ [(o, neutral o)]) c := by
  have hclimb : OpTree.climb Op.prec a (s ++ [(o, neutral o)]) =
      (OpTree.climb Op.prec a s).push Op.prec (o, neutral o) := climb_concat _ _ _
  have hspot (q : Op) : q.comb (value ((OpTree.climb Op.prec a s).spot Op.prec q))
      (some (neutral q)) = value ((OpTree.climb Op.prec a s).spot Op.prec q) := by
    obtain ⟨x, hx, hlt⟩ := h.spots q
    rw [hx]
    exact apply_neutral hlt q
  refine ⟨?_, fun q => ?_⟩
  · rw [hclimb, ← h.climb]
    exact eval_push_of_neutral (hspot o)
  · rw [hclimb]
    by_cases hq : q.prec ≤ o.prec
    · obtain ⟨x, hx, hlt⟩ := h.spots q
      exact ⟨x, (eval_spot_push_of_neutral (hspot o) hq).trans hx, hlt⟩
    · rw [spot_push_of_lt _ (not_le.mp hq)]
      refine ⟨neutral o, rfl, ?_⟩
      cases o with
      | mod => exact absurd (by cases q <;> decide) hq
      | _ => decide

/-- Operators can have operands for every small value. -/
theorem exists_steady {c : UInt64} (hc : c < big) (ops : List Op) :
    ∃ s, s.map Prod.fst = ops ∧ Steady c s c := by
  induction ops using List.reverseRecOn with
  | nil => exact ⟨[], rfl, rfl, fun o => ⟨c, rfl, hc⟩⟩
  | append_singleton ops o ih =>
    obtain ⟨s, rfl, hs⟩ := ih
    exact ⟨s ++ [(o, neutral o)], by simp, hs.append o⟩

/-- A left operand that leaves any right one alone. -/
def leftNeutral : Op → Option UInt64
  | .bitor | .add => some 0
  | .bitand => some (-1)
  | .mul => some 1
  | _ => none

theorem comb_leftNeutral {p : Op} {n : UInt64} (h : leftNeutral p = some n) (x : Option UInt64) :
    p.comb (some n) x = x := by
  cases x with
  | none => rfl
  | some x =>
    rw [Op.comb_some]
    cases p <;> simp only [leftNeutral, Option.some.injEq, reduceCtorEq] at h
    all_goals
      subst h
      simp [Op.apply]

theorem groups_tail {p : Op} {ops : List Op} (h : groups (p :: ops)) : groups ops := by
  cases ops with
  | nil => rfl
  | cons q ops =>
    rw [groups, Bool.and_eq_true] at h
    exact h.1

/-! ## Where `|` and `&` stand -/

theorem plain_of_groups {p : Op} (hp : 2 ≤ p.prec) {ops : List Op} (h : groups (p :: ops)) :
    plain ops := by
  induction ops generalizing p with
  | nil => rfl
  | cons q ops ih =>
    have htail := groups_tail h
    rw [groups, Bool.and_eq_true, Bool.or_eq_true] at h
    have hq : 2 ≤ q.prec := by
      rcases h.2 with hlt | hre
      · have := List.all_eq_true.mp hlt q List.mem_cons_self
        rw [decide_eq_true_eq] at this
        omega
      · cases p <;> cases q <;> first
          | exact absurd hre (by decide)
          | exact absurd hp (by decide)
          | decide
    rw [plain, List.all_cons, Bool.and_eq_true]
    exact ⟨decide_eq_true hq, ih hq htail⟩

/-- After an `&` there is no `|`. -/
theorem prec_le_of_groups {p : Op} (hp : p.prec < 2) {ops : List Op} (h : groups (p :: ops)) :
    ∀ q ∈ ops, p.prec ≤ q.prec := by
  induction ops with
  | nil => simp
  | cons q ops ih =>
    have htail := groups_tail h
    rw [groups, Bool.and_eq_true, Bool.or_eq_true] at h
    rcases h.2 with hlt | hre
    · intro r hr
      have := List.all_eq_true.mp hlt r hr
      rw [decide_eq_true_eq] at this
      omega
    · obtain rfl : p = q := by
        cases p <;> cases q <;> first
          | rfl
          | exact absurd hre (by decide)
          | exact absurd hp (by decide)
      exact List.forall_mem_cons.mpr ⟨le_rfl, ih htail⟩

/-! ## Two comparisons -/

/-- A comparison whose truth depends on the grouping. -/
def Parts (o : CmpOp) (ops ops' : List Op) : Prop :=
  ∃ a s b t, s.map Prod.fst = ops ∧ t.map Prod.fst = ops' ∧
    (Cmp.cmp o a s b t).truth ≠ (Cmp.cmp o a s b t).truthC

theorem left_probe {p : Op} (hp : p.prec < 2) (o : CmpOp) : ∃ a x y, x < big ∧ y < big ∧
    (p.apply a x).map (fun v => o.test v y) ≠
      (p.apply a (if o.test x y then 1 else 0)).map (· != 0) := by
  cases p <;> cases o <;> first
    | exact absurd hp (by decide)
    | exact ⟨2, 2, 2, by decide⟩
    | exact ⟨2, 2, 0, by decide⟩
    | exact ⟨2, 2, 3, by decide⟩

theorem right_probe {p : Op} (hp : p.prec < 2) (o : CmpOp) : ∃ x b y, x < big ∧ y < big ∧
    (p.apply b y).map (fun v => o.test x v) ≠
      (p.apply (if o.test x b then 1 else 0) y).map (· != 0) := by
  cases p <;> cases o <;> first
    | exact absurd hp (by decide)
    | exact ⟨2, 2, 2, by decide⟩
    | exact ⟨0, 2, 2, by decide⟩
    | exact ⟨3, 2, 2, by decide⟩

theorem prec_arith_of_loose {p : Op} (hp : p.prec < 2) : (COp.arith p).prec = p.prec := if_pos hp

theorem two_le_prec_cmp (o : CmpOp) : 2 ≤ (COp.cmp o).prec := by
  cases o <;> decide

/-- All operators of a row bind tighter than a loose one that stands outside the comparison. -/
theorem prec_lt_row {p : Op} (hp : p.prec < 2) (o : CmpOp) {s t : List (Op × UInt64)}
    (hs : plain (s.map Prod.fst)) (ht : plain (t.map Prod.fst)) (b : UInt64) :
    ∀ q ∈ (o.row s b t).map Prod.fst, (COp.arith p).prec < q.prec := by
  have hcmp := two_le_prec_cmp o
  intro q hq
  rw [CmpOp.row, List.map_append, List.map_cons, map_fst_arith, map_fst_arith, List.mem_append,
    List.mem_cons, List.mem_map, List.mem_map] at hq
  rw [prec_arith_of_loose hp]
  rcases hq with ⟨q, hq, rfl⟩ | rfl | ⟨q, hq, rfl⟩
  · have := prec_of_plain hs hq
    omega
  · exact lt_of_lt_of_le hp hcmp
  · have := prec_of_plain ht hq
    omega

theorem value_row {o : CmpOp} {s t : List (Op × UInt64)} (hs : plain (s.map Prod.fst))
    (ht : plain (t.map Prod.fst)) {a b x y : UInt64} (hx : value (climb Op.prec a s) = some x)
    (hy : value (climb Op.prec b t) = some y) :
    (climb COp.prec a (o.row s b t)).eval COp.comb some = some (if o.test x y then 1 else 0) := by
  rw [climb_row hs ht, eval, eval_climb_arith, eval_climb_arith, hx, hy]
  rfl

/-- A `|` or `&` at the end of the left side. -/
theorem parts_left {p : Op} (hp : p.prec < 2) (o : CmpOp) {ops ops' : List Op} (hops : plain ops)
    (hg : groups ops) (hops' : plain ops') (hg' : groups ops') : Parts o (p :: ops) ops' := by
  obtain ⟨a, x, y, hx, hy, hne⟩ := left_probe hp o
  obtain ⟨s, rfl, hs, -⟩ := exists_steady hx ops
  obtain ⟨t, rfl, ht, -⟩ := exists_steady hy ops'
  refine ⟨a, (p, x) :: s, y, t, rfl, rfl, ?_⟩
  have hroot : climb COp.prec a (o.row ((p, x) :: s) y t) =
      .node (.arith p) (.leaf a) (climb COp.prec x (o.row s y t)) :=
    climb_node (s := []) (by simp) (prec_lt_row hp o hops hops' y)
  have hleft : value (parse a ((p, x) :: s)) = p.apply a x := by
    rw [parse_eq_rightNest, rightNest, value_node, ← parse_eq_rightNest, value_parse_of_groups hg, hs]
    rfl
  rw [Cmp.truth, Cmp.truthC, hleft, value_parse_of_groups hg', ht, hroot, eval, value_row hops hops' hs ht]
  intro h
  refine hne (Eq.trans ?_ h)
  cases p.apply a x <;> rfl

/-- A `|` or `&` at the start of the right side. -/
theorem parts_right {p : Op} (hp : p.prec < 2) (o : CmpOp) {ops ops' : List Op} (hops : plain ops)
    (hg : groups ops) (hops' : plain ops') (hg' : groups ops') : Parts o ops (p :: ops') := by
  obtain ⟨x, b, y, hx, hy, hne⟩ := right_probe hp o
  obtain ⟨s, rfl, hs, -⟩ := exists_steady hx ops
  obtain ⟨t, rfl, ht, -⟩ := exists_steady hy ops'
  refine ⟨x, s, b, (p, y) :: t, rfl, rfl, ?_⟩
  have hrow : o.row s b ((p, y) :: t) =
      o.row s b [] ++ (.arith p, y) :: t.map (Prod.map .arith id) := by
    simp [CmpOp.row]
  have hroot : climb COp.prec x (o.row s b ((p, y) :: t)) =
      .node (.arith p) (climb COp.prec x (o.row s b [])) (climb COp.prec y (t.map (Prod.map .arith id))) := by
    rw [hrow]
    refine climb_node (fun q hq => (prec_lt_row hp o hops (t := []) rfl b q hq).le) fun q hq => ?_
    rw [map_fst_arith, List.mem_map] at hq
    obtain ⟨q, hq, rfl⟩ := hq
    have := prec_of_plain hops' hq
    rw [prec_arith_of_loose hp]
    omega
  have hright : value (parse b ((p, y) :: t)) = p.apply b y := by
    rw [parse_eq_rightNest, rightNest, value_node, ← parse_eq_rightNest, value_parse_of_groups hg', ht]
    rfl
  rw [Cmp.truth, Cmp.truthC, hright, value_parse_of_groups hg, hs, hroot, eval,
    value_row hops (t := []) rfl hs rfl, eval_climb_arith, ht]
  intro h
  refine hne (Eq.trans ?_ h)
  cases p.apply b y <;> rfl

/-! ## More operators -/

/-- The operand for which `|` and `&` leave the other one alone. -/
def mask : Op → UInt64
  | .bitand => -1
  | _ => 0

theorem leftNeutral_mask {p : Op} (hp : p.prec < 2) : leftNeutral p = some (mask p) := by
  cases p <;> first
    | rfl
    | exact absurd hp (by decide)

theorem comb_mask_right {p : Op} (hp : p.prec < 2) (x : Option UInt64) :
    p.comb x (some (mask p)) = x := by
  cases x with
  | none => rfl
  | some x =>
    cases p <;> first
      | exact absurd hp (by decide)
      | simp [Op.comb, Op.apply, mask]

/-- One more `|` or `&` at the front. -/
theorem Parts.cons_left {p : Op} (hp : p.prec < 2) {o : CmpOp} {ops ops' : List Op}
    (h : Parts o ops ops') : Parts o (p :: ops) ops' := by
  obtain ⟨a, s, b, t, rfl, rfl, hne⟩ := h
  have hn : ∀ x, (COp.arith p).comb (some (mask p)) x = x := comb_leftNeutral (leftNeutral_mask hp)
  have hgraft : Grafts COp.prec COp.comb some (.arith p) (mask p)
      (climb COp.prec (mask p) (o.row ((p, a) :: s) b t)) (climb COp.prec a (o.row s b t)) :=
    (Grafts.leaf a).foldl hn _
  have hleft : value (parse (mask p) ((p, a) :: s)) = value (parse a s) := by
    rw [parse_eq_rightNest, parse_eq_rightNest]
    exact hn _
  refine ⟨mask p, (p, a) :: s, b, t, rfl, rfl, fun heq => hne ?_⟩
  rwa [Cmp.truth, Cmp.truthC, hleft, hgraft.eval_eq hn] at heq

/-- One more `|` or `&` on the right side, after one that binds no tighter. -/
theorem Parts.insert_right {p q : Op} (hp : p.prec < 2) (hq : q.prec < 2) (hle : p.prec ≤ q.prec)
    {o : CmpOp} {ops ops' : List Op} (hops : plain ops) (h : Parts o ops (p :: ops')) :
    Parts o ops (p :: q :: ops') := by
  obtain ⟨a, s, b, t', rfl, hmap, hne⟩ := h
  obtain ⟨⟨p', x⟩, t, rfl, rfl, rfl⟩ := List.map_eq_cons_iff.mp hmap
  change p'.prec < 2 at hp
  change p'.prec ≤ q.prec at hle
  have hn : ∀ x, (COp.arith q).comb (some (mask q)) x = x := comb_leftNeutral (leftNeutral_mask hq)
  have hsplit : ∀ l : List (Op × UInt64), climb COp.prec a (o.row s b l) =
      (l.map (Prod.map COp.arith id)).foldl (push COp.prec) (climb COp.prec a (o.row s b [])) := by
    intro l
    simp [climb, CmpOp.row]
  generalize hbase : climb COp.prec a (o.row s b []) = u at hsplit
  have hstart : Grafts COp.prec COp.comb some (.arith q) (mask q)
      ((u.push COp.prec (.arith p', mask q)).push COp.prec (.arith q, x))
      (u.push COp.prec (.arith p', x)) := by
    rcases hle.lt_or_eq with hlt | heq
    · exact grafts_push_push ((prec_arith_lt_iff p' q).mpr hlt) u _ x
    · obtain rfl : p' = q := by
        cases p' <;> cases q <;> first
          | rfl
          | exact absurd heq (by decide)
          | exact absurd hp (by decide)
      -- the comparison is the left operand of both
      have hroot : ∀ y, u.push COp.prec (.arith p', y) = .node (.arith p') u (.leaf y) := by
        intro y
        rw [← hbase, ← climb_concat]
        exact climb_node (t := []) (fun r hr => (prec_lt_row hp o hops (t := []) rfl b r hr).le) (by simp)
      rw [hroot, hroot, push_node, if_neg (lt_irrefl _)]
      exact .left _ _ (comb_mask_right hp _)
  have hC : (climb COp.prec a (o.row s b ((p', mask q) :: (q, x) :: t))).eval COp.comb some =
      (climb COp.prec a (o.row s b ((p', x) :: t))).eval COp.comb some := by
    rw [hsplit, hsplit]
    exact (hstart.foldl hn _).eval_eq hn
  have hright : value (parse b ((p', mask q) :: (q, x) :: t)) = value (parse b ((p', x) :: t)) := by
    rw [parse_eq_rightNest, parse_eq_rightNest]
    exact congrArg (p'.comb (some b)) (hn _)
  refine ⟨a, s, b, (p', mask q) :: (q, x) :: t, rfl, rfl, fun heq => hne ?_⟩
  rwa [Cmp.truth, Cmp.truthC, hright, hC] at heq

theorem plain_cons {p : Op} {ops : List Op} : plain (p :: ops) ↔ 2 ≤ p.prec ∧ plain ops := by
  rw [plain, List.all_cons, Bool.and_eq_true, decide_eq_true_eq, plain]

theorem parts_right_of_groups {p : Op} (hp : p.prec < 2) (o : CmpOp) {ops ops' : List Op}
    (hops : plain ops) (hg : groups ops) (hg' : groups (p :: ops')) : Parts o ops (p :: ops') := by
  have hle := prec_le_of_groups hp hg'
  have htail := groups_tail hg'
  clear hg'
  induction ops' with
  | nil => exact parts_right hp o hops hg rfl rfl
  | cons q ops' ih =>
    by_cases hq : 2 ≤ q.prec
    · exact parts_right hp o hops hg (plain_cons.mpr ⟨hq, plain_of_groups hq htail⟩) htail
    · exact (ih (fun r hr => hle r (List.mem_cons_of_mem _ hr)) (groups_tail htail)).insert_right hp
        (not_le.mp hq) (hle q List.mem_cons_self) hops

theorem parts_of_plain_left (o : CmpOp) {ops ops' : List Op} (hops : plain ops) (hg : groups ops)
    (hg' : groups ops') (h : ¬ plain ops') : Parts o ops ops' := by
  cases ops' with
  | nil => exact absurd rfl h
  | cons q ops' =>
    by_cases hq : 2 ≤ q.prec
    · exact absurd (plain_cons.mpr ⟨hq, plain_of_groups hq hg'⟩) h
    · exact parts_right_of_groups (not_le.mp hq) o hops hg hg'

/-- Sides that group, with a `|` or `&` in one of them, have operands for which the groupings differ. -/
theorem parts_of_not_plain (o : CmpOp) {ops ops' : List Op} (hg : groups ops) (hg' : groups ops')
    (h : ¬ (plain ops ∧ plain ops')) : Parts o ops ops' := by
  induction ops with
  | nil => exact parts_of_plain_left o rfl hg hg' fun h' => h ⟨rfl, h'⟩
  | cons p ops ih =>
    by_cases hp : 2 ≤ p.prec
    · have hplain : plain (p :: ops) := plain_cons.mpr ⟨hp, plain_of_groups hp hg⟩
      exact parts_of_plain_left o hplain hg hg' fun h' => h ⟨hplain, h'⟩
    · have htail := groups_tail hg
      by_cases hrest : plain ops ∧ plain ops'
      · exact parts_left (not_le.mp hp) o hrest.1 htail hrest.2 hg'
      · exact (ih htail hrest).cons_left (not_le.mp hp)

end Fsl.Parse
