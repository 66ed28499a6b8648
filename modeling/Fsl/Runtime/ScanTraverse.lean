import Fsl.Runtime.ScanType

/-!
# Scans and traversals

The stack machine of a scan sweeps the tree of an instance: it forgets what a callback has said as soon
as it has left a table's entry. So it is the recursive traversal where nothing that it finds is left out.
-/

namespace Fsl.ScanType

open Children Preorder Runs

variable {T : Type} {w : Types T} {deep : Bool} {soTi : List T → T → ℤ}

/-! ## The stack machine sweeps -/

section Machine

variable {n : ℕ} {st st' : State T} {stk kept left : List (Frame T)} {h : List T}
  {s : List T × Mark T}

theorem isRetDone_iff (ret : ℤ) : isRetDone ret ↔ retCode ret = .stop ∨ retCode ret = .leave := by
  unfold isRetDone retCode
  split_ifs <;> simp [*]

/-- The machine comes out of a part of a scan as a sweep does. -/
structure Comes (w : Types T) (deep : Bool) (soTi : List T → T → ℤ) (st : State T)
    (kept left : List (Frame T)) (s : List T × Mark T) : Prop where
  kept : s.2 = .kept → Steps (step w deep soTi) st ⟨kept, s.1⟩
  left : s.2 = .left → Steps (step w deep soTi) st ⟨left, s.1⟩
  lost : ∀ wild, s.2 = .lost wild →
    ∃ fr stk, Wanders w deep wild fr ∧ Steps (step w deep soTi) st ⟨fr :: stk, s.1⟩

theorem Comes.head (hs : Steps (step w deep soTi) st st') (hc : Comes w deep soTi st' kept left s) :
    Comes w deep soTi st kept left s where
  kept hk := hs.trans (hc.kept hk)
  left hl := hs.trans (hc.left hl)
  lost wild hl := by
    obtain ⟨fr, stk, hw, hrest⟩ := hc.lost wild hl
    exact ⟨fr, stk, hw, hs.trans hrest⟩

theorem Comes.tail {stk' : List (Frame T)} (hc : Comes w deep soTi st stk stk s)
    (hs : ∀ h, Steps (step w deep soTi) ⟨stk, h⟩ ⟨stk', h⟩) : Comes w deep soTi st stk' stk' s where
  kept hk := (hc.kept hk).trans (hs _)
  left hl := (hc.left hl).trans (hs _)
  lost := hc.lost

/-- Where nothing tells the two ways out apart, the machine is at one stack unless it is lost. -/
theorem Comes.steps (hc : Comes w deep soTi st stk stk s) (hl : ∀ wild, s.2 ≠ .lost wild) :
    Steps (step w deep soTi) st ⟨stk, s.1⟩ := by
  cases hm : s.2 with
  | kept => exact hc.kept hm
  | left => exact hc.left hm
  | lost wild => exact absurd hm (hl wild)

theorem Comes.of_steps {mark : Mark T} (hs : Steps (step w deep soTi) st ⟨stk, h⟩)
    (hl : ∀ wild, mark ≠ .lost wild) : Comes w deep soTi st stk stk (h, mark) where
  kept _ := hs
  left _ := hs
  lost wild hlost := absurd hlost (hl wild)

theorem Comes.of_lost {wild : Set T} (hc : ∃ fr stk, Wanders w deep wild fr ∧
    Steps (step w deep soTi) st ⟨fr :: stk, h⟩) : Comes w deep soTi st kept left (h, .lost wild) where
  kept hk := by cases hk
  left hl := by cases hl
  lost wild' hl := by
    cases hl
    exact hc

/-- What `create_stk_type` on an instance comes to, down to the stack below the new frames. -/
def SweepsNode (w : Types T) (deep : Bool) (soTi : List T → T → ℤ) (n : ℕ) (c : T) : Prop :=
  ∀ below stack h, Comes w deep soTi (create soTi below stack h c) stack below
    (sweep (w.batches deep) (codes soTi) n c h)

/-- The frame of an entry sweeps its elements. -/
theorem comes_of_yields {fr : Frame T} {l : List T} {mark : Mark T} (hy : Yields w deep fr l mark)
    (hnode : ∀ c ∈ l, SweepsNode w deep soTi n c) : Comes w deep soTi ⟨fr :: stk, h⟩ stk stk
      (sweepBatch (sweep (w.batches deep) (codes soTi) n) mark l h) := by
  induction hy generalizing h with
  | exit hfill =>
    exact .of_steps (Steps.single (by simp only [step, hfill])) (by simp)
  | lost hw => exact .of_lost ⟨_, stk, hw, Steps.refl _⟩
  | again hfill _ ih =>
    exact (ih hnode).head (Steps.single (by simp only [step, hfill]))
  | @create fr fr' ti l mark hfill _ ih =>
    have hstep : step w deep soTi ⟨fr :: stk, h⟩ =
        some (.inl (create soTi stk (fr' :: stk) h ti)) := by
      simp only [step, hfill]
    have hself := hnode ti List.mem_cons_self stk (fr' :: stk) h
    refine Comes.head (Steps.single hstep) ?_
    rw [sweepBatch]
    by_cases hk : (sweep (w.batches deep) (codes soTi) n ti h).2.IsKept
    · rw [if_pos hk]
      refine (ih fun c hc => hnode c (List.mem_cons_of_mem ti hc)).head (hself.kept ?_)
      cases hm : (sweep (w.batches deep) (codes soTi) n ti h).2 with
      | kept => rfl
      | left => exact (hm ▸ hk : (Mark.left : Mark T).IsKept).elim
      | lost wild => exact (hm ▸ hk : (Mark.lost wild).IsKept).elim
    · rw [if_neg hk]
      refine ⟨fun hkept => absurd ?_ hk, hself.left, hself.lost⟩
      rw [hkept]
      trivial

/-- One batch behind another. -/
theorem Comes.batch {b : Batch T} {bs : List (Batch T)} {f : T → List T → List T × Mark T}
    (hb : Comes w deep soTi st stk stk (sweepBatch f b.mark b.early h))
    (hbs : ∀ h, Comes w deep soTi ⟨stk, h⟩ kept left (sweepAll f bs h)) :
    Comes w deep soTi st kept left (sweepAll f (b :: bs) h) := by
  by_cases hl : ∃ wild, (sweepBatch f b.mark b.early h).2 = .lost wild
  · obtain ⟨wild, hl⟩ := hl
    rw [sweepAll_cons_of_lost hl]
    exact .of_lost (hb.lost wild hl)
  · rw [sweepAll_cons_of_ne (not_exists.mp hl)]
    exact (hbs _).head (hb.steps (not_exists.mp hl))

/-- Some batches behind others. -/
theorem Comes.append {bs bs' : List (Batch T)} {f : T → List T → List T × Mark T}
    (hbs : Comes w deep soTi st stk stk (sweepAll f bs h))
    (hbs' : ∀ h, Comes w deep soTi ⟨stk, h⟩ kept left (sweepAll f bs' h)) :
    Comes w deep soTi st kept left (sweepAll f (bs ++ bs') h) := by
  by_cases hl : ∃ wild, (sweepAll f bs h).2 = .lost wild
  · obtain ⟨wild, hl⟩ := hl
    rw [sweepAll_append_of_lost bs' hl]
    exact .of_lost (hbs.lost wild hl)
  · rw [sweepAll_append_of_ne bs' (not_exists.mp hl)]
    exact (hbs' _).head (hbs.steps (not_exists.mp hl))

/-- The frame of a table sweeps the batches of its entries; an entry without a frame has a bare one. -/
theorem comes_table {α : Type} {F : List α → Frame T} {B : α → Batch T} {l : List α}
    (hnil : fillNext w deep (F []) = .exit)
    (hcons : ∀ a ∈ l, ∀ rest,
      (∃ new, fillNext w deep (F (a :: rest)) = .push (F rest) new ∧
        Yields w deep new (B a).early (B a).mark) ∨
        fillNext w deep (F (a :: rest)) = .again (F rest) ∧ B a = ⟨[], [], none⟩)
    (hnode : ∀ a ∈ l, ∀ c ∈ (B a).early, SweepsNode w deep soTi n c) :
    Comes w deep soTi ⟨F l :: stk, h⟩ stk stk
      (sweepAll (sweep (w.batches deep) (codes soTi) n) (l.map B) h) := by
  induction l generalizing h with
  | nil =>
    exact .of_steps (Steps.single (by simp only [step, hnil])) (by simp)
  | cons a l ih =>
    have ih' : ∀ h, Comes w deep soTi ⟨F l :: stk, h⟩ stk stk
        (sweepAll (sweep (w.batches deep) (codes soTi) n) (l.map B) h) := fun h =>
      ih (fun b hb => hcons b (List.mem_cons_of_mem a hb))
        (fun b hb => hnode b (List.mem_cons_of_mem a hb))
    rcases hcons a List.mem_cons_self l with ⟨new, hfill, hy⟩ | ⟨hfill, hnone⟩
    · have hstep : step w deep soTi ⟨F (a :: l) :: stk, h⟩ = some (.inl ⟨new :: F l :: stk, h⟩) := by
        simp only [step, hfill]
      exact ((comes_of_yields hy (hnode a List.mem_cons_self)).head (Steps.single hstep)).batch ih'
    · have hstep : step w deep soTi ⟨F (a :: l) :: stk, h⟩ = some (.inl ⟨F l :: stk, h⟩) := by
        simp only [step, hfill]
      have hbare : sweepBatch (sweep (w.batches deep) (codes soTi) n) (B a).mark (B a).early h =
          (h, .left) := by
        rw [hnone]
        rfl
      rw [List.map_cons, sweepAll_cons_of_ne (by simp [hbare]), hbare]
      exact (ih' h).head (Steps.single hstep)

theorem yields_of_followed (ti : T) {tf : Field T} (hf : tf.followed deep = true) :
    Yields w deep (.fieldarray ti tf 0 tf.fieldbitoff) (tf.batch w deep).early
      (tf.batch w deep).mark := by
  have hy : Yields w deep (.fieldarray ti tf 0 tf.fieldbitoff) _ _ :=
    yields_fieldarray ti (Nat.zero_add (min tf.elemcount.toNat (2 ^ 32)))
  rw [Field.batch, if_pos hf, Batch.mark]
  dsimp only
  split_ifs at hy ⊢ with hcount
  · exact hy
  · exact hy

theorem batch_of_not_followed {tf : Field T} (hf : tf.followed deep = false) :
    tf.batch w deep = ⟨[], [], none⟩ := by
  rw [Field.batch, hf]
  rfl

theorem present_cons_some (tf : Field T) (fs : List (Option Bool × Field T)) :
    present ((some true, tf) :: fs) = tf :: present fs := rfl

theorem present_cons_other {cond : Option Bool} (hc : cond ≠ some true) (tf : Field T)
    (fs : List (Option Bool × Field T)) : present ((cond, tf) :: fs) = present fs := by
  rw [present, List.filterMap_cons, if_neg hc]
  rfl

/-- The frame of the conditional fields sweeps those up to the first one that is not followed. -/
theorem comes_cond (ti : T) {fs : List (Option Bool × Field T)}
    (hnode : ∀ c ∈ items (condBatches w deep fs), SweepsNode w deep soTi n c) :
    Comes w deep soTi ⟨.cond ti fs :: stk, h⟩ stk stk
      (sweepAll (sweep (w.batches deep) (codes soTi) n) (condBatches w deep fs) h) := by
  induction fs generalizing h with
  | nil => exact .of_steps (Steps.single rfl) (by simp)
  | cons f fs ih =>
    obtain ⟨cond, tf⟩ := f
    by_cases hc : cond = some true
    · subst hc
      unfold condBatches at hnode ⊢
      rw [present_cons_some] at hnode ⊢
      cases hf : tf.followed deep with
      | true =>
        rw [List.takeWhile_cons_of_pos hf, List.dropWhile_cons_of_pos hf, List.map_cons,
          List.cons_append] at hnode ⊢
        have hstep : step w deep soTi ⟨.cond ti ((some true, tf) :: fs) :: stk, h⟩ =
            some (.inl ⟨.fieldarray ti tf 0 tf.fieldbitoff :: .cond ti fs :: stk, h⟩) := by
          simp only [step, fillNext, fieldarrayInit_eq, hf, if_true]
        have hfirst : ∀ c ∈ (tf.batch w deep).early, SweepsNode w deep soTi n c := fun c hcm =>
          hnode c (List.mem_append_left _ (List.mem_append_left _ hcm))
        refine ((comes_of_yields (yields_of_followed ti hf) hfirst).head (Steps.single hstep)).batch ?_
        exact fun h => ih fun c hcm => hnode c (List.mem_append_right _ hcm)
      | false =>
        have hnf : ¬ tf.followed deep = true := by simp [hf]
        have hstep : step w deep soTi ⟨.cond ti ((some true, tf) :: fs) :: stk, h⟩ =
            some (.inl ⟨stk, h⟩) := by
          simp only [step, fillNext, fieldarrayInit_eq, hf, Bool.false_eq_true, if_false]
        rw [List.takeWhile_cons_of_neg hnf, List.map_nil, List.nil_append, sweepAll_of_bare]
        · exact .of_steps (Steps.single hstep) (by simp)
        · intro b hb
          obtain ⟨tf', -, rfl⟩ := List.mem_map.mp hb
          exact ⟨rfl, rfl⟩
    · have hstep : step w deep soTi ⟨.cond ti ((cond, tf) :: fs) :: stk, h⟩ =
          some (.inl ⟨.cond ti fs :: stk, h⟩) := by
        cases cond with
        | none => rfl
        | some b =>
          cases b with
          | false => rfl
          | true => exact absurd rfl hc
      unfold condBatches at hnode ⊢
      rw [present_cons_other hc] at hnode ⊢
      exact (ih hnode).head (Steps.single hstep)

/-- The frame of a range, if there is one, sweeps its instances. -/
theorem yields_of_init {ti : T} {pt : Points T} {new : Frame T}
    (hinit : pointstoInit ti pt = some new) : Yields w deep new pt.batch.early pt.batch.mark := by
  rw [pointstoInit_eq] at hinit
  split_ifs at hinit with hnone
  cases hinit
  rw [Points.batch, if_neg hnone, Batch.mark]
  have hle := UInt64.le_iff_toNat_le.mp (UInt64.not_lt.mp (not_or.mp hnone).2)
  rcases Nat.lt_or_ge pt.itMin.toNat (2 ^ 32) with hsmall | hbig
  · have hidx : pt.itMin.toUInt32.toNat = pt.itMin.toNat := by
      rw [UInt64.toNat_toUInt32]
      exact Nat.mod_eq_of_lt hsmall
    have hcount : pt.itMin.toUInt32.toNat +
        (min (pt.itMax.toNat + 1) (2 ^ 32) - pt.itMin.toNat) = min (pt.itMax.toNat + 1) (2 ^ 32) := by
      omega
    have hy : Yields w deep (.pointsto ti pt pt.itMin.toUInt32) _ _ := yields_pointsto ti hcount
    rw [hidx] at hy
    dsimp only
    split_ifs at hy ⊢ with hcount
    · exact hy
    · exact hy
  · -- the index has gone around before the first instance
    have hcount : ¬ pt.itMax.toNat + 1 < 2 ^ 32 := by omega
    dsimp only
    rw [if_neg hcount, Nat.sub_eq_zero_of_le ((Nat.min_le_right _ _).trans hbig)]
    exact .lost (wanders_pointsto ti (Nat.not_lt.mp hcount) _)

/-- The frame of a virtual type sweeps its elements. -/
theorem yields_of_virt (ti : T) (vt : Virt T) :
    Yields w deep (.virt ti vt 0) vt.batch.early vt.batch.mark := by
  have hzero : (0 : UInt32).toNat = 0 := rfl
  have hy : ∀ count, count = 2 ^ 32 → Yields w deep (.virt ti vt 0) (virtElems vt count 0)
      vt.batch.mark := by
    intro count hcount
    have hy : Yields w deep (.virt ti vt 0) (virtElems vt count (0 : UInt32).toNat) _ :=
      yields_virt ti (by rw [hzero, Nat.zero_add, hcount]) fun m hm => by
        rw [hzero] at hm
        exact absurd hm (Nat.not_lt_zero m)
    rw [hzero] at hy
    by_cases hend : ∃ m, m < 2 ^ 32 ∧ ends (vt.follow (UInt32.ofNat m)) = true
    · have hwild : vt.batch.wild = none := by simp only [Virt.batch, if_pos hend]
      rw [if_pos hend] at hy
      rw [mark_of_none hwild]
      exact hy
    · have hwild : vt.batch.wild = some {c | ∃ i err, vt.follow i = (some c, err)} := by
        simp only [Virt.batch, if_neg hend]
      rw [if_neg hend] at hy
      rw [mark_of_some hwild]
      exact hy
  exact hy (2 ^ 32) rfl

/-- The four stages of a type sweep its tables. -/
theorem comes_type {ti : T} (hnode : ∀ c ∈ w.children deep ti, SweepsNode w deep soTi n c) :
    Comes w deep soTi ⟨.type ti 0 :: stk, h⟩ stk stk
      (sweepAll (sweep (w.batches deep) (codes soTi) n) (w.batches deep ti) h) := by
  rw [← children_batches] at hnode
  have hnode' : ∀ b ∈ w.batches deep ti, ∀ c ∈ b.early, SweepsNode w deep soTi n c :=
    fun b hb c hc => hnode c (List.mem_flatMap.mpr ⟨b, hb, List.mem_append_left _ hc⟩)
  have hcond : ∀ c ∈ items (condBatches w deep (w.fieldtypes ti)), SweepsNode w deep soTi n c := by
    intro c hc
    refine hnode c ?_
    show c ∈ items (w.batches deep ti)
    rw [Types.batches, items_append, items_append]
    exact List.mem_append_right _ (List.mem_append_left _ hc)
  simp only [Types.batches, List.mem_append, List.mem_map] at hnode'
  -- each stage pushes the frame of its table over that of the type
  refine Comes.append (Comes.head (Steps.single rfl) (comes_table rfl (fun tf _ rest => ?_)
    fun tf htf => hnode' _ (Or.inl ⟨tf, htf, rfl⟩))) fun h => ?_
  · cases hf : tf.followed deep with
    | true =>
      refine Or.inl ⟨_, ?_, yields_of_followed ti hf⟩
      simp only [fillNext, fieldarrayInit_eq, hf, if_true]
    | false =>
      refine Or.inr ⟨?_, batch_of_not_followed hf⟩
      simp only [fillNext, fieldarrayInit_eq, hf, Bool.false_eq_true, if_false]
  refine Comes.append (Comes.head (Steps.single rfl) (comes_cond ti hcond)) fun h => ?_
  refine Comes.append (Comes.head (Steps.single rfl) (comes_table rfl (fun pt _ rest => ?_)
    fun pt hpt => hnode' _ (Or.inr (Or.inr (Or.inl ⟨pt, hpt, rfl⟩))))) fun h => ?_
  · cases hinit : pointstoInit ti pt with
    | some new =>
      refine Or.inl ⟨new, ?_, yields_of_init hinit⟩
      simp only [fillNext, hinit]
    | none =>
      rw [pointstoInit_eq] at hinit
      split_ifs at hinit with hnone
      refine Or.inr ⟨?_, if_pos hnone⟩
      simp only [fillNext, pointstoInit_eq, if_pos hnone]
  -- behind the last table the frame of the type exits
  have hvirt : Comes w deep soTi ⟨.type ti 3 :: stk, h⟩ (.type ti 4 :: stk) (.type ti 4 :: stk)
      (sweepAll (sweep (w.batches deep) (codes soTi) n) ((w.virt ti).map Virt.batch) h) := by
    refine Comes.head (Steps.single rfl) (comes_table rfl (fun vt _ rest => Or.inl ⟨_, rfl, ?_⟩)
      fun vt hvt => hnode' _ (Or.inr (Or.inr (Or.inr ⟨vt, hvt, rfl⟩))))
    exact yields_of_virt ti vt
  exact hvirt.tail fun h => Steps.single rfl

theorem sweepsNode {c : T} (hn : Within (w.children deep) n c) : SweepsNode w deep soTi n c := by
  induction n generalizing c with
  | zero => exact hn.elim
  | succ n ih =>
    intro below stack h
    rw [create, sweep]
    by_cases hdone : codes soTi h c = .stop ∨ codes soTi h c = .leave
    · rw [if_pos ((isRetDone_iff _).mpr hdone), if_pos hdone]
      exact ⟨fun hk => (by cases hk), fun _ => Steps.refl _, fun _ hl => (by cases hl)⟩
    · rw [if_neg (mt (isRetDone_iff _).mp hdone), if_neg hdone]
      have htype : Comes w deep soTi ⟨.type c 0 :: stack, h ++ [c]⟩ stack stack _ :=
        comes_type fun c' hc' => ih (hn c' hc')
      exact ⟨htype.kept, fun hl => absurd hl (sweepAll_ne_left _ _), htype.lost⟩

/-! ## Runs of a scan -/

theorem prefix_step (hs : step w deep soTi st = some (.inl st')) : st.visits <+: st'.visits := by
  unfold step at hs
  cases hstack : st.stack with
  | nil => simp [hstack] at hs
  | cons top stack =>
    simp only [hstack] at hs
    cases hfill : fillNext w deep top with
    | push src new =>
      simp only [hfill, Option.some.injEq, Sum.inl.injEq] at hs
      exact hs ▸ List.prefix_rfl
    | create src ti =>
      simp only [hfill, Option.some.injEq, Sum.inl.injEq, create] at hs
      rw [← hs]
      split_ifs
      · exact List.prefix_append _ _
      · exact List.prefix_append _ _
    | again src =>
      simp only [hfill, Option.some.injEq, Sum.inl.injEq] at hs
      exact hs ▸ List.prefix_rfl
    | exit =>
      simp only [hfill, Option.some.injEq, Sum.inl.injEq] at hs
      exact hs ▸ List.prefix_rfl

theorem visits_of_returns {L : List T} (hs : step w deep soTi st = some (.inr L)) : st.visits = L := by
  unfold step at hs
  cases hstack : st.stack with
  | nil =>
    simp only [hstack, Option.some.injEq, Sum.inr.injEq] at hs
    exact hs
  | cons top stack =>
    simp only [hstack] at hs
    cases hfill : fillNext w deep top <;> simp [hfill] at hs

/-- What was visited is visited in all. -/
theorem prefix_run {k : ℕ} {L : List T} (hr : run (step w deep soTi) k st = some L) :
    st.visits <+: L := by
  induction k generalizing st with
  | zero => cases hr
  | succ k ih =>
    obtain ⟨k', hk, hret | ⟨st', hs, hrest⟩⟩ := exists_step hr
    · exact visits_of_returns hret ▸ List.prefix_rfl
    · cases hk
      exact (prefix_step hs).trans (ih hrest)

/-- A run that gets lost in a frame and returns visits one of the frame's instances next. -/
theorem Wanders.exists_next {wild : Set T} {fr : Frame T} (hw : Wanders w deep wild fr) {k : ℕ}
    {L : List T} (hr : run (step w deep soTi) k ⟨fr :: stk, h⟩ = some L) :
    ∃ y ∈ wild, h ++ [y] <+: L := by
  obtain ⟨P, hP, hround⟩ := hw
  induction k generalizing fr with
  | zero => cases hr
  | succ k ih =>
    rcases hround fr hP with ⟨fr', hfill, hP'⟩ | ⟨fr', c, hfill, -, hc⟩
    · have hs : step w deep soTi ⟨fr :: stk, h⟩ = some (.inl ⟨fr' :: stk, h⟩) := by
        simp only [step, hfill]
      rw [run_inl hs] at hr
      exact ih hr hP'
    · have hs : step w deep soTi ⟨fr :: stk, h⟩ =
          some (.inl (create soTi stk (fr' :: stk) h c)) := by
        simp only [step, hfill]
      have hvisits : (create soTi stk (fr' :: stk) h c).visits = h ++ [c] := by
        unfold create
        split_ifs <;> rfl
      rw [run_inl hs] at hr
      exact ⟨c, hc, hvisits ▸ prefix_run hr⟩

theorem run_nil (L : List T) : run (step w deep soTi) 1 ⟨[], L⟩ = some L := rfl

/-- The scan from an instance, and the sweep of its tree. -/
theorem ends_of_scans {root : T} (hn : Within (w.children deep) n root) {L : List T}
    (hs : Scans w deep soTi root L) :
    Ends L (sweep (w.batches deep) (codes soTi) n root []) ∧
      ((∀ wild, (sweep (w.batches deep) (codes soTi) n root []).2 ≠ .lost wild) →
        (sweep (w.batches deep) (codes soTi) n root []).1 = L) := by
  obtain ⟨k, hr⟩ := hs
  have hself : SweepsNode w deep soTi n root := sweepsNode hn
  have hc := hself [] [] []
  have hwhole : (∀ wild, (sweep (w.batches deep) (codes soTi) n root []).2 ≠ .lost wild) →
      (sweep (w.batches deep) (codes soTi) n root []).1 = L := by
    intro hl
    obtain ⟨k', -, hrest⟩ := (hc.steps hl).run_rest hr
    exact run_unique (run_nil _) hrest
  refine ⟨⟨?_, fun wild hl => ?_⟩, hwhole⟩
  · by_cases hl : ∃ wild, (sweep (w.batches deep) (codes soTi) n root []).2 = .lost wild
    · obtain ⟨wild, hl⟩ := hl
      obtain ⟨fr, stk, -, hsteps⟩ := hc.lost wild hl
      obtain ⟨k', -, hrest⟩ := hsteps.run_rest hr
      exact prefix_run hrest
    · exact hwhole (not_exists.mp hl) ▸ List.prefix_rfl
  · obtain ⟨fr, stk, hw, hsteps⟩ := hc.lost wild hl
    obtain ⟨k', -, hrest⟩ := hsteps.run_rest hr
    exact hw.exists_next hrest

end Machine

/-! ## How instances are reached -/

/-- What a field reaches with an index. -/
def Field.reach (tf : Field T) (i : UInt64) : Set T := {c | ∃ off, tf.follow off i = some c}

/-- What a range reaches with an index. -/
def Points.reach (pt : Points T) (i : UInt64) : Set T := {c | pt.follow i = some c}

/-- What a virtual type reaches with an index. -/
def Virt.reach (vt : Virt T) (i : UInt64) : Set T :=
  {c | ∃ j : UInt32, j.toUInt64 = i ∧ ∃ err, vt.follow j = (some c, err)}

/-- The entries of an instance's tables. -/
def Types.entries (w : Types T) (ti : T) : List (UInt64 → Set T) :=
  (w.fieldstrong ti).map Field.reach ++ ((present (w.fieldtypes ti)).map Field.reach ++
    ((w.pointsto ti).map Points.reach ++ (w.virt ti).map Virt.reach))

/-- A type info knows its depth (`ti_depth`), and it is allocated for one entry (`ti_field`, `ti_points`,
`ti_virt`) and one index. -/
structure Reached (w : Types T) (depth : T → ℕ) : Prop where
  depth_eq : ∀ ti, ∀ e ∈ w.entries ti, ∀ i, ∀ c ∈ e i, depth c = depth ti + 1
  entry : ∀ ti, (w.entries ti).Pairwise fun e e' => ∀ i i' c, c ∈ e i → c ∉ e' i'
  index : ∀ ti, ∀ e ∈ w.entries ti, ∀ i i' c, c ∈ e i → c ∈ e i' → i = i'

/-- A batch has what an entry reaches; a scan counts up to `2 ^ 32`, and starts again. -/
structure Of (b : Batch T) (e : UInt64 → Set T) : Prop where
  has : ∀ x, b.Has x → ∃ i, x ∈ e i
  late : ∀ x ∈ b.late, ∀ wild, b.wild = some wild → ∃ i, 2 ^ 32 ≤ i.toNat ∧ x ∈ e i
  wild : ∀ wild, b.wild = some wild → ∀ x ∈ wild, ∃ i, i.toNat < 2 ^ 32 ∧ x ∈ e i

theorem of_bare {els : List T} {e : UInt64 → Set T} (he : ∀ x ∈ els, ∃ i, x ∈ e i) :
    Of ⟨[], els, none⟩ e where
  has x hx := by
    rcases hx with hx | hx | ⟨wild, hw, -⟩
    · exact absurd hx List.not_mem_nil
    · exact he x hx
    · cases hw
  late x _ wild hw := by cases hw
  wild wild hw := by cases hw

theorem mem_fieldElems {tf : Field T} {count : ℕ} {off : UInt64} {idx : ℕ} {c : T}
    (hc : c ∈ fieldElems w tf count off idx) :
    ∃ i, idx ≤ i ∧ i < idx + count ∧ c ∈ tf.reach (UInt64.ofNat i) := by
  induction count generalizing off idx with
  | zero => exact absurd hc List.not_mem_nil
  | succ count ih =>
    have hrest : ∀ off, c ∈ fieldElems w tf count off (idx + 1) →
        ∃ i, idx ≤ i ∧ i < idx + (count + 1) ∧ c ∈ tf.reach (UInt64.ofNat i) := by
      intro off hm
      obtain ⟨i, hle, hlt, hreach⟩ := ih hm
      exact ⟨i, by omega, by omega, hreach⟩
    rw [fieldElems] at hc
    cases hnew : tf.follow off (UInt64.ofNat idx) with
    | none =>
      rw [hnew] at hc
      exact hrest _ hc
    | some new =>
      rw [hnew] at hc
      rcases List.mem_cons.mp hc with rfl | hc
      · exact ⟨idx, le_rfl, by omega, off, hnew⟩
      · exact hrest _ hc

theorem mem_virtElems {vt : Virt T} {count idx : ℕ} {c : T} (hc : c ∈ virtElems vt count idx) :
    ∃ i, c ∈ vt.reach i := by
  induction count generalizing idx with
  | zero => exact absurd hc List.not_mem_nil
  | succ count ih =>
    rw [virtElems] at hc
    cases hr : vt.follow (UInt32.ofNat idx) with
    | mk new err =>
      rw [hr] at hc
      cases new with
      | none =>
        dsimp only at hc
        split_ifs at hc
        · exact ih hc
        · exact absurd hc List.not_mem_nil
      | some new =>
        rcases List.mem_cons.mp hc with rfl | hc
        · exact ⟨_, UInt32.ofNat idx, rfl, err, hr⟩
        · exact ih hc

theorem toNat_lt_of_idx (idx : UInt32) : idx.toUInt64.toNat < 2 ^ 32 := by
  rw [UInt32.toNat_toUInt64]
  exact idx.toNat_lt

theorem of_field (tf : Field T) : Of (tf.batch w deep) tf.reach := by
  cases hf : tf.followed deep with
  | false =>
    rw [batch_of_not_followed hf]
    exact of_bare fun x hx => absurd hx List.not_mem_nil
  | true =>
    have hlate : ∀ x ∈ (tf.batch w deep).late, ∃ i, 2 ^ 32 ≤ i.toNat ∧ x ∈ tf.reach i := by
      intro x hx
      rw [Field.batch, if_pos hf] at hx
      dsimp only at hx
      obtain ⟨i, hle, hlt, hreach⟩ := mem_fieldElems hx
      have hbound := tf.elemcount.toNat_lt
      refine ⟨UInt64.ofNat i, ?_, hreach⟩
      rw [UInt64.toNat_ofNat', Nat.mod_eq_of_lt (by omega)]
      exact hle
    have hwild : ∀ wild, (tf.batch w deep).wild = some wild →
        ∀ x ∈ wild, ∃ i, i.toNat < 2 ^ 32 ∧ x ∈ tf.reach i := by
      intro wild hw x hx
      rw [Field.batch, if_pos hf] at hw
      dsimp only at hw
      split_ifs at hw
      cases hw
      obtain ⟨off, i, hi⟩ := hx
      exact ⟨i.toUInt64, toNat_lt_of_idx i, off, hi⟩
    refine ⟨fun x hx => ?_, fun x hx _ _ => hlate x hx, hwild⟩
    rcases hx with hx | hx | ⟨wild, hw, hx⟩
    · rw [Field.batch, if_pos hf] at hx
      obtain ⟨i, -, -, hreach⟩ := mem_fieldElems hx
      exact ⟨_, hreach⟩
    · exact (hlate x hx).imp fun i hi => hi.2
    · exact (hwild wild hw x hx).imp fun i hi => hi.2

theorem mem_range_filterMap {pt : Points T} {a n : ℕ} {x : T}
    (hx : x ∈ (List.range' a n).filterMap fun i => pt.follow (UInt64.ofNat i)) :
    ∃ i, a ≤ i ∧ i < a + n ∧ x ∈ pt.reach (UInt64.ofNat i) := by
  obtain ⟨i, hi, hfollow⟩ := List.mem_filterMap.mp hx
  obtain ⟨hle, hlt⟩ := List.mem_range'_1.mp hi
  exact ⟨i, hle, hlt, hfollow⟩

theorem of_pointsto (pt : Points T) : Of pt.batch pt.reach := by
  by_cases hnone : pt.itMin = -1 ∨ pt.itMax < pt.itMin
  · rw [Points.batch, if_pos hnone]
    exact of_bare fun x hx => absurd hx List.not_mem_nil
  · have hlate : ∀ x ∈ pt.batch.late, ∃ i, 2 ^ 32 ≤ i.toNat ∧ x ∈ pt.reach i := by
      intro x hx
      rw [Points.batch, if_neg hnone] at hx
      obtain ⟨i, hle, hlt, hreach⟩ := mem_range_filterMap hx
      have hbound := pt.itMax.toNat_lt
      refine ⟨UInt64.ofNat i, ?_, hreach⟩
      rw [UInt64.toNat_ofNat', Nat.mod_eq_of_lt (by omega)]
      exact (Nat.le_max_right _ _).trans hle
    have hwild : ∀ wild, pt.batch.wild = some wild →
        ∀ x ∈ wild, ∃ i, i.toNat < 2 ^ 32 ∧ x ∈ pt.reach i := by
      intro wild hw x hx
      rw [Points.batch, if_neg hnone] at hw
      dsimp only at hw
      split_ifs at hw
      cases hw
      obtain ⟨i, hi⟩ := hx
      exact ⟨i.toUInt64, toNat_lt_of_idx i, hi⟩
    refine ⟨fun x hx => ?_, fun x hx _ _ => hlate x hx, hwild⟩
    rcases hx with hx | hx | ⟨wild, hw, hx⟩
    · rw [Points.batch, if_neg hnone] at hx
      obtain ⟨i, -, -, hreach⟩ := mem_range_filterMap hx
      exact ⟨_, hreach⟩
    · exact (hlate x hx).imp fun i hi => hi.2
    · exact (hwild wild hw x hx).imp fun i hi => hi.2

theorem of_virt (vt : Virt T) : Of vt.batch vt.reach := by
  have hwild : ∀ wild, vt.batch.wild = some wild →
      ∀ x ∈ wild, ∃ i, i.toNat < 2 ^ 32 ∧ x ∈ vt.reach i := by
    intro wild hw x hx
    by_cases hend : ∃ m, m < 2 ^ 32 ∧ ends (vt.follow (UInt32.ofNat m)) = true
    · simp only [Virt.batch, if_pos hend] at hw
      cases hw
    · simp only [Virt.batch, if_neg hend] at hw
      cases hw
      obtain ⟨i, err, hi⟩ := hx
      exact ⟨i.toUInt64, toNat_lt_of_idx i, i, rfl, err, hi⟩
  have hlate : vt.batch.late = [] := by simp only [Virt.batch]
  have hearly : vt.batch.early = virtElems vt (2 ^ 32) 0 := by simp only [Virt.batch, Virt.elems]
  refine ⟨fun x hx => ?_, fun x hx => absurd (hlate ▸ hx) List.not_mem_nil, hwild⟩
  rcases hx with hx | hx | ⟨wild, hw, hx⟩
  · exact mem_virtElems (hearly ▸ hx)
  · exact absurd (hlate ▸ hx) List.not_mem_nil
  · exact (hwild wild hw x hx).imp fun i hi => hi.2

/-- Each batch is that of an entry. -/
theorem of_batches (ti : T) : List.Forall₂ Of (w.batches deep ti) (w.entries ti) := by
  have hmap : ∀ {α : Type} {f : α → Batch T} {g : α → UInt64 → Set T} (l : List α),
      (∀ a ∈ l, Of (f a) (g a)) → List.Forall₂ Of (l.map f) (l.map g) := by
    intro α f g l hl
    rw [List.forall₂_map_left_iff, List.forall₂_map_right_iff, List.forall₂_same]
    exact hl
  refine List.rel_append (hmap _ fun tf _ => of_field tf) (List.rel_append ?_
    (List.rel_append (hmap _ fun pt _ => of_pointsto pt) (hmap _ fun vt _ => of_virt vt)))
  have hsplit : (present (w.fieldtypes ti)).map Field.reach =
      ((present (w.fieldtypes ti)).takeWhile (Field.followed deep)).map Field.reach ++
        ((present (w.fieldtypes ti)).dropWhile (Field.followed deep)).map Field.reach := by
    rw [← List.map_append, List.takeWhile_append_dropWhile]
  rw [condBatches, hsplit]
  refine List.rel_append (hmap _ fun tf _ => of_field tf) (hmap _ fun tf _ => of_bare fun x hx => ?_)
  rw [Field.elems] at hx
  split_ifs at hx
  · obtain ⟨i, -, -, hreach⟩ := mem_fieldElems hx
    exact ⟨_, hreach⟩
  · exact absurd hx List.not_mem_nil

/-- Instances that are told apart by how they were reached label the batches. -/
theorem labelled_batches {depth : T → ℕ} (hr : Reached w depth) :
    Labelled (w.batches deep) depth := by
  have hboth : ∀ ti, List.Forall₂ Of (w.batches deep ti) (w.entries ti) := of_batches
  have hentry : ∀ ti, ∀ b ∈ w.batches deep ti, ∃ e ∈ w.entries ti, Of b e := by
    intro ti b hb
    obtain ⟨i, rfl⟩ := List.mem_iff_get.mp hb
    obtain ⟨hlen, hget⟩ := List.forall₂_iff_get.mp (hboth ti)
    have hlt : i.val < (w.entries ti).length := hlen ▸ i.isLt
    exact ⟨_, List.get_mem _ ⟨i.val, hlt⟩, hget i.val i.isLt hlt⟩
  refine ⟨fun ti b hb x hx => ?_, fun ti => ?_, fun ti b hb x hx wild hw hwild => ?_⟩
  · obtain ⟨e, he, hof⟩ := hentry ti b hb
    obtain ⟨i, hi⟩ := hof.has x hx
    exact hr.depth_eq ti e he i x hi
  · obtain ⟨hlen, hget⟩ := List.forall₂_iff_get.mp (hboth ti)
    rw [List.pairwise_iff_get]
    intro i j hij x hx hx'
    have hlt : ∀ k : Fin (w.batches deep ti).length, k.val < (w.entries ti).length := fun k =>
      hlen ▸ k.isLt
    obtain ⟨k, hk⟩ := (hget i.val i.isLt (hlt i)).has x hx
    obtain ⟨k', hk'⟩ := (hget j.val j.isLt (hlt j)).has x hx'
    exact List.pairwise_iff_get.mp (hr.entry ti) ⟨i.val, hlt i⟩ ⟨j.val, hlt j⟩ hij k k' x hk hk'
  · obtain ⟨e, he, hof⟩ := hentry ti b hb
    obtain ⟨i, hle, hi⟩ := hof.late x hx wild hw
    obtain ⟨i', hlt, hi'⟩ := hof.wild wild hw x hwild
    rw [hr.index ti e he i i' x hi hi'] at hle
    omega


/-! ## A scan is a traversal -/

variable {n : ℕ} {root : T}

/-- A scan calls `so_ti` on what the recursive traversal visits, in its order, if and only if nothing that
the scan finds is left out: `SCAN_RET_SKIP` is said where there are no children, behind
`SCAN_RET_EXIT_TYPE` the later entries of the parent have none, behind `SCAN_RET_TERMINATE` there is
nothing left, and every entry that the traversal goes through to the end has been seen whole. -/
theorem scans_traverse_iff {depth : T → ℕ} (hr : Reached w depth)
    (hn : Within (w.children deep) n root) :
    Scans w deep soTi root (traverse w deep soTi n root) ↔
      Fine (w.batches deep) (codes soTi) n root [] False False False := by
  have hkids : Preorder.children (w.batches deep) = w.children deep := children_batches
  constructor
  · intro hs
    obtain ⟨hends, hwhole⟩ := ends_of_scans hn hs
    rw [traverse, ← hkids] at hends hwhole
    rw [← hkids] at hn
    exact fine_of_ends (labelled_batches hr) hn hends hwhole
  · intro hfine
    have hagree := agrees_of_fine hfine
    rw [hkids] at hagree
    have hself : SweepsNode w deep soTi n root := sweepsNode hn
    have hl : ∀ wild, (sweep (w.batches deep) (codes soTi) n root []).2 ≠ .lost wild := by
      intro wild hlost
      cases hcode : (visit (w.children deep) (codes soTi) n root []).2 with
      | go => simp [hagree.go hcode] at hlost
      | skip => exact hagree.not_skip hcode
      | leave => simp [(hagree.leave hcode).1] at hlost
      | stop => rcases (hagree.stop hcode).1 with hm | ⟨hm, -⟩ <;> simp [hm] at hlost
    have hsteps := (hself [] [] []).steps hl
    rw [hagree.visited] at hsteps
    exact hsteps.exists_run (run_nil _)

/-- A step leaves what is below the top of the stack where no instance is cut. -/
theorem step_append {top : Frame T} {above stk : List (Frame T)} {h : List T} :
    ∃ above' h', step w deep (fun _ _ => 0) ⟨top :: above ++ stk, h⟩ =
      some (.inl ⟨above' ++ stk, h'⟩) := by
  cases hfill : fillNext w deep top with
  | push src new => exact ⟨new :: src :: above, h, by simp [step, hfill]⟩
  | create src c => exact ⟨.type c 0 :: src :: above, h ++ [c], by simp [step, hfill, create, isRetDone]⟩
  | again src => exact ⟨src :: above, h, by simp [step, hfill]⟩
  | exit => exact ⟨above, h, by simp [step, hfill]⟩

/-- A frame that never comes to an end stays on the stack where no instance is cut. -/
theorem Wanders.run_eq_none {wild : Set T} {fr : Frame T} (hw : Wanders w deep wild fr) (k : ℕ)
    (above stk : List (Frame T)) (h : List T) :
    run (step w deep fun _ _ => 0) k ⟨above ++ fr :: stk, h⟩ = none := by
  obtain ⟨P, hP, hround⟩ := hw
  induction k generalizing fr above h with
  | zero => rfl
  | succ k ih =>
    cases above with
    | nil =>
      rcases hround fr hP with ⟨fr', hfill, hP'⟩ | ⟨fr', c, hfill, hP', -⟩
      · have hs : step w deep (fun _ _ => 0) ⟨[] ++ fr :: stk, h⟩ =
            some (.inl ⟨[] ++ fr' :: stk, h⟩) := by
          simp [step, hfill]
        rw [run_inl hs]
        exact ih [] h hP'
      · have hs : step w deep (fun _ _ => 0) ⟨[] ++ fr :: stk, h⟩ =
            some (.inl ⟨[.type c 0] ++ fr' :: stk, h ++ [c]⟩) := by
          simp [step, hfill, create, isRetDone]
        rw [run_inl hs]
        exact ih [.type c 0] (h ++ [c]) hP'
    | cons top above =>
      obtain ⟨above', h', hs⟩ := step_append
      rw [run_inl hs]
      exact ih above' h' hP

/-- What a scan goes through of an instance's tables can be counted with 32 bits. -/
structure Counted (w : Types T) (deep : Bool) (ti : T) : Prop where
  fieldstrong : ∀ tf ∈ w.fieldstrong ti, tf.followed deep = true → tf.elemcount.toNat < 2 ^ 32
  cond : ∀ tf ∈ (present (w.fieldtypes ti)).takeWhile (Field.followed deep),
    tf.elemcount.toNat < 2 ^ 32
  pointsto : ∀ pt ∈ w.pointsto ti, pt.itMin ≠ -1 → pt.itMin ≤ pt.itMax → pt.itMax.toNat + 1 < 2 ^ 32
  virt : ∀ vt ∈ w.virt ti, ∃ m, m < 2 ^ 32 ∧ ends (vt.follow (UInt32.ofNat m)) = true

theorem wild_field_iff {tf : Field T} :
    (tf.batch w deep).wild = none ↔ (tf.followed deep = true → tf.elemcount.toNat < 2 ^ 32) := by
  unfold Field.batch
  by_cases hf : tf.followed deep = true
  · by_cases hcount : tf.elemcount.toNat < 2 ^ 32
    · refine iff_of_true ?_ fun _ => hcount
      simp only [if_pos hf, if_pos hcount]
    · refine iff_of_false ?_ fun hc => hcount (hc hf)
      simp only [if_pos hf, if_neg hcount, reduceCtorEq, not_false_eq_true]
  · refine iff_of_true ?_ fun hf' => absurd hf' hf
    simp only [if_neg hf]

theorem wild_pointsto_iff {pt : Points T} : pt.batch.wild = none ↔
    (pt.itMin ≠ -1 → pt.itMin ≤ pt.itMax → pt.itMax.toNat + 1 < 2 ^ 32) := by
  unfold Points.batch
  by_cases hnone : pt.itMin = -1 ∨ pt.itMax < pt.itMin
  · rw [if_pos hnone]
    exact iff_of_true rfl fun hmin hle => absurd hnone (not_or.mpr ⟨hmin, UInt64.not_lt.mpr hle⟩)
  · obtain ⟨hmin, hlt⟩ := not_or.mp hnone
    have hle := UInt64.not_lt.mp hlt
    by_cases hcount : pt.itMax.toNat + 1 < 2 ^ 32
    · refine iff_of_true ?_ fun _ _ => hcount
      simp only [if_neg hnone, if_pos hcount]
    · refine iff_of_false ?_ fun hc => hcount (hc hmin hle)
      simp only [if_neg hnone, if_neg hcount, reduceCtorEq, not_false_eq_true]

theorem wild_virt_iff {vt : Virt T} : vt.batch.wild = none ↔
    ∃ m, m < 2 ^ 32 ∧ ends (vt.follow (UInt32.ofNat m)) = true := by
  by_cases hend : ∃ m, m < 2 ^ 32 ∧ ends (vt.follow (UInt32.ofNat m)) = true
  · refine iff_of_true ?_ hend
    simp only [Virt.batch, if_pos hend]
  · refine iff_of_false ?_ hend
    simp only [Virt.batch, if_neg hend, reduceCtorEq, not_false_eq_true]

theorem wild_cond_iff {fs : List (Option Bool × Field T)} :
    (∀ b ∈ condBatches w deep fs, b.wild = none) ↔
      ∀ tf ∈ (present fs).takeWhile (Field.followed deep), tf.elemcount.toNat < 2 ^ 32 := by
  simp only [condBatches, List.forall_mem_append, List.forall_mem_map, wild_field_iff]
  constructor
  · exact fun hb tf htf => hb.1 tf htf (List.mem_takeWhile_imp htf)
  · exact fun hb => ⟨fun tf htf _ => hb tf htf, fun _ _ => trivial⟩

theorem counted_iff (ti : T) : Counted w deep ti ↔ ∀ b ∈ w.batches deep ti, b.wild = none := by
  simp only [Types.batches, List.forall_mem_append, List.forall_mem_map, wild_field_iff,
    wild_cond_iff, wild_pointsto_iff, wild_virt_iff]
  exact ⟨fun h => ⟨h.1, h.2, h.3, h.4⟩, fun h => ⟨h.1, h.2.1, h.2.2.1, h.2.2.2⟩⟩

/-- A scan returns whatever `so_ti` says if and only if the elements of every entry of every instance
that it sees can be counted with 32 bits. -/
theorem scans_iff_counted (hn : Within (w.children deep) n root) :
    (∀ soTi, ∃ visits, Scans w deep soTi root visits) ↔
      ∀ ti, Seen (w.batches deep) root ti → Counted w deep ti := by
  simp only [counted_iff]
  have hkids : Preorder.children (w.batches deep) = w.children deep := children_batches
  constructor
  · intro hret ti hs
    refine whole_of_sweep (h := []) (hkids ▸ hn) (fun wild hl => ?_) hs
    obtain ⟨visits, k, hr⟩ := hret fun _ _ => 0
    have hself : SweepsNode w deep (fun _ _ => 0) n root := sweepsNode hn
    obtain ⟨fr, stk, hw, hsteps⟩ := (hself [] [] []).lost wild hl
    obtain ⟨k', -, hrest⟩ := hsteps.run_rest hr
    have hnone := hw.run_eq_none k' [] stk
    rw [List.nil_append] at hnone
    rw [hnone] at hrest
    cases hrest
  · intro hcount soTi
    have hself : SweepsNode w deep soTi n root := sweepsNode hn
    have hsteps := (hself [] [] []).steps (sweep_ne_lost hcount [])
    exact ⟨_, hsteps.exists_run (run_nil _)⟩

/-! ## A small tree -/

/-- An instance with a field of two elements, the first of which points to a third instance. -/
def small : Types ℕ where
  fieldstrong ti := if ti = 0 then
    [⟨true, false, 0, 2, 8, fun _ i => if i = 0 then some 1 else if i = 1 then some 2 else none⟩]
    else []
  fieldtypes _ := []
  pointsto ti := if ti = 1 then [⟨0, 0, fun i => if i = 0 then some 3 else none⟩] else []
  virt _ := []
  size _ := 8

theorem small_within : Within (small.children false) 3 0 := by
  have hzero : small.children false 0 = [1, 2] := by decide +kernel
  have hone : small.children false 1 = [3] := by decide +kernel
  have htwo : small.children false 2 = [] := by decide +kernel
  have hthree : small.children false 3 = [] := by decide +kernel
  simp [Within, hzero, hone, htwo, hthree]

theorem small_reached : Reached small fun ti => if ti = 0 then 0 else if ti = 3 then 2 else 1 where
  depth_eq ti e he i c hc := by
    simp only [Types.entries, small, present, List.filterMap_nil, List.map_nil, List.nil_append,
      List.append_nil] at he
    split_ifs at he <;> simp_all [Field.reach, Points.reach]
    all_goals grind
  entry ti := by
    simp only [Types.entries, small, present, List.filterMap_nil, List.map_nil, List.nil_append,
      List.append_nil]
    split_ifs <;> simp_all
  index ti e he i i' c hc hc' := by
    simp only [Types.entries, small, present, List.filterMap_nil, List.map_nil, List.nil_append,
      List.append_nil] at he
    split_ifs at he <;> simp_all [Field.reach, Points.reach]
    all_goals grind

theorem scans_traverse_iff_small :
    Scans small false (fun _ ti => if ti = 2 then 3 else 0) 0
        (traverse small false (fun _ ti => if ti = 2 then 3 else 0) 3 0) ↔
      Fine (small.batches false) (codes fun _ ti => if ti = 2 then 3 else 0) 3 0 [] False False
        False :=
  scans_traverse_iff small_reached small_within

theorem scans_iff_counted_small :
    (∀ soTi, ∃ visits, Scans small false soTi 0 visits) ↔
      ∀ ti, Seen (small.batches false) 0 ti → Counted small false ti :=
  scans_iff_counted small_within

end Fsl.ScanType
