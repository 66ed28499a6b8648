import Fsl.Runtime.Choice

/-!
# The defragmentation tool

`tool/defragtool.c` relocates each file whose blocks are not in a row to as many free choices in a row.
It keeps the choices and a cursor into them from one file to the next.
-/

namespace Fsl.Defrag

open FirstFit Bitmap

/-- How a call stops early: at an assertion of the choices, at one that an instance is there, or where
the behaviour is undefined. -/
inductive Halt
  | choice
  | missing
  | fault
  deriving DecidableEq

/-- A step on the choices. -/
def onChoices {α : Type} : Except Stop α → Except Halt α
  | .ok a => .ok a
  | .error .assertion => .error .choice
  | .error .fault => .error .fault

@[simp] theorem onChoices_ok {α : Type} (a : α) : onChoices (.ok a) = .ok a := rfl

/-- What the tool knows of a file in world `w`: the bounds of its selection, the place and size of each
instance of it, where there is one, and `wpkt_relocate`, which has a value where it returns. -/
structure File (W : Type) where
  selMin : W → UInt64
  selMax : W → UInt64
  follow : W → UInt64 → Option (UInt64 × UInt64)
  relocate : W → UInt32 → UInt32 → Option W

/-- The choices that are loaded for the first file. -/
structure Choices where
  choiceMin : UInt64
  choiceMax : UInt64
  ccond : UInt64 → Bool
  mem : ℕ → UInt8

/-- The variables of the file, the cursor as an `int`, and the world. -/
structure State (W : Type) where
  world : W
  ccache : Option ChoiceCache
  ccacheCursor : ℤ

/-- A call of `wpkt_relocate`. -/
structure Move where
  sel : UInt32
  choice : UInt32

variable {W : Type}

/-- The loop of `is_fragmented` over the `n` instances that are left. -/
def fragLoop (f : File W) (w : W) : ℕ → ℤ → UInt64 × UInt64 → Except Halt Bool
  | 0, _, _ => return false
  | n + 1, cur, last =>
    match f.follow w (UInt64.ofInt cur) with
    | none => throw .missing
    | some here =>
      if here.1 ≠ last.1 + last.2 then return true
      else do fragLoop f w n (← onChoices (addInt cur 1)) here

/-- `is_fragmented` -/
def isFragmented (f : File W) (w : W) (selMin selMax : ℤ) : Except Halt Bool :=
  if selMax ≤ selMin then return false
  else
    match f.follow w (UInt64.ofInt selMin) with
    | none => throw .missing
    | some first => fragLoop f w (selMax - selMin).toNat (selMin + 1) first

/-- The start of `do_defrag`, where `NULL` is dereferenced. -/
def load (ch : Choices) (turns : ℕ) (s : State W) : Except Halt (Option (ChoiceCache × ℤ)) :=
  match s.ccache with
  | some cc => return some (cc, s.ccacheCursor)
  | none => do
    match ← onChoices (ChoiceCache.choiceAlloc turns ch.mem ch.ccond ch.choiceMin ch.choiceMax) with
    | none => return none
    | some none => throw .fault
    | some (some cc) => return some (cc, toInt cc.min)

/-- The two searches, with what they found and where the cursor is then. -/
def findRun (turns : ℕ) (cc : ChoiceCache) (cursor : ℤ) (selCount : UInt32) :
    Except Halt (Option (ℤ × ℤ)) := do
  match ← onChoices (cc.choiceFindAvail turns (UInt32.ofInt cursor) selCount) with
  | none => return none
  | some ccBegin =>
    if ccBegin = -1 then do
      let cursor := toInt cc.min
      match ← onChoices (cc.choiceFindAvail turns (UInt32.ofInt cursor) selCount) with
      | none => return none
      | some ccBegin => return some (ccBegin, cursor)
    else return some (ccBegin, cursor)

/-- The loop that relocates the `n` instances that are left, with the calls that it makes. -/
def relocateLoop (f : File W) (selMin : UInt32) (ccBegin : ℤ) :
    ℕ → ℤ → W → ChoiceCache → Except Halt (List Move × W × ChoiceCache)
  | 0, _, w, cc => return ([], w, cc)
  | n + 1, i, w, cc =>
    match f.follow w (selMin + UInt32.ofInt i).toUInt64 with
    | none => throw .missing
    | some _ => do
      let c ← onChoices (addInt ccBegin i)
      let isFree ← onChoices (cc.choiceIsFree (UInt64.ofInt c))
      if isFree then
        match f.relocate w (selMin + UInt32.ofInt i) (UInt32.ofInt c) with
        | none => throw .missing
        | some w => do
          let cc ← onChoices (cc.choiceMarkAlloc (UInt64.ofInt c))
          let rest ← relocateLoop f selMin ccBegin n (i + 1) w cc
          return (⟨selMin + UInt32.ofInt i, UInt32.ofInt c⟩ :: rest.1, rest.2)
      else throw .choice

/-- The cursor after a file has been relocated. -/
def advance (cc : ChoiceCache) (cursor : ℤ) : ℤ :=
  if cc.max < UInt32.ofInt cursor then toInt cc.min else cursor

/-- `do_defrag` from the searches on. -/
def defragFrom (turns : ℕ) (f : File W) (w : W) (cc : ChoiceCache) (cursor : ℤ)
    (selMin selMax : UInt32) : Except Halt (Option (List Move × State W)) := do
  match ← findRun turns cc cursor (selMax - selMin + 1) with
  | none => return none
  | some (ccBegin, cursor) =>
    if ccBegin = -1 then return some ([], ⟨w, some cc, cursor⟩)
    else if !(← isFragmented f w (toInt selMin) (toInt selMax)) then
      return some ([], ⟨w, some cc, cursor⟩)
    else do
      let selCount := toInt (selMax - selMin + 1)
      let (moves, w, cc) ← relocateLoop f selMin ccBegin selCount.toNat 0 w cc
      let cursor ← onChoices (addInt cursor selCount)
      return some (moves, ⟨w, some cc, advance cc cursor⟩)

/-- There are at least two instances to be put in a row. -/
def Selects (selMin selMax : UInt32) : Prop :=
  selMin ≠ -1 ∧ selMin ≤ selMax ∧ selMax - selMin + 1 ≠ 1

instance (selMin selMax : UInt32) : Decidable (Selects selMin selMax) :=
  inferInstanceAs (Decidable (_ ∧ _))

/-- `do_defrag`, with the calls of `wpkt_relocate`. -/
def doDefrag (ch : Choices) (f : File W) (turns : ℕ) (s : State W) :
    Except Halt (Option (List Move × State W)) := do
  match ← load ch turns s with
  | none => return none
  | some (cc, cursor) =>
    let selMin := (f.selMin s.world).toUInt32
    let selMax := (f.selMax s.world).toUInt32
    if Selects selMin selMax then defragFrom turns f s.world cc cursor selMin selMax
    else return some ([], ⟨s.world, some cc, cursor⟩)

/-! ## The blocks of a file -/

section Blocks

variable {f : File W} {w w' : W}

/-- The instances `lo` to `hi` are in a row. -/
def Contiguous (f : File W) (w : W) (lo hi : ℕ) : Prop :=
  ∀ k, lo ≤ k → k < hi → ∃ a b, f.follow w (UInt64.ofNat k) = some a ∧
    f.follow w (UInt64.ofNat (k + 1)) = some b ∧ b.1 = a.1 + a.2

theorem ofInt_natCast (k : ℕ) : UInt64.ofInt (k : ℤ) = UInt64.ofNat k := by
  refine UInt64.toNat_inj.mp ?_
  rw [UInt64.ofInt, UInt64.toNat_ofNat', UInt64.toNat_ofNat']
  omega

theorem fragLoop_cases {n cur : ℕ} (hend : cur + n ≤ 2 ^ 31 - 1) (last : UInt64 × UInt64) :
    fragLoop f w n cur last = .error .missing ∨ ∃ b, fragLoop f w n cur last = .ok b := by
  induction n generalizing cur last with
  | zero => exact Or.inr ⟨false, rfl⟩
  | succ n ih =>
    unfold fragLoop
    cases f.follow w (UInt64.ofInt (cur : ℤ)) with
    | none => exact Or.inl rfl
    | some here =>
      dsimp only
      split_ifs
      · exact Or.inr ⟨true, rfl⟩
      · have hadd : addInt (cur : ℤ) 1 = .ok ((cur + 1 : ℕ) : ℤ) :=
          addInt_natCast (show cur + 1 < 2 ^ 31 by omega)
        rw [hadd]
        exact ih (by omega) here

theorem fragLoop_false {n p : ℕ} (hend : p + n < 2 ^ 31 - 1) {last : UInt64 × UInt64}
    (hlast : f.follow w (UInt64.ofNat p) = some last) (hrow : Contiguous f w p (p + n)) :
    fragLoop f w n ((p + 1 : ℕ) : ℤ) last = .ok false := by
  induction n generalizing p last with
  | zero => rfl
  | succ n ih =>
    obtain ⟨a, b, ha, hb, hnext⟩ := hrow p le_rfl (by omega)
    obtain rfl : a = last := Option.some.inj (ha.symm.trans hlast)
    have hadd : addInt ((p + 1 : ℕ) : ℤ) 1 = .ok ((p + 1 + 1 : ℕ) : ℤ) :=
      addInt_natCast (show p + 1 + 1 < 2 ^ 31 by omega)
    rw [fragLoop, ofInt_natCast, hb]
    dsimp only
    rw [if_neg (not_not.mpr hnext), hadd]
    exact ih (by omega) hb fun k hlo hhi => hrow k (by omega) (by omega)

variable {selMin selMax : UInt32}

/-- The bounds as `int`s are in order when they are below `2 ^ 31`. -/
theorem toInt_le_of_le (hmin : selMin.toNat < 2 ^ 31) (hmax : 2 ^ 31 ≤ selMax.toNat) :
    toInt selMax ≤ toInt selMin := by
  have hlow := toInt_of_lt hmin
  have hcases := toInt_cases selMax
  have hlt := selMax.toNat_lt
  omega

theorem isFragmented_cases (hmin : selMin.toNat < 2 ^ 31) (hmax : selMax.toNat ≠ 2 ^ 31 - 1) :
    isFragmented f w (toInt selMin) (toInt selMax) = .error .missing ∨
      ∃ b, isFragmented f w (toInt selMin) (toInt selMax) = .ok b := by
  unfold isFragmented
  split_ifs with hle
  · exact Or.inr ⟨false, rfl⟩
  · have hlow : selMax.toNat < 2 ^ 31 := by
      by_contra hge
      exact hle (toInt_le_of_le hmin (not_lt.mp hge))
    rw [toInt_of_lt hmin, toInt_of_lt hlow] at hle ⊢
    have hcur : (selMin.toNat : ℤ) + 1 = ((selMin.toNat + 1 : ℕ) : ℤ) := rfl
    cases f.follow w (UInt64.ofInt (selMin.toNat : ℤ)) with
    | none => exact Or.inl rfl
    | some first =>
      rw [hcur]
      exact fragLoop_cases (by omega) first

theorem isFragmented_false (hmin : selMin.toNat < 2 ^ 31) (hmax : selMax.toNat ≠ 2 ^ 31 - 1)
    (hrow : Contiguous f w selMin.toNat selMax.toNat) :
    isFragmented f w (toInt selMin) (toInt selMax) = .ok false := by
  unfold isFragmented
  split_ifs with hle
  · rfl
  · have hlow : selMax.toNat < 2 ^ 31 := by
      by_contra hge
      exact hle (toInt_le_of_le hmin (not_lt.mp hge))
    rw [toInt_of_lt hmin, toInt_of_lt hlow] at hle ⊢
    have hcur : (selMin.toNat : ℤ) + 1 = ((selMin.toNat + 1 : ℕ) : ℤ) := rfl
    have hturns : ((selMax.toNat : ℤ) - selMin.toNat).toNat = selMax.toNat - selMin.toNat := by omega
    obtain ⟨a, -, ha, -⟩ := hrow selMin.toNat le_rfl (by omega)
    rw [ofInt_natCast, ha, hcur, hturns]
    refine fragLoop_false (by omega) ha ?_
    rwa [Nat.add_sub_cancel' (by omega)]

/-! ### Moving them -/

/-- `wpkt_relocate` called one time after the other. -/
def moveAll (f : File W) : List Move → W → Option W
  | [], w => some w
  | m :: ms, w => (f.relocate w m.sel m.choice).bind (moveAll f ms)

/-- Each call moves its selection to its choice, and nothing else of the file. -/
def Moves (f : File W) (site : UInt32 → UInt64 × UInt64) : Prop :=
  ∀ w sel choice w', f.relocate w sel choice = some w' →
    f.follow w' sel.toUInt64 = some (site choice) ∧
    (∀ k, k ≠ sel.toUInt64 → f.follow w' k = f.follow w k) ∧
    f.selMin w' = f.selMin w ∧ f.selMax w' = f.selMax w

variable {site : UInt32 → UInt64 × UInt64}

theorem moveAll_other (hm : Moves f site) {ms : List Move} (h : moveAll f ms w = some w') :
    (∀ k, (∀ m ∈ ms, k ≠ m.sel.toUInt64) → f.follow w' k = f.follow w k) ∧
      f.selMin w' = f.selMin w ∧ f.selMax w' = f.selMax w := by
  induction ms generalizing w with
  | nil =>
    obtain rfl := Option.some.inj h
    exact ⟨fun _ _ => rfl, rfl, rfl⟩
  | cons m ms ih =>
    obtain ⟨w₁, hstep, hrest⟩ := Option.bind_eq_some_iff.mp h
    obtain ⟨-, hother, hmin, hmax⟩ := hm w m.sel m.choice w₁ hstep
    obtain ⟨hfollow, hmin', hmax'⟩ := ih hrest
    refine ⟨fun k hk => ?_, hmin'.trans hmin, hmax'.trans hmax⟩
    rw [hfollow k fun m' hm' => hk m' (List.mem_cons_of_mem _ hm'), hother k (hk m List.mem_cons_self)]

theorem moveAll_moved (hm : Moves f site) {ms : List Move}
    (hnodup : (ms.map fun m => m.sel).Nodup) (h : moveAll f ms w = some w') {m : Move} (hmem : m ∈ ms) :
    f.follow w' m.sel.toUInt64 = some (site m.choice) := by
  induction ms generalizing w with
  | nil => exact absurd hmem List.not_mem_nil
  | cons m₀ ms ih =>
    obtain ⟨w₁, hstep, hrest⟩ := Option.bind_eq_some_iff.mp h
    obtain ⟨hnot, hnodup'⟩ := List.nodup_cons.mp hnodup
    rcases List.mem_cons.mp hmem with rfl | hmem
    · rw [(moveAll_other hm hrest).1 _ fun m' hm' heq => ?_, (hm w m.sel m.choice w₁ hstep).1]
      have hsel : m.sel = m'.sel := UInt32.toNat_inj.mp (congrArg UInt64.toNat heq)
      exact hnot (List.mem_map.mpr ⟨m', hm', hsel.symm⟩)
    · exact ih hnodup' hrest hmem

end Blocks

/-! ## The searches -/

section Search

variable {cc : ChoiceCache} {lo hi cursor turns : ℕ} {free : ℕ → Bool} {selCount : UInt32}

/-- As many choices as a search asks for; one for none looks for one. -/
def need (selCount : UInt32) : ℕ := max 1 selCount.toNat

theorem search_cases (h : cc.Holds lo hi free) (hhi : hi < 2 ^ 31) (hlo : lo ≤ cursor)
    (hle : cursor ≤ hi) (hturns : hi + 2 ≤ turns) :
    (∃ c : ℕ, Least free (need selCount) cursor (hi + 1) c ∧
      cc.choiceFindAvail turns (UInt32.ofInt (cursor : ℤ)) selCount = .ok (some (c : ℤ))) ∨
    (∀ c, ¬ Fits free (need selCount) cursor (hi + 1) c) ∧
      cc.choiceFindAvail turns (UInt32.ofInt (cursor : ℤ)) selCount =
        if free hi = true ∨ hi - lo + 1 ≤ 2 ^ 31 - 8 then .ok (some (-1)) else .error .fault := by
  have hoff : (UInt32.ofInt (cursor : ℤ)).toNat = cursor := by
    rw [Bitmap.ofInt_natCast]
    exact UInt32.toNat_ofNat_of_lt' (show cursor < 2 ^ 32 by omega)
  have hfind : ∀ count : UInt32, 0 < count.toNat →
      (∃ c : ℕ, Least free count.toNat cursor (hi + 1) c ∧
        cc.choiceFindAvail turns (UInt32.ofInt (cursor : ℤ)) count = .ok (some (c : ℤ))) ∨
      (∀ c, ¬ Fits free count.toNat cursor (hi + 1) c) ∧
        cc.choiceFindAvail turns (UInt32.ofInt (cursor : ℤ)) count =
          if free hi = true ∨ hi - lo + 1 ≤ 2 ^ 31 - 8 then .ok (some (-1)) else .error .fault := by
    intro count hpos
    have hres := h.findAvail (UInt32.ofInt (cursor : ℤ)) count (by omega) (by omega) hpos hturns
    rw [hoff] at hres
    refine hres.imp_left fun ⟨c, hc, hfound⟩ => ⟨c, hc, ?_⟩
    have hend := hc.1.le
    have hnat : (UInt32.ofNat c).toNat = c := UInt32.toNat_ofNat_of_lt' (show c < 2 ^ 32 by omega)
    rw [hfound, toInt_of_lt (by omega), hnat]
  by_cases hzero : selCount = 0
  · have hone : need selCount = (1 : UInt32).toNat := by
      rw [hzero]
      rfl
    have hsame : cc.choiceFindAvail turns (UInt32.ofInt (cursor : ℤ)) selCount =
        cc.choiceFindAvail turns (UInt32.ofInt (cursor : ℤ)) 1 := by
      rw [hzero]
      exact h.findAvail_zero (by omega) (by omega)
    rw [hone, hsame]
    exact hfind 1 (by decide)
  · have hpos : 0 < selCount.toNat :=
      Nat.pos_of_ne_zero fun hnat => hzero (UInt32.toNat_inj.mp hnat)
    have hneed : need selCount = selCount.toNat := max_eq_right hpos
    rw [hneed]
    exact hfind selCount hpos

theorem search_least (h : cc.Holds lo hi free) (hhi : hi < 2 ^ 31) (hlo : lo ≤ cursor)
    (hle : cursor ≤ hi) (hturns : hi + 2 ≤ turns) {c : ℕ}
    (hc : Least free (need selCount) cursor (hi + 1) c) :
    cc.choiceFindAvail turns (UInt32.ofInt (cursor : ℤ)) selCount = .ok (some (c : ℤ)) := by
  rcases search_cases h hhi hlo hle hturns with ⟨c', hc', hres⟩ | ⟨hnone, -⟩
  · rw [hres, hc'.eq hc]
  · exact absurd hc.1 (hnone c)

theorem search_none (h : cc.Holds lo hi free) (hhi : hi < 2 ^ 31) (hlo : lo ≤ cursor)
    (hle : cursor ≤ hi) (hturns : hi + 2 ≤ turns)
    (hnone : ∀ c, ¬ Fits free (need selCount) cursor (hi + 1) c)
    (hlast : free hi = true ∨ hi - lo + 1 ≤ 2 ^ 31 - 8) :
    cc.choiceFindAvail turns (UInt32.ofInt (cursor : ℤ)) selCount = .ok (some (-1)) := by
  rcases search_cases h hhi hlo hle hturns with ⟨c', hc', -⟩ | ⟨-, hres⟩
  · exact absurd hc'.1 (hnone c')
  · rw [hres, if_pos hlast]

/-- The searches find free choices in a row, from the cursor or from the first choice on, or none. -/
theorem findRun_cases (h : cc.Holds lo hi free) (hhi : hi < 2 ^ 31) (hlo : lo ≤ cursor)
    (hle : cursor ≤ hi)
    (hok : hi - lo + 1 ≤ 2 ^ 31 - 8 ∨ free hi = true ∨
      ∃ c, Fits free (need selCount) cursor (hi + 1) c) :
    (∃ c p : ℕ, (p = cursor ∨ p = lo) ∧ Fits free (need selCount) p (hi + 1) c ∧
      ∀ turns, hi + 2 ≤ turns →
        findRun turns cc cursor selCount = .ok (some ((c : ℤ), (p : ℤ)))) ∨
    ∀ turns, hi + 2 ≤ turns → findRun turns cc cursor selCount = .ok (some (-1, (lo : ℤ))) := by
  have hmin : toInt cc.min = (lo : ℤ) := by
    rw [toInt_of_lt (by rw [h.min]; omega), h.min]
  have hpos : ∀ c : ℕ, (c : ℤ) ≠ -1 := fun c => by omega
  unfold findRun
  rw [hmin]
  by_cases hex : ∃ c, Fits free (need selCount) cursor (hi + 1) c
  · obtain ⟨c, hc, -⟩ := hex.choose_spec.exists_least
    refine Or.inl ⟨c, cursor, Or.inl rfl, hc.1, fun turns hturns => ?_⟩
    rw [search_least h hhi hlo hle hturns hc, onChoices_ok, ok_bind]
    dsimp only
    rw [if_neg (hpos c)]
    rfl
  · have hnone : ∀ c, ¬ Fits free (need selCount) cursor (hi + 1) c := not_exists.mp hex
    have hlast : free hi = true ∨ hi - lo + 1 ≤ 2 ^ 31 - 8 :=
      (or_assoc.mpr hok).elim Or.symm fun hfit => absurd hfit hex
    have hfirst : ∀ turns, hi + 2 ≤ turns →
        cc.choiceFindAvail turns (UInt32.ofInt (cursor : ℤ)) selCount = .ok (some (-1)) :=
      fun turns hturns => search_none h hhi hlo hle hturns hnone hlast
    by_cases hex' : ∃ c, Fits free (need selCount) lo (hi + 1) c
    · obtain ⟨c, hc, -⟩ := hex'.choose_spec.exists_least
      refine Or.inl ⟨c, lo, Or.inr rfl, hc.1, fun turns hturns => ?_⟩
      rw [hfirst turns hturns, onChoices_ok, ok_bind]
      dsimp only
      rw [if_pos rfl, search_least h hhi le_rfl h.le hturns hc, onChoices_ok, ok_bind]
      rfl
    · refine Or.inr fun turns hturns => ?_
      rw [hfirst turns hturns, onChoices_ok, ok_bind]
      dsimp only
      rw [if_pos rfl, search_none h hhi le_rfl h.le hturns (not_exists.mp hex') hlast, onChoices_ok,
        ok_bind]
      rfl

end Search

/-! ## Relocating a file -/

/-- The calls for the instances from the `i`th on, with the choices from `c + i` on. -/
def row (selMin : UInt32) (c i n : ℕ) : List Move :=
  (List.range' i n).map fun j => ⟨selMin + UInt32.ofNat j, UInt32.ofNat (c + j)⟩

section Relocate

variable {f : File W} {w : W} {cc : ChoiceCache} {lo hi c : ℕ} {free : ℕ → Bool} {selMin : UInt32}

/-- What is free when `n` choices from `c` on have been given away. -/
def without (free : ℕ → Bool) (c n x : ℕ) : Bool := free x && decide (¬ (c ≤ x ∧ x < c + n))

theorem without_zero (free : ℕ → Bool) (c : ℕ) : without free c 0 = free := by
  funext x
  rw [without, decide_eq_true (by omega), Bool.and_true]

theorem without_succ (free : ℕ → Bool) (c n : ℕ) :
    without (Function.update free c false) (c + 1) n = without free c (n + 1) := by
  funext x
  by_cases hx : x = c
  · have hin : ¬ ¬ (c ≤ c ∧ c < c + (n + 1)) := by omega
    rw [without, without, hx, Function.update_self, decide_eq_false hin, Bool.and_false, Bool.false_and]
  · rw [without, without, Function.update_of_ne hx]
    congr 1
    exact decide_eq_decide.mpr (by omega)

/-- The loop makes one call for each instance, or stops where an instance is missing. -/
theorem relocateLoop_cases (selMin : UInt32) {n i : ℕ} (h : cc.Holds lo hi free) (hhi : hi < 2 ^ 31) (hlo : lo ≤ c)
    (hend : c + i + n ≤ hi + 1) (hfree : ∀ j, j < n → free (c + i + j) = true) :
    relocateLoop f selMin c n i w cc = .error .missing ∨
    ∃ w' cc', relocateLoop f selMin c n i w cc = .ok (row selMin c i n, w', cc') ∧
      moveAll f (row selMin c i n) w = some w' ∧ cc'.Holds lo hi (without free (c + i) n) := by
  induction n generalizing i w cc free with
  | zero => exact Or.inr ⟨w, cc, rfl, rfl, (without_zero free (c + i)).symm ▸ h⟩
  | succ n ih =>
    have hadd : addInt (c : ℤ) (i : ℤ) = .ok ((c + i : ℕ) : ℤ) := addInt_natCast (by omega)
    have hword : (UInt64.ofNat (c + i)).toNat = c + i :=
      UInt64.toNat_ofNat_of_lt' (show c + i < 2 ^ 64 by omega)
    have hlen := h.bmp.lt
    have his := h.bits.isFree (c := UInt64.ofNat (c + i)) (by omega) (by omega)
    have hnow : free (c + i) = true := hfree 0 (Nat.succ_pos n)
    rw [hword, hnow] at his
    have hlow : lo ≤ (UInt64.ofNat (c + i)).toNat := by omega
    have hhigh : (UInt64.ofNat (c + i)).toNat ≤ hi := by omega
    obtain ⟨cc₁, hmark, hcc₁⟩ := h.bits.apply ⟨false, UInt64.ofNat (c + i)⟩ hlow hhigh
      (ChoiceCache.markable_of_lt hlen hlow hhigh)
    have halloc : cc.choiceMarkAlloc (UInt64.ofNat (c + i)) = .ok cc₁ := hmark
    have heffect : MarkOp.effect free ⟨false, UInt64.ofNat (c + i)⟩ =
        Function.update free (c + i) false := by
      rw [MarkOp.effect, hword]
    rw [heffect] at hcc₁
    unfold relocateLoop
    rw [Bitmap.ofInt_natCast, hadd]
    cases f.follow w (selMin + UInt32.ofNat i).toUInt64 with
    | none => exact Or.inl rfl
    | some here =>
      dsimp only
      rw [onChoices_ok, ok_bind, ofInt_natCast, his, onChoices_ok, ok_bind, if_pos rfl,
        Bitmap.ofInt_natCast]
      cases hstep : f.relocate w (selMin + UInt32.ofNat i) (UInt32.ofNat (c + i)) with
      | none => exact Or.inl rfl
      | some w₁ =>
        have hall : ∀ j, j < n → Function.update free (c + i) false (c + (i + 1) + j) = true :=
          fun j hj => by
            rw [Function.update_of_ne (by omega), show c + (i + 1) + j = c + i + (j + 1) by omega]
            exact hfree (j + 1) (by omega)
        have hcast : (i : ℤ) + 1 = ((i + 1 : ℕ) : ℤ) := rfl
        dsimp only
        rw [halloc, onChoices_ok, ok_bind, hcast]
        rcases ih (w := w₁) (i := i + 1) (hcc₁.holds hlen) (by omega) hall with
          hmissing | ⟨w', cc', hrun, hmoves, hcc'⟩
        · rw [hmissing]
          exact Or.inl rfl
        · have hrow : row selMin c i (n + 1) =
              ⟨selMin + UInt32.ofNat i, UInt32.ofNat (c + i)⟩ :: row selMin c (i + 1) n := rfl
          rw [hrun, hrow]
          refine Or.inr ⟨w', cc', rfl, ?_, ?_⟩
          · rw [moveAll, hstep]
            exact hmoves
          · rw [← without_succ]
            exact hcc'

variable {selMax : UInt32} {cursor : ℕ}

/-- The selection, when it comes to a search that finds choices for it: its bounds are `int`s, the last
one of which can still be counted over, and the cursor does not get to `2 ^ 31`. -/
structure Countable (free : ℕ → Bool) (lo hi cursor : ℕ) (selMin selMax : UInt32) : Prop where
  search : hi - lo + 1 ≤ 2 ^ 31 - 8 ∨ free hi = true ∨
    ∃ c, Fits free (need (selMax - selMin + 1)) cursor (hi + 1) c
  index : (∃ c, Fits free (need (selMax - selMin + 1)) lo (hi + 1) c) →
    selMin.toNat < 2 ^ 31 ∧ selMax.toNat ≠ 2 ^ 31 - 1
  room : ∀ p, p = cursor ∨ p = lo → p + need (selMax - selMin + 1) = 2 ^ 31 →
    ¬ Fits free (need (selMax - selMin + 1)) p (hi + 1) p

/-- What is in order as an `int` is a count of at least two. -/
theorem toNat_selCount (hmin : selMin.toNat < 2 ^ 31) (hlt : ¬ toInt selMax ≤ toInt selMin) :
    (selMax - selMin + 1).toNat = selMax.toNat - selMin.toNat + 1 ∧
      selMin.toNat < selMax.toNat ∧ selMax.toNat < 2 ^ 31 := by
  have hlow : selMax.toNat < 2 ^ 31 := by
    by_contra hge
    exact hlt (toInt_le_of_le hmin (not_lt.mp hge))
  rw [toInt_of_lt hmin, toInt_of_lt hlow] at hlt
  have hle : selMin ≤ selMax := UInt32.le_iff_toNat_le.mpr (by omega)
  have hone : (1 : UInt32).toNat = 1 := rfl
  refine ⟨?_, by omega, hlow⟩
  rw [UInt32.toNat_add, UInt32.toNat_sub_of_le _ _ hle, hone]
  omega

/-- The cursor stays among the choices. -/
theorem exists_advance (h : cc.Holds lo hi free) (hhi : hi < 2 ^ 31) {k : ℕ} (hlo : lo ≤ k)
    (hk : k < 2 ^ 31) : ∃ k' : ℕ, advance cc k = k' ∧ lo ≤ k' ∧ k' ≤ hi := by
  have hnat : (UInt32.ofInt (k : ℤ)).toNat = k := by
    rw [Bitmap.ofInt_natCast]
    exact UInt32.toNat_ofNat_of_lt' (show k < 2 ^ 32 by omega)
  have hle := h.le
  unfold advance
  split_ifs with hlt
  · refine ⟨lo, ?_, le_rfl, hle⟩
    rw [toInt_of_lt (by rw [h.min]; omega), h.min]
  · rw [UInt32.lt_iff_toNat_lt, h.max, hnat] at hlt
    exact ⟨k, rfl, hlo, by omega⟩

/-- What comes of a file. -/
theorem defragFrom_cases (h : cc.Holds lo hi free) (hhi : hi < 2 ^ 31) (hlo : lo ≤ cursor)
    (hle : cursor ≤ hi) (hcount : Countable free lo hi cursor selMin selMax) :
    (∀ turns, hi + 2 ≤ turns →
      defragFrom turns f w cc cursor selMin selMax = .error .missing) ∨
    (∃ k : ℕ, lo ≤ k ∧ k ≤ hi ∧ ∀ turns, hi + 2 ≤ turns →
      defragFrom turns f w cc cursor selMin selMax = .ok (some ([], ⟨w, some cc, k⟩))) ∨
    ∃ (c k n : ℕ) (w' : W) (cc' : ChoiceCache), lo ≤ k ∧ k ≤ hi ∧ Fits free n lo (hi + 1) c ∧
      n = selMax.toNat - selMin.toNat + 1 ∧ selMin.toNat < selMax.toNat ∧
      selMax.toNat < 2 ^ 31 - 1 ∧ isFragmented f w (toInt selMin) (toInt selMax) = .ok true ∧
      moveAll f (row selMin c 0 n) w = some w' ∧ cc'.Holds lo hi (without free c n) ∧
      ∀ turns, hi + 2 ≤ turns → defragFrom turns f w cc cursor selMin selMax =
        .ok (some (row selMin c 0 n, ⟨w', some cc', k⟩)) := by
  have hcclo := h.le
  rcases findRun_cases h hhi hlo hle hcount.search with ⟨c, p, hp, hc, hfind⟩ | hfind
  · have hplo : lo ≤ p ∧ p ≤ hi := by
      rcases hp with rfl | rfl
      · exact ⟨hlo, hle⟩
      · exact ⟨le_rfl, hcclo⟩
    have hclo : Fits free (need (selMax - selMin + 1)) lo (hi + 1) c := hc.mono hplo.1
    obtain ⟨hmin, hmax⟩ := hcount.index ⟨c, hclo⟩
    have hpos : (c : ℤ) ≠ -1 := by omega
    have hfrom : ∀ turns, hi + 2 ≤ turns → defragFrom turns f w cc cursor selMin selMax = (do
        if !(← isFragmented f w (toInt selMin) (toInt selMax)) then return some ([], ⟨w, some cc, p⟩)
        else do
          let (moves, w, cc) ← relocateLoop f selMin c (toInt (selMax - selMin + 1)).toNat 0 w cc
          let cursor ← onChoices (addInt p (toInt (selMax - selMin + 1)))
          return some (moves, ⟨w, some cc, advance cc cursor⟩)) := by
      intro turns hturns
      rw [defragFrom, hfind turns hturns, ok_bind]
      dsimp only
      rw [if_neg hpos]
    rcases isFragmented_cases (f := f) (w := w) hmin hmax with hmissing | ⟨b, hfrag⟩
    · refine Or.inl fun turns hturns => ?_
      rw [hfrom turns hturns, hmissing]
      rfl
    · cases b with
      | false =>
        refine Or.inr (Or.inl ⟨p, hplo.1, hplo.2, fun turns hturns => ?_⟩)
        rw [hfrom turns hturns, hfrag]
        rfl
      | true =>
        have hlt : ¬ toInt selMax ≤ toInt selMin := by
          intro hle
          rw [isFragmented, if_pos hle] at hfrag
          cases hfrag
        obtain ⟨hnat, hsel, hlow⟩ := toNat_selCount hmin hlt
        have hneed : need (selMax - selMin + 1) = selMax.toNat - selMin.toNat + 1 := by
          rw [need, hnat]
          omega
        generalize hn : selMax.toNat - selMin.toNat + 1 = n at hnat hneed
        rw [hneed] at hc hclo
        have hend := hc.le
        have hge := hc.ge
        have hturn : (toInt (selMax - selMin + 1)) = (n : ℤ) := by
          rw [toInt_of_lt (by omega), hnat]
        -- the sum is `2 ^ 31` only when the first choice at the cursor is taken
        have hsum : p + n < 2 ^ 31 := by
          by_contra hover
          obtain rfl : c = p := by omega
          refine hcount.room c hp (by omega) ?_
          rw [hneed]
          exact hc
        have hall : ∀ j, j < n → free (c + 0 + j) = true := fun j hj =>
          hc.all (c + 0 + j) (by omega) (by omega)
        rcases relocateLoop_cases (f := f) (w := w) selMin h hhi hclo.ge
          (show c + 0 + n ≤ hi + 1 by omega) hall with hmissing | ⟨w', cc', hrun, hmoves, hcc'⟩
        · refine Or.inl fun turns hturns => ?_
          rw [hfrom turns hturns, hfrag, hturn, Int.toNat_natCast]
          rw [Nat.cast_zero] at hmissing
          simp only [ok_bind, Bool.not_true, Bool.false_eq_true, if_false, hmissing, error_bind]
        · obtain ⟨k, hk, hklo, hkhi⟩ := exists_advance hcc' hhi (show lo ≤ p + n by omega) hsum
          refine Or.inr (Or.inr ⟨c, k, n, w', cc', hklo, hkhi, hclo, rfl, hsel, by omega, hfrag,
            hmoves, hcc', fun turns hturns => ?_⟩)
          rw [hfrom turns hturns, hfrag, hturn, Int.toNat_natCast]
          rw [Nat.cast_zero] at hrun
          simp only [ok_bind, Bool.not_true, Bool.false_eq_true, if_false, hrun, addInt_natCast hsum,
            onChoices_ok, hk]
          rfl
  · refine Or.inr (Or.inl ⟨lo, le_rfl, hcclo, fun turns hturns => ?_⟩)
    rw [defragFrom, hfind turns hturns, ok_bind]
    rfl

end Relocate

/-! ## Runs -/

/-- The choices that have been handed out. -/
def handed (ms : List Move) : List ℕ := ms.map fun m => m.choice.toNat

/-- What is free when those have been handed out. -/
def left (ch : Choices) (ms : List Move) (c : ℕ) : Bool :=
  ch.ccond (UInt64.ofNat c) && decide (c ∉ handed ms)

/-- Where the first search begins. -/
def first (ch : Choices) (s : State W) : ℕ :=
  if s.ccache.isSome then s.ccacheCursor.toNat else ch.choiceMin.toNat

/-- The file does not select two instances, or it can be counted over. -/
def Calm (ch : Choices) (ms : List Move) (f : File W) (s : State W) : Prop :=
  Selects (f.selMin s.world).toUInt32 (f.selMax s.world).toUInt32 →
    Countable (left ch ms) ch.choiceMin.toNat ch.choiceMax.toNat (first ch s)
      (f.selMin s.world).toUInt32 (f.selMax s.world).toUInt32

/-- Calls over one run, with the calls of `wpkt_relocate` so far. -/
inductive Run (ch : Choices) : List Move → State W → Prop
  | start (w : W) : Run ch [] ⟨w, none, 0⟩
  | call {ms ms' : List Move} {s s' : State W} (f : File W) : Run ch ms s → Calm ch ms f s →
      Returns (fun turns => doDefrag ch f turns s) (ms', s') → Run ch (ms ++ ms') s'

/-- A file that a call has relocated: it was not in a row, its instances were moved to free choices in a
row, and when choices next to each other are so on disk, it is in a row now. -/
structure Relocated (ch : Choices) (ms : List Move) (f : File W) (s : State W) (ms' : List Move)
    (s' : State W) : Prop where
  broken : ¬ Contiguous f s.world (f.selMin s.world).toUInt32.toNat (f.selMax s.world).toUInt32.toNat
  given : ∃ c n, Fits (left ch ms) n ch.choiceMin.toNat (ch.choiceMax.toNat + 1) c ∧
    n = (f.selMax s.world).toUInt32.toNat - (f.selMin s.world).toUInt32.toNat + 1 ∧
    ms' = row (f.selMin s.world).toUInt32 c 0 n
  moved : moveAll f ms' s.world = some s'.world
  mended : ∀ site, Moves f site →
    (∀ c, ch.choiceMin.toNat ≤ c → c < ch.choiceMax.toNat →
      (site (UInt32.ofNat (c + 1))).1 = (site (UInt32.ofNat c)).1 + (site (UInt32.ofNat c)).2) →
    isFragmented f s'.world (toInt (f.selMin s'.world).toUInt32) (toInt (f.selMax s'.world).toUInt32) =
      .ok false

section Runs

variable {ch : Choices} {ms ms' : List Move} {f : File W} {s s' : State W}

/-- What is in the cache and where the cursor is. -/
structure Ready (ch : Choices) (ms : List Move) (s : State W) : Prop where
  cache : ∀ cc ∈ s.ccache, cc.Holds ch.choiceMin.toNat ch.choiceMax.toNat (left ch ms)
  cursor : s.ccache.isSome → ∃ k : ℕ, s.ccacheCursor = k ∧ ch.choiceMin.toNat ≤ k ∧ k ≤ ch.choiceMax.toNat
  fresh : s.ccache = none → ms = []
  nodup : (handed ms).Nodup
  free : ∀ c ∈ handed ms, ch.choiceMin.toNat ≤ c ∧ c ≤ ch.choiceMax.toNat ∧
    ch.ccond (UInt64.ofNat c) = true

theorem handed_row {selMin : UInt32} {c n : ℕ} (h : c + n ≤ 2 ^ 32) :
    handed (row selMin c 0 n) = (List.range n).map fun j => c + j := by
  rw [handed, row, List.map_map, List.range_eq_range']
  refine List.map_congr_left fun j hj => ?_
  have hlt := (List.mem_range'_1.mp hj).2
  exact UInt32.toNat_ofNat_of_lt' (show c + j < 2 ^ 32 by omega)

theorem left_append {selMin : UInt32} {c n : ℕ} (h : c + n ≤ 2 ^ 32) :
    left ch (ms ++ row selMin c 0 n) = without (left ch ms) c n := by
  funext x
  have hmem : x ∉ handed (ms ++ row selMin c 0 n) ↔ x ∉ handed ms ∧ ¬ (c ≤ x ∧ x < c + n) := by
    rw [handed, List.map_append, List.mem_append, ← handed, ← handed, handed_row h, not_or]
    refine and_congr_right fun _ => not_congr ?_
    constructor
    · intro hx
      obtain ⟨j, hj, rfl⟩ := List.mem_map.mp hx
      have hlt := List.mem_range.mp hj
      omega
    · rintro ⟨hge, hlt⟩
      exact List.mem_map.mpr ⟨x - c, List.mem_range.mpr (by omega), by omega⟩
  rw [left, without, left, Bool.and_assoc, ← Bool.decide_and]
  congr 1
  exact decide_eq_decide.mpr hmem

variable (hle : ch.choiceMin.toNat ≤ ch.choiceMax.toNat) (hmax : ch.choiceMax.toNat < 2 ^ 31)
  (hsize : ch.choiceMax.toNat - ch.choiceMin.toNat + 1 < 2 ^ 31)

include hle hmax hsize in
/-- The cache that a call works on. -/
theorem Ready.load (h : Ready ch ms s) : ∃ cc : ChoiceCache,
    cc.Holds ch.choiceMin.toNat ch.choiceMax.toNat (left ch ms) ∧
    ch.choiceMin.toNat ≤ first ch s ∧ first ch s ≤ ch.choiceMax.toNat ∧
    ∀ turns, ch.choiceMax.toNat + 2 ≤ turns →
      load ch turns s = .ok (some (cc, (first ch s : ℤ))) := by
  cases hcc : s.ccache with
  | some cc =>
    obtain ⟨k, hk, hlo, hhi⟩ := h.cursor (by rw [hcc]; rfl)
    have hfirst : first ch s = k := by
      rw [first, hcc, hk]
      rfl
    refine ⟨cc, h.cache cc hcc, by omega, by omega, fun turns _ => ?_⟩
    rw [Defrag.load, hcc, hk, hfirst]
    rfl
  | none =>
    have hfirst : first ch s = ch.choiceMin.toNat := by
      rw [first, hcc]
      rfl
    have hleft : left ch ms = fun c => ch.ccond (UInt64.ofNat c) := by
      funext c
      rw [left, h.fresh hcc, handed, List.map_nil, decide_eq_true List.not_mem_nil, Bool.and_true]
    obtain ⟨cc, halloc, hbits⟩ := ChoiceCache.exists_choiceAlloc ch.mem ch.ccond hle (by omega) (by omega)
      fun c hlo hhi _ => ChoiceCache.markable_of_lt hsize hlo hhi
    have hmin : toInt cc.min = (ch.choiceMin.toNat : ℤ) := by
      rw [toInt_of_lt (by rw [hbits.min]; omega), hbits.min]
    refine ⟨cc, hleft ▸ hbits.holds hsize, by omega, by omega, fun turns hturns => ?_⟩
    rw [Defrag.load, hcc]
    dsimp only
    rw [halloc turns (by omega), onChoices_ok, ok_bind, hfirst, ← hmin]
    rfl

theorem Ready.start (ch : Choices) (w : W) : Ready ch [] ⟨w, none, 0⟩ where
  cache cc hcc := by cases hcc
  cursor hsome := by cases hsome
  fresh _ := rfl
  nodup := List.nodup_nil
  free c hc := absurd hc List.not_mem_nil

/-- The selections of the calls for a file are distinct. -/
theorem nodup_row {selMin : UInt32} {c n : ℕ} (h : selMin.toNat + n ≤ 2 ^ 32) :
    ((row selMin c 0 n).map fun m => m.sel).Nodup := by
  rw [row, List.map_map]
  refine List.Nodup.map_on (fun i hi j hj heq => ?_) List.nodup_range'
  have hilt := (List.mem_range'_1.mp hi).2
  have hjlt := (List.mem_range'_1.mp hj).2
  have hnat := congrArg UInt32.toNat heq
  simp only [Function.comp_apply, UInt32.toNat_add, UInt32.toNat_ofNat'] at hnat
  omega

/-- Where choices next to each other are so on disk, the instances of the file are moved into a row. -/
theorem contiguous_of_moveAll {site : UInt32 → UInt64 × UInt64} {selMin selMax : UInt32} {c n lo hi : ℕ}
    {w w' : W} (hm : Moves f site)
    (hsite : ∀ c, lo ≤ c → c < hi →
      (site (UInt32.ofNat (c + 1))).1 = (site (UInt32.ofNat c)).1 + (site (UInt32.ofNat c)).2)
    (hn : n = selMax.toNat - selMin.toNat + 1) (hlt : selMin.toNat < selMax.toNat) (hlo : lo ≤ c)
    (hhi : c + n ≤ hi + 1) (hmoves : moveAll f (row selMin c 0 n) w = some w') :
    Contiguous f w' selMin.toNat selMax.toNat := by
  have hmaxlt := selMax.toNat_lt
  have hfollow : ∀ j, j < n →
      f.follow w' (UInt64.ofNat (selMin.toNat + j)) = some (site (UInt32.ofNat (c + j))) := by
    intro j hj
    have hmem : (⟨selMin + UInt32.ofNat j, UInt32.ofNat (c + j)⟩ : Move) ∈ row selMin c 0 n :=
      List.mem_map.mpr ⟨j, List.mem_range'_1.mpr ⟨Nat.zero_le j, by omega⟩, rfl⟩
    have hword : (selMin + UInt32.ofNat j).toUInt64 = UInt64.ofNat (selMin.toNat + j) := by
      refine UInt64.toNat_inj.mp ?_
      rw [UInt32.toNat_toUInt64, UInt32.toNat_add, UInt32.toNat_ofNat', UInt64.toNat_ofNat']
      omega
    rw [← hword]
    exact moveAll_moved hm (nodup_row (by omega)) hmoves hmem
  intro k hk hkmax
  obtain ⟨j, rfl⟩ := Nat.exists_eq_add_of_le hk
  exact ⟨_, _, hfollow j (by omega), hfollow (j + 1) (by omega), hsite (c + j) (by omega) (by omega)⟩

/-- The call stops where an instance is missing. -/
def Misses {α : Type} (x : ℕ → Except Halt α) : Prop :=
  ∃ enough, ∀ turns, enough ≤ turns → x turns = .error .missing

include hle hmax hsize in
/-- A call stops where an instance is missing, or it returns and has relocated the file or left it. -/
theorem Ready.doDefrag (h : Ready ch ms s) (hcalm : Calm ch ms f s) :
    Misses (fun turns => doDefrag ch f turns s) ∨
    ∃ ms' s', Returns (fun turns => doDefrag ch f turns s) (ms', s') ∧ Ready ch (ms ++ ms') s' ∧
      (ms' = [] ∧ s'.world = s.world ∨ Relocated ch ms f s ms' s') := by
  obtain ⟨cc, hcc, hlo, hhi, hload⟩ := h.load hle hmax hsize
  -- a file that is left alone
  have hkeep : ∀ k : ℕ, ch.choiceMin.toNat ≤ k → k ≤ ch.choiceMax.toNat →
      Ready ch (ms ++ []) ⟨s.world, some cc, k⟩ := by
    intro k hk hk'
    rw [List.append_nil]
    refine ⟨fun cc' hcc' => ?_, fun _ => ⟨k, rfl, hk, hk'⟩, fun hnone => (by cases hnone), h.nodup, h.free⟩
    rwa [← Option.some.inj hcc']
  by_cases hsel : Selects (f.selMin s.world).toUInt32 (f.selMax s.world).toUInt32
  · have hrun : ∀ turns, ch.choiceMax.toNat + 2 ≤ turns → Defrag.doDefrag ch f turns s =
        defragFrom turns f s.world cc (first ch s) (f.selMin s.world).toUInt32
          (f.selMax s.world).toUInt32 := by
      intro turns hturns
      rw [Defrag.doDefrag, hload turns hturns, ok_bind]
      exact if_pos hsel
    rcases defragFrom_cases (f := f) (w := s.world) hcc hmax hlo hhi (hcalm hsel) with hmiss |
      ⟨k, hk, hk', hres⟩ | ⟨c, k, n, w', cc', hk, hk', hc, hn, hlt, hlast, hfrag, hmoves, hcc', hres⟩
    · exact Or.inl ⟨_, fun turns hturns => (hrun turns hturns).trans (hmiss turns hturns)⟩
    · exact Or.inr ⟨[], _, ⟨_, fun turns hturns => (hrun turns hturns).trans (hres turns hturns)⟩,
        hkeep k hk hk', Or.inl ⟨rfl, rfl⟩⟩
    · have hge := hc.ge
      have hend := hc.le
      have hlow : c + n ≤ 2 ^ 32 := by omega
      have hgiven : ∀ j, j < n → left ch ms (c + j) = true :=
        fun j hj => hc.all (c + j) (by omega) (by omega)
      have hready : Ready ch (ms ++ row (f.selMin s.world).toUInt32 c 0 n) ⟨w', some cc', k⟩ := by
        refine ⟨fun cc₁ hcc₁ => ?_, fun _ => ⟨k, rfl, hk, hk'⟩, fun hnone => (by cases hnone), ?_, ?_⟩
        · rw [← Option.some.inj hcc₁, left_append hlow]
          exact hcc'
        · rw [handed, List.map_append, ← handed, ← handed, handed_row hlow]
          refine h.nodup.append (List.nodup_range.map fun i j hij => Nat.add_left_cancel hij) ?_
          intro x hx hx'
          obtain ⟨j, hj, rfl⟩ := List.mem_map.mp hx'
          have hfree := hgiven j (List.mem_range.mp hj)
          rw [left, decide_eq_false (not_not.mpr hx), Bool.and_false] at hfree
          cases hfree
        · intro x hx
          rw [handed, List.map_append, ← handed, ← handed, handed_row hlow] at hx
          rcases List.mem_append.mp hx with hx | hx
          · exact h.free x hx
          · obtain ⟨j, hj, rfl⟩ := List.mem_map.mp hx
            have hjn := List.mem_range.mp hj
            exact ⟨by omega, by omega, (Bool.and_eq_true_iff.mp (hgiven j hjn)).1⟩
      refine Or.inr ⟨_, _, ⟨_, fun turns hturns => (hrun turns hturns).trans (hres turns hturns)⟩, hready,
        Or.inr ⟨fun hrow => ?_, ⟨c, n, hc, hn, rfl⟩, hmoves, fun site hm hsite => ?_⟩⟩
      · rw [isFragmented_false (by omega) (by omega) hrow] at hfrag
        cases hfrag
      · obtain ⟨-, hselMin, hselMax⟩ := moveAll_other hm hmoves
        show isFragmented f w' (toInt (f.selMin w').toUInt32) (toInt (f.selMax w').toUInt32) = _
        rw [hselMin, hselMax]
        exact isFragmented_false (by omega) (by omega)
          (contiguous_of_moveAll hm hsite hn hlt hge hend hmoves)
  · refine Or.inr ⟨[], ⟨s.world, some cc, (first ch s : ℤ)⟩,
      ⟨ch.choiceMax.toNat + 2, fun turns hturns => ?_⟩, hkeep _ hlo hhi, Or.inl ⟨rfl, rfl⟩⟩
    show Defrag.doDefrag ch f turns s = _
    rw [Defrag.doDefrag, hload turns hturns, ok_bind]
    exact if_neg hsel

include hle hmax hsize in
theorem Run.ready (h : Run ch ms s) : Ready ch ms s := by
  induction h with
  | start w => exact Ready.start ch w
  | call f _ hcalm hret ih =>
    rcases ih.doDefrag hle hmax hsize hcalm with ⟨enough, hmiss⟩ | ⟨ms', s', hret', hready, -⟩
    · obtain ⟨enough', hrun⟩ := hret
      have hboth := (hmiss _ (le_max_left enough enough')).symm.trans (hrun _ (le_max_right _ _))
      cases hboth
    · obtain ⟨rfl, rfl⟩ := Prod.mk.inj (hret.unique hret')
      exact hready

end Runs

/-- In a run no choice is handed out twice, the cursor stays among the choices, and a call stops where an
instance is missing, or else leaves the file alone or puts it in a row of choices that were free. -/
theorem doDefrag_run (ch : Choices) (hle : ch.choiceMin.toNat ≤ ch.choiceMax.toNat)
    (hmax : ch.choiceMax.toNat < 2 ^ 31)
    (hsize : ch.choiceMax.toNat - ch.choiceMin.toNat + 1 < 2 ^ 31) {ms : List Move} {s : State W}
    (hrun : Run ch ms s) :
    (handed ms).Nodup ∧
    (∀ cc ∈ s.ccache, ((ch.choiceMin.toNat : ℤ) ≤ s.ccacheCursor ∧ s.ccacheCursor ≤ ch.choiceMax.toNat) ∧
      ∀ c : UInt64, ch.choiceMin ≤ c → c ≤ ch.choiceMax →
        cc.choiceIsFree c = .ok (left ch ms c.toNat)) ∧
    ∀ f : File W, Calm ch ms f s →
      Misses (fun turns => doDefrag ch f turns s) ∨
      ∃ ms' s', Returns (fun turns => doDefrag ch f turns s) (ms', s') ∧
        (ms' = [] ∧ s'.world = s.world ∨ Relocated ch ms f s ms' s') := by
  have hready := hrun.ready hle hmax hsize
  refine ⟨hready.nodup, fun cc hcc => ⟨?_, fun c hlo hhi => ?_⟩, fun f hcalm => ?_⟩
  · obtain ⟨k, hk, hlo, hhi⟩ := hready.cursor (by rw [hcc]; rfl)
    omega
  · exact (hready.cache cc hcc).bits.isFree (UInt64.le_iff_toNat_le.mp hlo)
      (UInt64.le_iff_toNat_le.mp hhi)
  · refine (hready.doDefrag hle hmax hsize hcalm).imp_right fun ⟨ms', s', hret, _, hres⟩ => ?_
    exact ⟨ms', s', hret, hres⟩

/-- A file of two blocks that are not next to each other. -/
def twoBlocks : File Unit where
  selMin _ := 0
  selMax _ := 1
  follow _ k := some (100 * k, 8)
  relocate _ _ _ := some ()

/-- Two choices, both free. -/
def twoFrom (choiceMin : UInt64) : Choices where
  choiceMin := choiceMin
  choiceMax := choiceMin + 1
  ccond _ := true
  mem _ := 0

theorem calm_twoBlocks : Calm (twoFrom 0) [] twoBlocks ⟨(), none, 0⟩ := by
  refine fun _ => ⟨Or.inl (by decide), fun _ => by decide, fun p hp hsum => ?_⟩
  have hneed : need ((twoBlocks.selMax ()).toUInt32 - (twoBlocks.selMin ()).toUInt32 + 1) = 2 := by decide
  have hzero : p = 0 := hp.elim id id
  rw [hneed] at hsum
  omega

/-- The two blocks are relocated, or one of them is missing. -/
theorem doDefrag_run_twoBlocks :
    Misses (fun turns => doDefrag (twoFrom 0) twoBlocks turns ⟨(), none, 0⟩) ∨
    ∃ ms' s', Returns (fun turns => doDefrag (twoFrom 0) twoBlocks turns ⟨(), none, 0⟩) (ms', s') ∧
      (ms' = [] ∧ s'.world = () ∨ Relocated (twoFrom 0) [] twoBlocks ⟨(), none, 0⟩ ms' s') :=
  (doDefrag_run (twoFrom 0) (by decide) (by decide) (by decide) (Run.start ())).2.2 twoBlocks
    calm_twoBlocks

/-- Behind the choices `2 ^ 31 - 2` and `2 ^ 31 - 1` the cursor overflows. -/
theorem doDefrag_fault : ((twoFrom 0x7ffffffe).choiceMin.toNat ≤ (twoFrom 0x7ffffffe).choiceMax.toNat ∧
      (twoFrom 0x7ffffffe).choiceMax.toNat < 2 ^ 31) ∧
    ∃ enough, ∀ turns, enough ≤ turns →
      doDefrag (twoFrom 0x7ffffffe) twoBlocks turns ⟨(), none, 0⟩ = .error .fault := by
  refine ⟨by decide, 5, fun turns hturns => ?_⟩
  obtain ⟨t, rfl⟩ := Nat.exists_eq_add_of_le' hturns
  rfl

end Fsl.Defrag
