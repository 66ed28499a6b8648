import Fsl.Runtime.BitmapRange

/-!
# Free choices

`choice.c` keeps the choices of a `relocate` statement in a bitmap, in which a set bit is a free
choice. The tools that move blocks mark choices and search for free ones from an offset on.
-/

namespace Fsl

open FirstFit Bitmap

/-- A loop returns, however many turns it is given beyond those it needs. -/
def Returns {ε α : Type} (x : ℕ → Except ε (Option α)) (v : α) : Prop :=
  ∃ enough, ∀ turns, enough ≤ turns → x turns = .ok (some v)

theorem Returns.unique {ε α : Type} {x : ℕ → Except ε (Option α)} {v v' : α} (h : Returns x v)
    (h' : Returns x v') : v = v' := by
  obtain ⟨n, hn⟩ := h
  obtain ⟨n', hn'⟩ := h'
  have heq := (hn (max n n') (le_max_left _ _)).symm.trans (hn' (max n n') (le_max_right _ _))
  exact Option.some.inj (Except.ok.inj heq)

theorem toNat_ofInt_natCast {c : ℕ} (hc : c < 2 ^ 64) : (UInt64.ofInt (c : ℤ)).toNat = c := by
  rw [UInt64.ofInt, UInt64.toNat_ofNat']
  omega

/-- `choice_cache`, whose bounds are of type `unsigned int`. -/
structure ChoiceCache where
  bmp : Bitmap
  min : UInt32
  max : UInt32

namespace ChoiceCache

variable (cc : ChoiceCache)

/-- `choice_rebase`, as it is passed to a function of the bitmap. -/
def choiceRebase (c : UInt64) : UInt32 := (c - cc.min.toUInt64).toUInt32

/-- `choice_mark_free` -/
def choiceMarkFree (c : UInt64) : Except Stop ChoiceCache := do
  return { cc with bmp := ← bmpSet cc.bmp (cc.choiceRebase c) 1 }

/-- `choice_mark_alloc` -/
def choiceMarkAlloc (c : UInt64) : Except Stop ChoiceCache := do
  return { cc with bmp := ← bmpUnset cc.bmp (cc.choiceRebase c) 1 }

/-- `choice_is_free` -/
def choiceIsFree (c : UInt64) : Except Stop Bool := bmpIsSet cc.bmp (cc.choiceRebase c)

/-- The loop of `choice_alloc` from `cur` on; there is no value before the loop has ended. -/
def loadChoices (ccond : UInt64 → Bool) (choiceMax : UInt64) :
    ℕ → UInt64 → ChoiceCache → Except Stop (Option ChoiceCache)
  | 0, _, _ => return none
  | turns + 1, cur, cc =>
    if cur ≤ choiceMax then do
      let cc ← (if ccond cur then cc.choiceMarkFree cur else pure cc)
      loadChoices ccond choiceMax turns (cur + 1) cc
    else return some cc

/-- `choice_alloc`, with the bounds that `it_min` and `it_max` give and the condition `rel_ccond`. The
inner `none` is `NULL`. -/
def choiceAlloc (turns : ℕ) (mem : ℕ → UInt8) (ccond : UInt64 → Bool)
    (choiceMin choiceMax : UInt64) : Except Stop (Option (Option ChoiceCache)) := do
  if choiceMax < choiceMin then return some none
  let min := choiceMin.toUInt32
  let max := choiceMax.toUInt32
  let cc := ⟨bmpClear (bmpInit mem (max - min + 1)), min, max⟩
  return (← loadChoices ccond choiceMax turns choiceMin cc).map some

/-- The loop of `choice_find_avail`. The sum that is returned is unsigned before it is an `int`. -/
def findLoop (minCount : UInt32) : ℕ → ℤ → Except Stop (Option ℤ)
  | 0, _ => return none
  | turns + 1, cur => do
    let isSet ← bmpIsSet cc.bmp (UInt32.ofInt cur)
    let found ← (if isSet then bmpCountContigSet cc.bmp (UInt32.ofInt cur)
      else bmpCountContigAvail cc.bmp (UInt32.ofInt cur))
    if isSet = true ∧ minCount.toNat ≤ found then
      return some (toInt (UInt32.ofInt cur + cc.min))
    else do
      let cur ← addInt cur found
      if cur < toInt cc.bmp.size then findLoop minCount turns cur else return some (-1)

/-- `choice_find_avail` -/
def choiceFindAvail (turns : ℕ) (offset minCount : UInt32) : Except Stop (Option ℤ) := do
  fslAssert (cc.min ≤ offset)
  fslAssert (offset ≤ cc.max)
  cc.findLoop minCount turns (toInt (offset - cc.min))

/-- The bitmap holds the free choices from `lo` to `hi`. -/
structure Holds (cc : ChoiceCache) (lo hi : ℕ) (free : ℕ → Bool) : Prop where
  min : cc.min.toNat = lo
  max : cc.max.toNat = hi
  le : lo ≤ hi
  bmp : cc.bmp.Holds (hi - lo + 1) fun k => free (lo + k)

/-- The same for a range of any length at which `bmp_init` does not overflow. -/
structure Bits (cc : ChoiceCache) (lo hi : ℕ) (free : ℕ → Bool) : Prop where
  min : cc.min.toNat = lo
  max : cc.max.toNat = hi
  le : lo ≤ hi
  bmp : cc.bmp.Bits (hi - lo + 1) fun k => free (lo + k)

end ChoiceCache

/-- A mark of a choice as free or as allocated. -/
structure MarkOp where
  free : Bool
  choice : UInt64

namespace MarkOp

def apply (op : MarkOp) (cc : ChoiceCache) : Except Stop ChoiceCache :=
  if op.free then cc.choiceMarkFree op.choice else cc.choiceMarkAlloc op.choice

/-- Marks one after the other. -/
def applyAll : List MarkOp → ChoiceCache → Except Stop ChoiceCache
  | [], cc => .ok cc
  | op :: ops, cc => do applyAll ops (← op.apply cc)

/-- What is free after a mark. -/
def effect (free : ℕ → Bool) (op : MarkOp) : ℕ → Bool :=
  Function.update free op.choice.toNat op.free

end MarkOp

namespace ChoiceCache

variable {cc : ChoiceCache} {lo hi : ℕ} {free : ℕ → Bool}

theorem Bits.holds (h : cc.Bits lo hi free) (hlt : hi - lo + 1 < 2 ^ 31) : cc.Holds lo hi free :=
  ⟨h.min, h.max, h.le, h.bmp.holds hlt⟩

theorem Holds.bits (h : cc.Holds lo hi free) : cc.Bits lo hi free := by
  have hlt := h.bmp.lt
  exact ⟨h.min, h.max, h.le, h.bmp.size, by omega, h.bmp.bytes, h.bmp.bit⟩

theorem Bits.toNat_rebase (h : cc.Bits lo hi free) {c : UInt64} (hlo : lo ≤ c.toNat)
    (hhi : c.toNat ≤ hi) : (cc.choiceRebase c).toNat = c.toNat - lo := by
  have hmin : cc.min.toUInt64.toNat = lo := h.min
  have hlt : hi < 2 ^ 32 := h.max ▸ cc.max.toNat_lt
  have hle : cc.min.toUInt64 ≤ c := UInt64.le_iff_toNat_le.mpr (hmin.symm ▸ hlo)
  rw [choiceRebase, UInt64.toNat_toUInt32, UInt64.toNat_sub_of_le _ _ hle, hmin]
  omega

/-- A mark of a choice of the range. -/
theorem Bits.apply (h : cc.Bits lo hi free) (op : MarkOp) (hlo : lo ≤ op.choice.toNat)
    (hhi : op.choice.toNat ≤ hi) (hm : Markable (op.choice.toNat - lo)) :
    ∃ cc', op.apply cc = .ok cc' ∧ cc'.Bits lo hi (op.effect free) := by
  have hbase := h.toNat_rebase hlo hhi
  obtain ⟨b, hput, hb⟩ := h.bmp.put op.free (cc.choiceRebase op.choice) (by omega) (by rwa [hbase])
  refine ⟨{ cc with bmp := b }, ?_, h.min, h.max, h.le, ?_⟩
  · unfold MarkOp.apply choiceMarkFree choiceMarkAlloc bmpSet bmpUnset
    cases hfree : op.free with
    | true =>
      rw [hfree] at hput
      rw [if_pos rfl, hput]
      rfl
    | false =>
      rw [hfree] at hput
      rw [if_neg (by decide), hput]
      rfl
  · have hfun : (fun k => op.effect free (lo + k)) =
        Function.update (fun k => free (lo + k)) (cc.choiceRebase op.choice).toNat op.free := by
      funext k
      rw [MarkOp.effect, hbase]
      by_cases hk : k = op.choice.toNat - lo
      · rw [hk, Nat.add_sub_cancel' hlo, Function.update_self, Function.update_self]
      · rw [Function.update_of_ne (by omega), Function.update_of_ne hk]
    rw [hfun]
    exact hb

/-- The marks of a run. -/
theorem Bits.applyAll (h : cc.Bits lo hi free) {ops : List MarkOp}
    (hops : ∀ op ∈ ops, lo ≤ op.choice.toNat ∧ op.choice.toNat ≤ hi ∧
      Markable (op.choice.toNat - lo)) :
    ∃ cc', MarkOp.applyAll ops cc = .ok cc' ∧ cc'.Bits lo hi (ops.foldl MarkOp.effect free) := by
  induction ops generalizing cc free with
  | nil => exact ⟨cc, rfl, h⟩
  | cons op ops ih =>
    obtain ⟨hlo, hhi, hm⟩ := hops op List.mem_cons_self
    obtain ⟨cc₁, hop, h₁⟩ := h.apply op hlo hhi hm
    obtain ⟨cc', hall, h'⟩ := ih h₁ fun op' hop' => hops op' (List.mem_cons_of_mem _ hop')
    refine ⟨cc', ?_, h'⟩
    rw [MarkOp.applyAll, hop, ok_bind, hall]

theorem Bits.isFree (h : cc.Bits lo hi free) {c : UInt64} (hlo : lo ≤ c.toNat)
    (hhi : c.toNat ≤ hi) : cc.choiceIsFree c = .ok (free c.toNat) := by
  have hbase := h.toNat_rebase hlo hhi
  rw [choiceIsFree, h.bmp.isSet (by omega), hbase, Nat.add_sub_cancel' hlo]

/-! ## Loading the choices -/

/-- What is free before the loop of `choice_alloc` gets to `cur`. -/
def loaded (ccond : UInt64 → Bool) (cur c : ℕ) : Bool := decide (c < cur) && ccond (UInt64.ofNat c)

theorem loaded_succ (ccond : UInt64 → Bool) (cur : ℕ) :
    loaded ccond (cur + 1) = Function.update (loaded ccond cur) cur (ccond (UInt64.ofNat cur)) := by
  funext c
  by_cases hc : c = cur
  · rw [hc, Function.update_self, loaded, decide_eq_true (Nat.lt_succ_self cur), Bool.true_and]
  · rw [Function.update_of_ne hc, loaded, loaded]
    congr 1
    exact decide_eq_decide.mpr (by omega)

/-- A turn of the loop. -/
theorem Bits.load (ccond : UInt64 → Bool) {cur : UInt64}
    (h : cc.Bits lo hi (loaded ccond cur.toNat)) (hlo : lo ≤ cur.toNat) (hhi : cur.toNat ≤ hi)
    (hm : ccond cur = true → Markable (cur.toNat - lo)) :
    ∃ cc', (if ccond cur then cc.choiceMarkFree cur else pure cc : Except Stop ChoiceCache) = .ok cc' ∧
      cc'.Bits lo hi (loaded ccond (cur.toNat + 1)) := by
  rw [loaded_succ, UInt64.ofNat_toNat]
  by_cases hfree : ccond cur = true
  · obtain ⟨cc', happly, h'⟩ := h.apply ⟨true, cur⟩ hlo hhi (hm hfree)
    refine ⟨cc', ?_, ?_⟩
    · rw [if_pos hfree]
      exact happly
    · rw [hfree]
      exact h'
  · refine ⟨cc, if_neg hfree, ?_⟩
    have hsame : loaded ccond cur.toNat cur.toNat = ccond cur := by
      rw [loaded, decide_eq_false (lt_irrefl _), Bool.false_and, Bool.eq_false_iff.mpr hfree]
    rw [← hsame, Function.update_eq_self]
    exact h

/-- The loop over the `k` choices that are left. -/
theorem Bits.loadChoices (ccond : UInt64 → Bool) (choiceMax : UInt64) (hmax : choiceMax.toNat = hi)
    (hm : ∀ c : UInt64, lo ≤ c.toNat → c.toNat ≤ hi → ccond c = true → Markable (c.toNat - lo))
    {k : ℕ} {cur : UInt64} (h : cc.Bits lo hi (loaded ccond cur.toNat)) (hlo : lo ≤ cur.toNat)
    (hk : cur.toNat + k = hi + 1) :
    ∃ cc', (∀ turns, k < turns → loadChoices ccond choiceMax turns cur cc = .ok (some cc')) ∧
      cc'.Bits lo hi (loaded ccond (hi + 1)) := by
  have hlt : hi < 2 ^ 32 := h.max ▸ cc.max.toNat_lt
  induction k generalizing cc cur with
  | zero =>
    refine ⟨cc, fun turns hturns => ?_, hk ▸ h⟩
    obtain ⟨t, rfl⟩ := Nat.exists_eq_add_of_lt hturns
    have hend : ¬ cur ≤ choiceMax := by
      rw [UInt64.le_iff_toNat_le]
      omega
    rw [ChoiceCache.loadChoices, if_neg hend]
    rfl
  | succ k ih =>
    have hle : cur ≤ choiceMax := by
      rw [UInt64.le_iff_toNat_le]
      omega
    obtain ⟨cc₁, hload, h₁⟩ := h.load ccond hlo (by omega) (hm cur hlo (by omega))
    have hnext : (cur + 1).toNat = cur.toNat + 1 := by
      rw [UInt64.toNat_add]
      exact Nat.mod_eq_of_lt (show cur.toNat + 1 < 2 ^ 64 by omega)
    rw [← hnext] at h₁
    obtain ⟨cc', hrest, h'⟩ := ih h₁ (by omega) (by omega)
    refine ⟨cc', fun turns hturns => ?_, h'⟩
    obtain ⟨t, rfl⟩ := Nat.exists_eq_add_of_lt hturns
    rw [ChoiceCache.loadChoices, if_pos hle, hload, ok_bind]
    exact hrest (k + 1 + t) (by omega)

theorem Bits.congr {free' : ℕ → Bool} (h : cc.Bits lo hi free)
    (hfree : ∀ c, lo ≤ c → c ≤ hi → free c = free' c) : cc.Bits lo hi free' := by
  refine ⟨h.min, h.max, h.le, h.bmp.size, h.bmp.le, h.bmp.bytes, fun k hk => ?_⟩
  rw [h.bmp.bit k hk]
  by_cases hlt : k < hi - lo + 1
  · have hle := h.le
    rw [hfree (lo + k) (by omega) (by omega)]
  · rw [decide_eq_false hlt, Bool.false_and, Bool.false_and]

/-- `choice_alloc` marks free the choices that satisfy the condition. -/
theorem bits_choiceAlloc (mem : ℕ → UInt8) (ccond : UInt64 → Bool) (cmin cmax : UInt32)
    (hle : cmin ≤ cmax) (hn : cmax.toNat - cmin.toNat + 1 ≤ 2 ^ 32 - 8)
    (hm : ∀ c : UInt64, cmin.toNat ≤ c.toNat → c.toNat ≤ cmax.toNat → ccond c = true →
      Markable (c.toNat - cmin.toNat)) :
    ∃ cc : ChoiceCache, (∀ turns, cmax.toNat + 1 < turns →
        choiceAlloc turns mem ccond cmin.toUInt64 cmax.toUInt64 = .ok (some (some cc))) ∧
      cc.Bits cmin.toNat cmax.toNat fun c => ccond (UInt64.ofNat c) := by
  have hle' := UInt32.le_iff_toNat_le.mp hle
  have hsize : (cmax - cmin + 1).toNat = cmax.toNat - cmin.toNat + 1 := by
    rw [UInt32.toNat_add, UInt32.toNat_sub_of_le _ _ hle]
    exact Nat.mod_eq_of_lt (show cmax.toNat - cmin.toNat + 1 < 2 ^ 32 by omega)
  have hclear := bits_bmpClear mem (cmax - cmin + 1) (by omega)
  rw [hsize] at hclear
  have hstart : (⟨bmpClear (bmpInit mem (cmax - cmin + 1)), cmin, cmax⟩ : ChoiceCache).Bits
      cmin.toNat cmax.toNat (loaded ccond cmin.toUInt64.toNat) := by
    refine ⟨rfl, rfl, hle', ?_⟩
    have hnone : (fun k => loaded ccond cmin.toUInt64.toNat (cmin.toNat + k)) = fun _ => false := by
      funext k
      have hnot : ¬ cmin.toNat + k < cmin.toUInt64.toNat := by
        show ¬ cmin.toNat + k < cmin.toNat
        omega
      rw [loaded, decide_eq_false hnot, Bool.false_and]
    rw [hnone]
    exact hclear
  obtain ⟨cc, hload, h⟩ := hstart.loadChoices ccond cmax.toUInt64 rfl hm
    (k := cmax.toNat + 1 - cmin.toNat) le_rfl
    (show cmin.toNat + (cmax.toNat + 1 - cmin.toNat) = cmax.toNat + 1 by omega)
  refine ⟨cc, fun turns hturns => ?_, h.congr fun c hlo hhi => ?_⟩
  · have hnlt : ¬ cmax.toUInt64 < cmin.toUInt64 := by
      rw [UInt64.lt_iff_toNat_lt]
      show ¬ cmax.toNat < cmin.toNat
      omega
    rw [choiceAlloc, if_neg hnlt]
    simp only [UInt32.toUInt32_toUInt64]
    rw [hload turns (by omega)]
    rfl
  · rw [loaded, decide_eq_true (by omega), Bool.true_and]

/-- The same with the bounds as `it_min` and `it_max` give them. -/
theorem exists_choiceAlloc (mem : ℕ → UInt8) (ccond : UInt64 → Bool) {choiceMin choiceMax : UInt64}
    (hle : choiceMin.toNat ≤ choiceMax.toNat) (hmax : choiceMax.toNat < 2 ^ 32)
    (hn : choiceMax.toNat - choiceMin.toNat + 1 ≤ 2 ^ 32 - 8)
    (hm : ∀ c : UInt64, choiceMin.toNat ≤ c.toNat → c.toNat ≤ choiceMax.toNat → ccond c = true →
      Markable (c.toNat - choiceMin.toNat)) :
    ∃ cc : ChoiceCache, (∀ turns, choiceMax.toNat + 1 < turns →
        choiceAlloc turns mem ccond choiceMin choiceMax = .ok (some (some cc))) ∧
      cc.Bits choiceMin.toNat choiceMax.toNat fun c => ccond (UInt64.ofNat c) := by
  have hmin32 : choiceMin.toUInt32.toNat = choiceMin.toNat := by
    rw [UInt64.toNat_toUInt32]
    omega
  have hmax32 : choiceMax.toUInt32.toNat = choiceMax.toNat := by
    rw [UInt64.toNat_toUInt32]
    omega
  have hmin64 : choiceMin.toUInt32.toUInt64 = choiceMin :=
    UInt64.toNat_inj.mp (by rw [UInt32.toNat_toUInt64, hmin32])
  have hmax64 : choiceMax.toUInt32.toUInt64 = choiceMax :=
    UInt64.toNat_inj.mp (by rw [UInt32.toNat_toUInt64, hmax32])
  have halloc := bits_choiceAlloc mem ccond choiceMin.toUInt32 choiceMax.toUInt32
    (UInt32.le_iff_toNat_le.mpr (by omega))
  rw [hmin32, hmax32, hmin64, hmax64] at halloc
  exact halloc hn hm

/-- In a shorter range every choice can be marked. -/
theorem markable_of_lt {c : ℕ} (hlt : hi - lo + 1 < 2 ^ 31) (hlo : lo ≤ c) (hhi : c ≤ hi) :
    Markable (c - lo) := Or.inl (by omega)

/-! ## The search -/

/-- The bits of the bytes of a bitmap of `n` elements. -/
def padded (n : ℕ) : ℕ := 8 * ((n + 7) / 8)

/-- The result of the search from position `cur` on: a choice, or that there is none. The count that
ends the search overflows where the padding reaches bit `2 ^ 31`. -/
def Found (cc : ChoiceCache) (p : ℕ → Bool) (n m cur : ℕ) (res : Except Stop (Option ℤ)) : Prop :=
  (∃ c, Least p m cur n c ∧ res = .ok (some (toInt (UInt32.ofNat c + cc.min)))) ∨
  (∀ c, ¬ Fits p m cur n c) ∧
    res = if padded n < 2 ^ 31 ∨ p (n - 1) = true then .ok (some (-1)) else .error .fault

section Runs

variable {n cur : ℕ} {p : ℕ → Bool}

/-- A run of set bits ends at the last element. -/
theorem run_set (hcur : cur < n) (hp : p cur = true) {r : ℕ}
    (hr : run (fun j => (decide (j < n) && p j) == true) (padded n - cur) cur = r) :
    0 < r ∧ cur + r ≤ n ∧ (∀ j, j < r → p (cur + j) = true) ∧ (cur + r < n → p (cur + r) = false) := by
  have hpad : n ≤ padded n := by
    unfold padded
    omega
  subst hr
  have hmem : ∀ j, j < run (fun j => (decide (j < n) && p j) == true) (padded n - cur) cur →
      cur + j < n ∧ p (cur + j) = true := fun j hj => by
    simpa using of_lt_run hj
  refine ⟨run_pos (by simp [hcur, hp]) (by omega), ?_, fun j hj => (hmem j hj).2, fun hlt => ?_⟩
  · by_contra hgt
    exact absurd (hmem (n - cur) (by omega)).1 (by omega)
  · have hend := eq_false_of_run
      (p := fun j => (decide (j < n) && p j) == true) (i := cur) (k := padded n - cur) (by omega)
    rw [decide_eq_true hlt, Bool.true_and] at hend
    simpa using hend

/-- A run of clear bits ends at a set bit, or behind the padding. -/
theorem run_clear (hcur : cur < n) (hp : p cur = false) {r : ℕ}
    (hr : run (fun j => (decide (j < n) && p j) == false) (padded n - cur) cur = r) :
    0 < r ∧ (∀ j, j < r → cur + j < n → p (cur + j) = false) ∧
      (cur + r < n ∧ p (cur + r) = true ∨ cur + r = padded n) := by
  have hpad : n ≤ padded n := by
    unfold padded
    omega
  subst hr
  have hle := run_le (fun j => (decide (j < n) && p j) == false) (padded n - cur) cur
  refine ⟨run_pos (by simp [hp]) (by omega), fun j hj hlt => ?_, ?_⟩
  · have hclear := of_lt_run hj
    simpa [hlt] using hclear
  · by_cases hlt : run (fun j => (decide (j < n) && p j) == false) (padded n - cur) cur <
      padded n - cur
    · left
      have hend := eq_false_of_run hlt
      simpa using hend
    · right
      omega

end Runs

/-- Where the positions up to `cur'` cannot hold an interval, the search goes on from there. -/
theorem Found.of_skip {p : ℕ → Bool} {n m cur cur' : ℕ} {res : Except Stop (Option ℤ)}
    (hskip : ∀ c, Fits p m cur n c ↔ Fits p m cur' n c) (h : Found cc p n m cur' res) :
    Found cc p n m cur res := by
  rcases h with ⟨c, hc, hres⟩ | ⟨hnone, hres⟩
  · exact Or.inl ⟨c, (least_congr hskip).mpr hc, hres⟩
  · exact Or.inr ⟨fun c hc => hnone c ((hskip c).mp hc), hres⟩

theorem found_findLoop {n : ℕ} {p : ℕ → Bool} (h : cc.bmp.Holds n p) {minCount : UInt32}
    (hm : 0 < minCount.toNat) (turns : ℕ) {cur : ℕ} (hcur : cur < n) (hturns : n - cur ≤ turns) :
    Found cc p n minCount.toNat cur (cc.findLoop minCount turns cur) := by
  have hn := h.lt
  have hsize : toInt cc.bmp.size = n := h.size ▸ toInt_of_lt (h.size.symm ▸ hn)
  induction turns generalizing cur with
  | zero => omega
  | succ turns ih =>
    have hofInt : (UInt32.ofInt (cur : ℤ)).toNat = cur := by
      rw [ofInt_natCast]
      exact UInt32.toNat_ofNat_of_lt' (show cur < 2 ^ 32 by omega)
    have hin : (UInt32.ofInt (cur : ℤ)).toNat < n := hofInt.symm ▸ hcur
    have hnone : ∀ c, ¬ Fits p minCount.toNat n n c := fun c hc => by
      have hge := hc.ge
      have hle := hc.le
      omega
    rw [findLoop, h.isSet hin, ok_bind, hofInt]
    cases hp : p cur with
    | true =>
      have hcount := h.countContig true hin
      rw [hofInt] at hcount
      generalize hr : run _ (8 * ((n + 7) / 8) - cur) cur = r at hcount
      obtain ⟨hpos, hle, hall, hend⟩ := run_set hcur hp hr
      rw [if_pos (show r < 2 ^ 31 by omega)] at hcount
      simp only [if_true, bmpCountContigSet, hcount, ok_bind, true_and]
      by_cases hfit : minCount.toNat ≤ r
      · rw [if_pos hfit, ofInt_natCast]
        exact Or.inl ⟨cur, least_self hall hfit (by omega), rfl⟩
      · have hskip := fun c => fits_skip_short (c := c) (not_le.mp hfit) hend
        rw [if_neg hfit, addInt_natCast (by omega), ok_bind, hsize]
        refine Found.of_skip hskip ?_
        by_cases hlt : cur + r < n
        · rw [if_pos (by exact_mod_cast hlt)]
          exact ih hlt (by omega)
        · obtain rfl : n = cur + r := by omega
          have hlast : p (cur + r - 1) = true := by
            have hj := hall (r - 1) (by omega)
            rwa [← Nat.add_sub_assoc hpos] at hj
          rw [if_neg (by omega)]
          exact Or.inr ⟨hnone, (if_pos (Or.inr hlast)).symm⟩
    | false =>
      have hcount := h.countContig false hin
      rw [hofInt] at hcount
      generalize hr : run _ (8 * ((n + 7) / 8) - cur) cur = r at hcount
      obtain ⟨hpos, hall, hend⟩ := run_clear hcur hp hr
      simp only [Bool.false_eq_true, if_false, bmpCountContigAvail, hcount, false_and]
      rcases hend with ⟨hlt, -⟩ | hend
      · have hskip : ∀ c, Fits p minCount.toNat cur n c ↔ Fits p minCount.toNat (cur + r) n c :=
          fun c => fits_skip_false hm fun j hj => hall j hj (by omega)
        rw [if_pos (show r < 2 ^ 31 by omega), ok_bind, addInt_natCast (by omega), ok_bind, hsize,
          if_pos (by exact_mod_cast hlt)]
        exact Found.of_skip hskip (ih hlt (by omega))
      · -- no choice is left, and the count has gone on over the padding
        have hpad : n ≤ padded n := by
          unfold padded
          omega
        have hskip : ∀ c, Fits p minCount.toNat cur n c ↔
            Fits p minCount.toNat (cur + (n - cur)) n c :=
          fun c => fits_skip_false hm fun j hj => hall j (by omega) (by omega)
        have hlast := hall (n - 1 - cur) (by omega) (by omega)
        rw [Nat.add_sub_cancel' (by omega)] at hlast hskip
        refine Or.inr ⟨fun c hc => hnone c ((hskip c).mp hc), ?_⟩
        by_cases hover : padded n < 2 ^ 31
        · rw [if_pos (show r < 2 ^ 31 by omega), ok_bind, addInt_natCast (by omega), ok_bind, hsize,
            if_neg (by omega), if_pos (Or.inl hover)]
          rfl
        · have hno : ¬ (padded n < 2 ^ 31 ∨ p (n - 1) = true) := by
            rw [hlast]
            exact fun hor => hor.elim hover Bool.false_ne_true
          rw [if_neg hno]
          by_cases hr31 : r < 2 ^ 31
          · rw [if_pos hr31, ok_bind, addInt_overflow (by omega)]
            rfl
          · rw [if_neg hr31]
            rfl

/-- A search for no choices finds what one for a single choice finds. -/
theorem findLoop_zero {n : ℕ} {p : ℕ → Bool} (h : cc.bmp.Holds n p) (turns : ℕ) {cur : ℕ}
    (hcur : cur < n) : cc.findLoop 0 turns cur = cc.findLoop 1 turns cur := by
  have hn := h.lt
  have hsize : toInt cc.bmp.size = n := h.size ▸ toInt_of_lt (h.size.symm ▸ hn)
  induction turns generalizing cur with
  | zero => rfl
  | succ turns ih =>
    have hofInt : (UInt32.ofInt (cur : ℤ)).toNat = cur := by
      rw [ofInt_natCast]
      exact UInt32.toNat_ofNat_of_lt' (show cur < 2 ^ 32 by omega)
    have hin : (UInt32.ofInt (cur : ℤ)).toNat < n := hofInt.symm ▸ hcur
    have hone : (1 : UInt32).toNat = 1 := rfl
    rw [findLoop, findLoop, h.isSet hin, ok_bind, ok_bind, hofInt]
    cases hp : p cur with
    | true =>
      have hcount := h.countContig true hin
      rw [hofInt] at hcount
      generalize hr : run _ (8 * ((n + 7) / 8) - cur) cur = r at hcount
      obtain ⟨hpos, hle, -⟩ := run_set hcur hp hr
      rw [if_pos (show r < 2 ^ 31 by omega)] at hcount
      simp only [if_true, bmpCountContigSet, hcount, ok_bind, true_and]
      have hfit : (0 : UInt32).toNat ≤ r ∧ (1 : UInt32).toNat ≤ r := by
        rw [hone]
        exact ⟨Nat.zero_le r, hpos⟩
      rw [if_pos hfit.1, if_pos hfit.2]
    | false =>
      have hcount := h.countContig false hin
      rw [hofInt] at hcount
      simp only [Bool.false_eq_true, if_false, bmpCountContigAvail, hcount, false_and]
      generalize (if run _ _ _ < 2 ^ 31 then _ else _ : Except Stop ℕ) = count
      -- both go on alike
      cases count with
      | error e => rw [error_bind, error_bind]
      | ok r =>
        rw [ok_bind, ok_bind]
        by_cases hlt : cur + r < n
        · rw [addInt_natCast (by omega), ok_bind, ok_bind, hsize, ih hlt]
        · cases hsum : addInt (cur : ℤ) (r : ℤ) with
          | error e => rw [error_bind, error_bind]
          | ok next =>
            have hnext := eq_of_addInt hsum
            rw [ok_bind, ok_bind, hsize, if_neg (by omega), if_neg (by omega)]

/-- The result of the search, in terms of the choices. -/
theorem Holds.findAvail (h : cc.Holds lo hi free) (offset minCount : UInt32)
    (hlo : lo ≤ offset.toNat) (hhi : offset.toNat ≤ hi) (hm : 0 < minCount.toNat) {turns : ℕ}
    (hturns : hi + 2 ≤ turns) :
    (∃ c, Least free minCount.toNat offset.toNat (hi + 1) c ∧
      cc.choiceFindAvail turns offset minCount = .ok (some (toInt (UInt32.ofNat c)))) ∨
    (∀ c, ¬ Fits free minCount.toNat offset.toNat (hi + 1) c) ∧
      cc.choiceFindAvail turns offset minCount =
        if free hi = true ∨ hi - lo + 1 ≤ 2 ^ 31 - 8 then .ok (some (-1)) else .error .fault := by
  have hmin := h.min
  have hlen := h.bmp.lt
  have hccmin : cc.min ≤ offset := UInt32.le_iff_toNat_le.mpr (hmin.symm ▸ hlo)
  have hccmax : offset ≤ cc.max := UInt32.le_iff_toNat_le.mpr (h.max.symm ▸ hhi)
  have hsub : (offset - cc.min).toNat = offset.toNat - lo := by
    rw [UInt32.toNat_sub_of_le _ _ hccmin, hmin]
  have hbase : toInt (offset - cc.min) = ((offset.toNat - lo : ℕ) : ℤ) := by
    rw [toInt_of_lt (by omega), hsub]
  have hrun : cc.choiceFindAvail turns offset minCount =
      cc.findLoop minCount turns ((offset.toNat - lo : ℕ) : ℤ) := by
    rw [choiceFindAvail, fslAssert_of hccmin, ok_bind, fslAssert_of hccmax, ok_bind, hbase]
  have hoff : lo + (offset.toNat - lo) = offset.toNat := by omega
  have hend : lo + (hi - lo + 1) = hi + 1 := by omega
  have hfound := found_findLoop h.bmp hm turns (show offset.toNat - lo < _ by omega) (by omega)
  rw [hrun]
  rcases hfound with ⟨c, hc, hres⟩ | ⟨hnone, hres⟩
  · have hleast := least_add lo hc
    rw [hoff, hend] at hleast
    refine Or.inl ⟨lo + c, hleast, ?_⟩
    have hsum : UInt32.ofNat c + cc.min = UInt32.ofNat (lo + c) := by
      refine UInt32.toNat_inj.mp ?_
      rw [UInt32.toNat_add, hmin, UInt32.toNat_ofNat', UInt32.toNat_ofNat']
      omega
    rw [hres, hsum]
  · refine Or.inr ⟨fun c hc => ?_, ?_⟩
    · obtain ⟨d, rfl⟩ : ∃ d, c = lo + d := ⟨c - lo, by have := hc.ge; omega⟩
      refine hnone d ((fits_add lo).mpr ?_)
      rw [hoff, hend]
      exact hc
    · have hlast : lo + (hi - lo + 1 - 1) = hi := by omega
      have hpad : padded (hi - lo + 1) < 2 ^ 31 ↔ hi - lo + 1 ≤ 2 ^ 31 - 8 := by
        unfold padded
        omega
      rw [hres]
      refine if_congr ?_ rfl rfl
      dsimp only
      rw [hpad, hlast]
      exact or_comm

/-- The same for a search for no choices. -/
theorem Holds.findAvail_zero (h : cc.Holds lo hi free) {offset : UInt32} (hlo : lo ≤ offset.toNat)
    (hhi : offset.toNat ≤ hi) {turns : ℕ} :
    cc.choiceFindAvail turns offset 0 = cc.choiceFindAvail turns offset 1 := by
  have hmin := h.min
  have hlen := h.bmp.lt
  have hccmin : cc.min ≤ offset := UInt32.le_iff_toNat_le.mpr (hmin.symm ▸ hlo)
  have hsub : (offset - cc.min).toNat = offset.toNat - lo := by
    rw [UInt32.toNat_sub_of_le _ _ hccmin, hmin]
  have hbase : toInt (offset - cc.min) = ((offset.toNat - lo : ℕ) : ℤ) := by
    rw [toInt_of_lt (by omega), hsub]
  rw [choiceFindAvail, choiceFindAvail, hbase, findLoop_zero h.bmp turns (by omega)]

end ChoiceCache

/-! ## Searches -/

/-- A cache of the choices from `cmin` to `cmax`, marks of some of them, and a search. -/
structure Search where
  mem : ℕ → UInt8
  ccond : UInt64 → Bool
  cmin : UInt32
  cmax : UInt32
  ops : List MarkOp
  offset : UInt32
  minCount : UInt32
  le : cmin ≤ cmax
  size_lt : cmax.toNat - cmin.toNat + 1 < 2 ^ 31
  ops_mem : ∀ op ∈ ops, cmin.toNat ≤ op.choice.toNat ∧ op.choice.toNat ≤ cmax.toNat
  offset_mem : cmin ≤ offset ∧ offset ≤ cmax
  minCount_pos : 0 < minCount.toNat

namespace Search

open ChoiceCache

variable (s : Search)

/-- The choices that satisfy the condition, with the marks that have been made since. -/
def free : ℕ → Bool := s.ops.foldl MarkOp.effect fun c => s.ccond (UInt64.ofNat c)

/-- From choice `c` on there are `minCount` free ones. -/
def FreeAt (c : ℕ) : Prop := Fits s.free s.minCount.toNat s.offset.toNat (s.cmax.toNat + 1) c

/-- What the search has to return. -/
def IsAnswer (r : ℤ) : Prop :=
  (∃ c, s.FreeAt c ∧ (∀ c', s.FreeAt c' → c ≤ c') ∧ r = c) ∨ (∀ c, ¬ s.FreeAt c) ∧ r = -1

/-- Loading the cache ends and marks free the choices that satisfy the condition; the search ends
with the answer. -/
def Exact : Prop :=
  ∃ cc cc' r enough,
    (∀ turns, enough ≤ turns →
      choiceAlloc turns s.mem s.ccond s.cmin.toUInt64 s.cmax.toUInt64 = .ok (some (some cc))) ∧
    (∀ c : UInt64, s.cmin.toNat ≤ c.toNat → c.toNat ≤ s.cmax.toNat →
      cc.choiceIsFree c = .ok (s.ccond c)) ∧
    MarkOp.applyAll s.ops cc = .ok cc' ∧
    (∀ turns, enough ≤ turns → cc'.choiceFindAvail turns s.offset s.minCount = .ok (some r)) ∧
    s.IsAnswer r

/-- There is an answer below `2 ^ 31`, or there is none and the last choice is free or the range is
not the longest. -/
def Safe : Prop :=
  (∃ c, c < 2 ^ 31 ∧ s.FreeAt c) ∨
  (∀ c, ¬ s.FreeAt c) ∧
    (s.free s.cmax.toNat = true ∨ s.cmax.toNat - s.cmin.toNat + 1 ≤ 2 ^ 31 - 8)

theorem exists_cache : ∃ cc cc' : ChoiceCache,
    (∀ turns, s.cmax.toNat + 2 ≤ turns →
      choiceAlloc turns s.mem s.ccond s.cmin.toUInt64 s.cmax.toUInt64 = .ok (some (some cc))) ∧
    (∀ c : UInt64, s.cmin.toNat ≤ c.toNat → c.toNat ≤ s.cmax.toNat →
      cc.choiceIsFree c = .ok (s.ccond c)) ∧
    MarkOp.applyAll s.ops cc = .ok cc' ∧ cc'.Holds s.cmin.toNat s.cmax.toNat s.free := by
  have hmark : ∀ c, s.cmin.toNat ≤ c → c ≤ s.cmax.toNat → Markable (c - s.cmin.toNat) :=
    fun c hlo hhi => markable_of_lt s.size_lt hlo hhi
  have hsize := s.size_lt
  obtain ⟨cc, halloc, h⟩ := bits_choiceAlloc s.mem s.ccond _ _ s.le (by omega)
    fun c hlo hhi _ => hmark c.toNat hlo hhi
  obtain ⟨cc', hops, h'⟩ := h.applyAll fun op hop =>
    ⟨(s.ops_mem op hop).1, (s.ops_mem op hop).2, hmark _ (s.ops_mem op hop).1 (s.ops_mem op hop).2⟩
  refine ⟨cc, cc', fun turns hturns => halloc turns hturns, fun c hlo hhi => ?_, hops,
    h'.holds s.size_lt⟩
  rw [h.isFree hlo hhi, UInt64.ofNat_toNat]

variable {s}

/-- The result of the search, in terms of the choices. -/
theorem run_choiceFindAvail {cc : ChoiceCache} (h : cc.Holds s.cmin.toNat s.cmax.toNat s.free)
    {turns : ℕ} (hturns : s.cmax.toNat + 2 ≤ turns) :
    (∃ c, s.FreeAt c ∧ (∀ c', s.FreeAt c' → c ≤ c') ∧
      cc.choiceFindAvail turns s.offset s.minCount = .ok (some (toInt (UInt32.ofNat c)))) ∨
    (∀ c, ¬ s.FreeAt c) ∧ cc.choiceFindAvail turns s.offset s.minCount =
      if s.free s.cmax.toNat = true ∨ s.cmax.toNat - s.cmin.toNat + 1 ≤ 2 ^ 31 - 8 then
        .ok (some (-1)) else .error .fault := by
  have hlo := UInt32.le_iff_toNat_le.mp s.offset_mem.1
  have hhi := UInt32.le_iff_toNat_le.mp s.offset_mem.2
  rcases h.findAvail _ _ hlo hhi s.minCount_pos hturns with ⟨c, hc, hres⟩ | hnone
  · exact Or.inl ⟨c, hc.1, hc.2, hres⟩
  · exact Or.inr hnone

/-- The choice that is returned as an `int` is itself below `2 ^ 31`. -/
theorem toInt_ofNat_iff {c : ℕ} (hc : s.FreeAt c) : toInt (UInt32.ofNat c) = c ↔ c < 2 ^ 31 := by
  have hle := hc.le
  have hpos := s.minCount_pos
  have hlt := s.cmax.toNat_lt
  have hnat : (UInt32.ofNat c).toNat = c :=
    UInt32.toNat_ofNat_of_lt' (show c < 2 ^ 32 by omega)
  have hcases := toInt_cases (UInt32.ofNat c)
  rw [hnat] at hcases
  omega

theorem exact_of (hsafe : s.Safe) : s.Exact := by
  obtain ⟨cc, cc', halloc, hfree, hops, h⟩ := s.exists_cache
  rcases hsafe with ⟨c, hlt, hc⟩ | ⟨hnone, hlast⟩
  · obtain ⟨c₀, hc₀, hle⟩ := hc.exists_least
    refine ⟨cc, cc', c₀, _, halloc, hfree, hops, fun turns hturns => ?_,
      Or.inl ⟨c₀, hc₀.1, hc₀.2, rfl⟩⟩
    rcases run_choiceFindAvail h hturns with ⟨c₁, hc₁, hmin₁, hres⟩ | ⟨hnone, -⟩
    · obtain rfl : c₁ = c₀ := le_antisymm (hmin₁ _ hc₀.1) (hc₀.2 _ hc₁)
      rw [hres, (toInt_ofNat_iff hc₁).mpr (by omega)]
    · exact absurd hc (hnone c)
  · refine ⟨cc, cc', -1, _, halloc, hfree, hops, fun turns hturns => ?_, Or.inr ⟨hnone, rfl⟩⟩
    rcases run_choiceFindAvail h hturns with ⟨c₁, hc₁, -, -⟩ | ⟨-, hres⟩
    · exact absurd hc₁ (hnone c₁)
    · rw [hres, if_pos hlast]

theorem not_exact_of (hsafe : ¬ s.Safe) : ¬ s.Exact := by
  rintro ⟨cc, cc', r, enough, halloc, -, hops, hfind, hanswer⟩
  obtain ⟨cc₀, cc₀', halloc₀, -, hops₀, h⟩ := s.exists_cache
  have hcc := (halloc (max enough (s.cmax.toNat + 2)) (le_max_left _ _)).symm.trans
    (halloc₀ _ (le_max_right _ _))
  obtain rfl : cc = cc₀ := Option.some.inj (Option.some.inj (Except.ok.inj hcc))
  obtain rfl : cc' = cc₀' := Except.ok.inj (hops.symm.trans hops₀)
  have hrun := hfind (max enough (s.cmax.toNat + 2)) (le_max_left _ _)
  rcases run_choiceFindAvail h (le_max_right enough _) with ⟨c, hc, hmin, hres⟩ | ⟨hnone, hres⟩
  · rw [hres] at hrun
    have hr : toInt (UInt32.ofNat c) = r := Option.some.inj (Except.ok.inj hrun)
    rcases hanswer with ⟨c₁, hc₁, hmin₁, rfl⟩ | ⟨hnone, -⟩
    · obtain rfl : c₁ = c := le_antisymm (hmin₁ _ hc) (hmin _ hc₁)
      exact hsafe (Or.inl ⟨c₁, (toInt_ofNat_iff hc).mp hr, hc⟩)
    · exact hnone c hc
  · have hlast : ¬ (s.free s.cmax.toNat = true ∨
        s.cmax.toNat - s.cmin.toNat + 1 ≤ 2 ^ 31 - 8) := fun hlast => hsafe (Or.inr ⟨hnone, hlast⟩)
    rw [hres, if_neg hlast] at hrun
    cases hrun

/-- The search is exact where there is an answer below `2 ^ 31`, and where there is none unless it
counts the padding behind a range of more than `2 ^ 31 - 8` choices. -/
theorem exact_iff (s : Search) : s.Exact ↔ s.Safe :=
  ⟨fun h => by_contra fun hsafe => not_exact_of hsafe h, exact_of⟩

/-- The only choice is `2 ^ 31`, and it is free. -/
def sampleHigh : Search where
  mem _ := 0
  ccond _ := true
  cmin := 0x80000000
  cmax := 0x80000000
  ops := []
  offset := 0x80000000
  minCount := 1
  le := by decide
  size_lt := by decide
  ops_mem _ h := absurd h List.not_mem_nil
  offset_mem := by decide
  minCount_pos := by decide

/-- The free choice `2 ^ 31` is returned as a negative `int`. -/
theorem not_exact_sampleHigh : ¬ sampleHigh.Exact := by
  refine not_exact_of ?_
  rintro (⟨c, hlt, hc⟩ | ⟨hnone, -⟩)
  · have hge : 2 ^ 31 ≤ c := hc.ge
    omega
  · exact hnone (2 ^ 31) ⟨le_rfl, le_rfl, fun _ _ _ => rfl⟩

end Search

end Fsl
