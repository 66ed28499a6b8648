import Fsl.Runtime.Choice

/-!
# The smush tool

`tool/smushtool.c` moves blocks to the first free choices. Its search gives up on a choice that lies
beyond a threshold: it loads the choices again, raises the threshold by half and starts over.
-/

namespace Fsl.Smush

open FirstFit Bitmap

/-- The choices of the `reloc` statement: the bounds that `it_min` and `it_max` give, and what the
condition says of them each time they are loaded. -/
structure Choices where
  choiceMin : UInt64
  choiceMax : UInt64
  ccond : ℕ → UInt64 → Bool
  mem : ℕ → ℕ → UInt8

/-- The variables of the file; `loads` counts how often the choices have been loaded. -/
structure State where
  ccache : ChoiceCache
  refreshCount : ℤ
  cursor : UInt64
  threshold : UInt64
  loads : ℕ

namespace Choices

variable (ch : Choices)

/-- `choice_alloc`, where `NULL` is dereferenced at once. -/
def load (turns i : ℕ) : Except Stop (Option ChoiceCache) := do
  match ← ChoiceCache.choiceAlloc turns (ch.mem i) (ch.ccond i) ch.choiceMin ch.choiceMax with
  | none => return none
  | some none => throw .fault
  | some (some cc) => return some cc

/-- The first call of `do_rel_type`. -/
def start (turns : ℕ) : Except Stop (Option State) := do
  match ← ch.load turns 0 with
  | none => return none
  | some cc =>
    return some {
      ccache := cc
      refreshCount := 0
      cursor := cc.min.toUInt64
      threshold := ((cc.max + cc.min) / 2).toUInt64
      loads := 1 }

/-- `cache_refresh` -/
def cacheRefresh (turns : ℕ) (s : State) : Except Stop (Option State) := do
  match ← ch.load turns s.loads with
  | none => return none
  | some cc => do
    let refreshCount ← addInt s.refreshCount 1
    return some { s with
      ccache := cc
      refreshCount := refreshCount
      cursor := cc.min.toUInt64
      loads := s.loads + 1 }

/-- The end of `choice_find`, with `MAX_REFRESH` of 10. -/
def findEnd (turns : ℕ) (s : State) : Except Stop (Option (UInt64 × State)) := do
  if s.refreshCount = 10 then return some (-1, s)
  else return (← ch.cacheRefresh turns s).map fun s => (-1, s)

/-- The loop of `choice_find`; there is no value before it has ended. The `int` that
`choice_find_avail` returns is compared without sign. -/
def findLoop (turns : ℕ) (ccmax : UInt64) : ℕ → State → Except Stop (Option (UInt64 × State))
  | 0, _ => return none
  | rounds + 1, s =>
    if s.cursor ≤ ccmax then do
      match ← s.ccache.choiceFindAvail turns s.cursor.toUInt32 1 with
      | none => return none
      | some k =>
        if k = -1 then findLoop turns ccmax rounds { s with cursor := s.cursor + 1 }
        else if s.threshold < UInt64.ofInt k then do
          match ← ch.cacheRefresh turns s with
          | none => return none
          | some s => findLoop turns ccmax rounds { s with
              threshold := s.threshold + s.threshold / 2
              cursor := s.cursor - (s.cursor - s.ccache.min.toUInt64) / 2 + 1 }
        else if !(← s.ccache.choiceIsFree (UInt64.ofInt k)) then
          findLoop turns ccmax rounds { s with cursor := s.cursor + 1 }
        else do
          let next ← addInt k 1
          return some (UInt64.ofInt k, { s with cursor := UInt64.ofInt next })
    else ch.findEnd turns s

/-- `choice_find` -/
def choiceFind (turns : ℕ) (s : State) : Except Stop (Option (UInt64 × State)) :=
  ch.findLoop turns s.ccache.max.toUInt64 turns s

end Choices

/-- What `swap_rel_sel` does with a choice: there is no instance at it, it lies behind the block to be
moved, or the block is moved to it. -/
inductive Use
  | missing
  | behind
  | moved

/-- The rest of `swap_rel_sel`. -/
def swap (use : Use) (found : UInt64) (s : State) : Except Stop State :=
  if found = -1 then return s
  else match use with
    | .missing => return s
    | .behind => return { s with cursor := found }
    | .moved => do return { s with ccache := ← s.ccache.choiceMarkAlloc found }

/-! ## The range -/

namespace Choices

/-- The choices can be loaded and searched without an overflow; the one behind a choice that is found is
an `int`. -/
structure Bounded (ch : Choices) : Prop where
  max_lt : ch.choiceMax.toNat < 2 ^ 31 - 1
  size_le : ch.choiceMax.toNat - ch.choiceMin.toNat + 1 ≤ 2 ^ 31 - 8

/-- What is free when the choices are loaded. -/
def free (ch : Choices) (i c : ℕ) : Bool := ch.ccond i (UInt64.ofNat c)

variable {ch : Choices}

theorem exists_load (hb : ch.Bounded) (hle : ch.choiceMin.toNat ≤ ch.choiceMax.toNat) (i : ℕ) :
    ∃ cc : ChoiceCache, (∀ turns, ch.choiceMax.toNat + 2 ≤ turns → ch.load turns i = .ok (some cc)) ∧
      cc.Holds ch.choiceMin.toNat ch.choiceMax.toNat (ch.free i) := by
  have hmax := hb.max_lt
  have hsize := hb.size_le
  obtain ⟨cc, halloc, h⟩ := ChoiceCache.exists_choiceAlloc (ch.mem i) (ch.ccond i) hle (by omega)
    (by omega) fun c hlo hhi _ => Or.inl (by omega)
  refine ⟨cc, fun turns hturns => ?_, h.holds (by omega)⟩
  rw [load, halloc turns (by omega)]
  rfl

/-- An empty range is not loaded. -/
theorem le_of_load {turns i : ℕ} {cc : ChoiceCache} (h : ch.load turns i = .ok (some cc)) :
    ch.choiceMin.toNat ≤ ch.choiceMax.toNat := by
  by_contra hlt
  have hnull : ch.choiceMax < ch.choiceMin := UInt64.lt_iff_toNat_lt.mpr (by omega)
  rw [load, ChoiceCache.choiceAlloc, if_pos hnull] at h
  cases h

end Choices

/-! ## One call -/

/-- The choices hold in the cache, and the cursor is not before them. -/
structure Ready (ch : Choices) (free : ℕ → Bool) (s : State) : Prop where
  cache : s.ccache.Holds ch.choiceMin.toNat ch.choiceMax.toNat free
  cursor : ch.choiceMin.toNat ≤ s.cursor.toNat
  count : 0 ≤ s.refreshCount

/-- The first free choice from `lo` on, if there is one, does not lie beyond `t`. -/
def Settled (free : ℕ → Bool) (lo hi t : ℕ) : Prop :=
  (∀ c, lo ≤ c → c ≤ hi → free c = false) ∨ ∃ c, lo ≤ c ∧ c ≤ hi ∧ c ≤ t ∧ free c = true

theorem settled_iff {free : ℕ → Bool} {lo hi t : ℕ} :
    Settled free lo hi t ↔ ∀ c, Least free 1 lo (hi + 1) c → c ≤ t := by
  have hone : ∀ {c}, lo ≤ c → c ≤ hi → free c = true → Fits free 1 lo (hi + 1) c := by
    intro c hlo hhi hfree
    refine ⟨hlo, by omega, fun i hge hlt => ?_⟩
    obtain rfl : i = c := by omega
    exact hfree
  constructor
  · rintro (hnone | ⟨c, hlo, hhi, hle, hfree⟩) c' hc'
    · have hlt := hc'.1.le
      have hno := hnone c' hc'.1.ge (by omega)
      rw [hc'.1.all c' le_rfl (by omega)] at hno
      cases hno
    · exact (hc'.2 c (hone hlo hhi hfree)).trans hle
  · intro h
    by_cases hex : ∃ c, lo ≤ c ∧ c ≤ hi ∧ free c = true
    · obtain ⟨c, hlo, hhi, hfree⟩ := hex
      obtain ⟨c', hc', -⟩ := (hone hlo hhi hfree).exists_least
      have hlt := hc'.1.le
      exact Or.inr ⟨c', hc'.1.ge, by omega, h c' hc', hc'.1.all c' le_rfl (by omega)⟩
    · refine Or.inl fun c hlo hhi => Bool.eq_false_iff.mpr fun hfree => hex ⟨c, hlo, hhi, hfree⟩

theorem Settled.mono {free : ℕ → Bool} {lo hi t t' : ℕ} (h : Settled free lo hi t) (ht : t ≤ t') :
    Settled free lo hi t' :=
  h.imp_right fun ⟨c, hlo, hhi, hle, hfree⟩ => ⟨c, hlo, hhi, hle.trans ht, hfree⟩

/-- The state after a refresh in the loop. -/
def restarted (cc : ChoiceCache) (s : State) : State where
  ccache := cc
  refreshCount := s.refreshCount + 1
  cursor := cc.min.toUInt64 + 1
  threshold := s.threshold + s.threshold / 2
  loads := s.loads + 1

section Call

variable {ch : Choices} {free : ℕ → Bool} {s : State} {turns : ℕ}

theorem Ready.le (h : Ready ch free s) : ch.choiceMin.toNat ≤ ch.choiceMax.toNat := h.cache.le

theorem exists_refresh (hb : ch.Bounded) (h : Ready ch free s)
    (hcount : s.refreshCount + 1 < 2 ^ 31) :
    ∃ cc : ChoiceCache, cc.Holds ch.choiceMin.toNat ch.choiceMax.toNat (ch.free s.loads) ∧
      ∀ turns, ch.choiceMax.toNat + 2 ≤ turns → ch.cacheRefresh turns s = .ok (some { s with
        ccache := cc
        refreshCount := s.refreshCount + 1
        cursor := cc.min.toUInt64
        loads := s.loads + 1 }) := by
  obtain ⟨cc, hload, hcc⟩ := ch.exists_load hb h.le s.loads
  have hpos := h.count
  refine ⟨cc, hcc, fun turns hturns => ?_⟩
  rw [Choices.cacheRefresh, hload turns hturns, ok_bind]
  show (addInt s.refreshCount 1 >>= _) = _
  rw [addInt, if_pos (by omega), ok_bind]
  rfl

/-- What the search from the cursor finds. -/
theorem findAvail_cases (hb : ch.Bounded) (h : Ready ch free s)
    (hcur : s.cursor.toNat ≤ ch.choiceMax.toNat) (hturns : ch.choiceMax.toNat + 2 ≤ turns) :
    (∃ c : ℕ, Least free 1 s.cursor.toNat (ch.choiceMax.toNat + 1) c ∧
      s.ccache.choiceFindAvail turns s.cursor.toUInt32 1 = .ok (some (c : ℤ))) ∨
    (∀ c, ¬ Fits free 1 s.cursor.toNat (ch.choiceMax.toNat + 1) c) ∧
      s.ccache.choiceFindAvail turns s.cursor.toUInt32 1 = .ok (some (-1)) := by
  have hmax := hb.max_lt
  have hcursor : s.cursor.toUInt32.toNat = s.cursor.toNat := by
    rw [UInt64.toNat_toUInt32]
    omega
  have hone : (1 : UInt32).toNat = 1 := rfl
  have hfind := h.cache.findAvail s.cursor.toUInt32 1
    (hcursor.symm ▸ h.cursor) (by omega) (by decide) hturns
  rw [hcursor, hone] at hfind
  rcases hfind with ⟨c, hc, hres⟩ | ⟨hnone, hres⟩
  · have hlt := hc.1.le
    have hnat : (UInt32.ofNat c).toNat = c :=
      UInt32.toNat_ofNat_of_lt' (show c < 2 ^ 32 by omega)
    refine Or.inl ⟨c, hc, ?_⟩
    rw [hres, toInt_of_lt (by omega), hnat]
  · refine Or.inr ⟨hnone, ?_⟩
    rw [hres, if_pos (Or.inr hb.size_le)]

/-- What a call may return: no choice, or one that is free in the cache. -/
structure Answer (ch : Choices) (free : ℕ → Bool) (r : UInt64) (s : State) : Prop where
  ready : Ready ch free s
  free_of_ne : r ≠ -1 → ch.choiceMin.toNat ≤ r.toNat ∧ r.toNat ≤ ch.choiceMax.toNat ∧
    free r.toNat = true

/-- The loop ends with an answer. -/
def Ends (ch : Choices) (s : State) : Prop :=
  ∃ r s' free, Answer ch free r s' ∧ ∃ enough, ∀ turns rounds, ch.choiceMax.toNat + 2 ≤ turns →
    enough ≤ rounds → ch.findLoop turns ch.choiceMax rounds s = .ok (some (r, s'))

/-- One round more at the front. -/
theorem Ends.of_round {s s₁ : State} (h : Ends ch s₁)
    (hround : ∀ turns rounds, ch.choiceMax.toNat + 2 ≤ turns →
      ch.findLoop turns ch.choiceMax (rounds + 1) s = ch.findLoop turns ch.choiceMax rounds s₁) :
    Ends ch s := by
  obtain ⟨r, s', free', hans, enough, hrun⟩ := h
  refine ⟨r, s', free', hans, enough + 1, fun turns rounds hturns hrounds => ?_⟩
  obtain ⟨rounds, rfl⟩ : ∃ k, rounds = k + 1 := ⟨rounds - 1, by omega⟩
  rw [hround turns rounds hturns, hrun turns rounds hturns (by omega)]

/-- Behind the last choice. -/
theorem ends_end (hb : ch.Bounded) (h : Ready ch free s) (hcur : ch.choiceMax.toNat < s.cursor.toNat)
    (hcount : s.refreshCount + 1 < 2 ^ 31) : Ends ch s := by
  have hend : ¬ s.cursor ≤ ch.choiceMax := by
    rw [UInt64.le_iff_toNat_le]
    omega
  have hloop : ∀ turns rounds, 1 ≤ rounds →
      ch.findLoop turns ch.choiceMax rounds s = ch.findEnd turns s := by
    intro turns rounds hrounds
    obtain ⟨rounds, rfl⟩ : ∃ k, rounds = k + 1 := ⟨rounds - 1, by omega⟩
    rw [Choices.findLoop, if_neg hend]
  by_cases hlast : s.refreshCount = 10
  · refine ⟨-1, s, free, ⟨h, fun hne => absurd rfl hne⟩, 1, fun turns rounds _ hrounds => ?_⟩
    rw [hloop turns rounds hrounds, Choices.findEnd, if_pos hlast]
    rfl
  · obtain ⟨cc, hcc, hrefresh⟩ := exists_refresh hb h hcount
    have hmin : cc.min.toUInt64.toNat = ch.choiceMin.toNat := hcc.min
    have hpos := h.count
    have hcount' : 0 ≤ s.refreshCount + 1 := by omega
    have hready : Ready ch (ch.free s.loads) { s with
        ccache := cc
        refreshCount := s.refreshCount + 1
        cursor := cc.min.toUInt64
        loads := s.loads + 1 } := ⟨hcc, hmin.ge, hcount'⟩
    refine ⟨-1, _, _, ⟨hready, fun hne => absurd rfl hne⟩, 1, fun turns rounds hturns hrounds => ?_⟩
    rw [hloop turns rounds hrounds, Choices.findEnd, if_neg hlast, hrefresh turns hturns]
    rfl

theorem toNat_cursor_succ (hb : ch.Bounded) (hcur : s.cursor.toNat ≤ ch.choiceMax.toNat) :
    (s.cursor + 1).toNat = s.cursor.toNat + 1 := by
  have hmax := hb.max_lt
  rw [UInt64.toNat_add]
  exact Nat.mod_eq_of_lt (show s.cursor.toNat + 1 < 2 ^ 64 by omega)

/-- No choice is free from the cursor on. -/
theorem ends_none (hb : ch.Bounded) (h : Ready ch free s) (hcount : s.refreshCount + 1 < 2 ^ 31)
    (hnone : ∀ c, ¬ Fits free 1 s.cursor.toNat (ch.choiceMax.toNat + 1) c) : Ends ch s := by
  generalize hk : ch.choiceMax.toNat + 1 - s.cursor.toNat = k
  induction k generalizing s with
  | zero => exact ends_end hb h (by omega) hcount
  | succ k ih =>
    have hcur : s.cursor.toNat ≤ ch.choiceMax.toNat := by omega
    have hsucc := toNat_cursor_succ hb hcur
    have hmin := h.cursor
    refine (ih (s := { s with cursor := s.cursor + 1 }) ⟨h.cache, by simp only [hsucc]; omega, h.count⟩
      hcount (fun c hc => hnone c ?_) (by simp only [hsucc]; omega)).of_round
      fun turns rounds hturns => ?_
    · simp only [hsucc] at hc
      exact hc.mono (Nat.le_succ _)
    · rcases findAvail_cases hb h hcur hturns with ⟨c, hc, -⟩ | ⟨-, hres⟩
      · exact absurd hc.1 (hnone c)
      · rw [Choices.findLoop, if_pos (UInt64.le_iff_toNat_le.mpr hcur), hres, ok_bind]
        rfl

/-- The round that comes to a free choice. -/
theorem findLoop_of_least (hb : ch.Bounded) (h : Ready ch free s) {c : ℕ}
    (hc : Least free 1 s.cursor.toNat (ch.choiceMax.toNat + 1) c) {rounds : ℕ}
    (hturns : ch.choiceMax.toNat + 2 ≤ turns) :
    ch.findLoop turns ch.choiceMax (rounds + 1) s =
      if s.threshold.toNat < c then (do
        match ← ch.cacheRefresh turns s with
        | none => return none
        | some s => ch.findLoop turns ch.choiceMax rounds { s with
            threshold := s.threshold + s.threshold / 2
            cursor := s.cursor - (s.cursor - s.ccache.min.toUInt64) / 2 + 1 })
      else .ok (some (UInt64.ofInt (c : ℤ), { s with cursor := UInt64.ofInt ((c + 1 : ℕ) : ℤ) })) := by
  have hmax := hb.max_lt
  have hge := hc.1.ge
  have hlt := hc.1.le
  have hmin := h.cursor
  have hnat : (UInt64.ofInt (c : ℤ)).toNat = c := toNat_ofInt_natCast (by omega)
  have hcur : s.cursor.toNat ≤ ch.choiceMax.toNat := by omega
  have hthr : s.threshold < UInt64.ofInt (c : ℤ) ↔ s.threshold.toNat < c := by
    rw [UInt64.lt_iff_toNat_lt, hnat]
  have hne : ¬ (c : ℤ) = -1 := by omega
  rcases findAvail_cases hb h hcur hturns with ⟨c', hc', hres⟩ | ⟨hnone, -⟩
  · obtain rfl : c' = c := hc'.eq hc
    rw [Choices.findLoop, if_pos (UInt64.le_iff_toNat_le.mpr hcur), hres, ok_bind]
    simp only [if_neg hne, hthr]
    by_cases hbeyond : s.threshold.toNat < c'
    · rw [if_pos hbeyond, if_pos hbeyond]
    · have hbits : s.ccache.Bits ch.choiceMin.toNat ch.choiceMax.toNat free := h.cache.bits
      have hfree := hbits.isFree (c := UInt64.ofInt (c' : ℤ)) (by rw [hnat]; omega)
        (by rw [hnat]; omega)
      rw [hnat, hc.1.all c' le_rfl (by omega)] at hfree
      rw [if_neg hbeyond, if_neg hbeyond, hfree, ok_bind]
      simp only [Bool.not_true, Bool.false_eq_true, if_false]
      show (addInt (c' : ℤ) (1 : ℕ) >>= _) = _
      rw [addInt_natCast (by omega), ok_bind]
      rfl
  · exact absurd hc.1 (hnone c)

theorem ends_found (hb : ch.Bounded) (h : Ready ch free s) {c : ℕ}
    (hc : Least free 1 s.cursor.toNat (ch.choiceMax.toNat + 1) c) (hle : c ≤ s.threshold.toNat) :
    Ends ch s := by
  have hmax := hb.max_lt
  have hge := hc.1.ge
  have hlt := hc.1.le
  have hmin := h.cursor
  have hnat : (UInt64.ofInt (c : ℤ)).toNat = c := toNat_ofInt_natCast (by omega)
  have hnext : (UInt64.ofInt ((c + 1 : ℕ) : ℤ)).toNat = c + 1 := toNat_ofInt_natCast (by omega)
  have hcursor : ch.choiceMin.toNat ≤ (UInt64.ofInt ((c + 1 : ℕ) : ℤ)).toNat := by omega
  have hready : Ready ch free { s with cursor := UInt64.ofInt ((c + 1 : ℕ) : ℤ) } :=
    ⟨h.cache, hcursor, h.count⟩
  refine ⟨UInt64.ofInt (c : ℤ), _, free, ⟨hready, fun _ => ?_⟩, 1,
    fun turns rounds hturns hrounds => ?_⟩
  · rw [hnat]
    exact ⟨by omega, by omega, hc.1.all c le_rfl (by omega)⟩
  · obtain ⟨rounds, rfl⟩ : ∃ k, rounds = k + 1 := ⟨rounds - 1, by omega⟩
    rw [findLoop_of_least hb h hc hturns, if_neg (not_lt.mpr hle)]

/-- The state after a refresh in the loop. -/
theorem findLoop_refresh {cc : ChoiceCache} (hb : ch.Bounded) (h : Ready ch free s) {c : ℕ}
    (hc : Least free 1 s.cursor.toNat (ch.choiceMax.toNat + 1) c) (hlt : s.threshold.toNat < c)
    {rounds : ℕ} (hturns : ch.choiceMax.toNat + 2 ≤ turns)
    (hrefresh : ch.cacheRefresh turns s = .ok (some { s with
        ccache := cc
        refreshCount := s.refreshCount + 1
        cursor := cc.min.toUInt64
        loads := s.loads + 1 })) :
    ch.findLoop turns ch.choiceMax (rounds + 1) s =
      ch.findLoop turns ch.choiceMax rounds (restarted cc s) := by
  have hzero : cc.min.toUInt64 - (cc.min.toUInt64 - cc.min.toUInt64) / 2 + 1 =
      cc.min.toUInt64 + 1 := by
    have hnone : (cc.min.toUInt64 - cc.min.toUInt64) / 2 = 0 := by
      rw [UInt64.sub_self]
      rfl
    rw [hnone, UInt64.sub_zero]
  rw [findLoop_of_least hb h hc hturns, if_pos hlt, hrefresh, ok_bind]
  simp only [hzero]
  rfl

/-! ## Thresholds -/

/-- The search settles after at most `j` refreshes, each of which raises the threshold. -/
def SettlesIn (ch : Choices) : ℕ → ℕ → ℕ → (ℕ → Bool) → ℕ → Prop
  | 0, t, _, free, lo => Settled free lo ch.choiceMax.toNat t
  | j + 1, t, i, _, _ => SettlesIn ch j (t + t / 2) (i + 1) (ch.free i) (ch.choiceMin.toNat + 1)

/-- The first free choice lies beyond the threshold. -/
theorem exists_beyond {lo hi t : ℕ} (h : ¬ Settled free lo hi t) :
    ∃ c, Least free 1 lo (hi + 1) c ∧ t < c := by
  rw [settled_iff] at h
  push Not at h
  exact h

theorem ready_restarted {cc : ChoiceCache} (hb : ch.Bounded) (h : Ready ch free s)
    (hcc : cc.Holds ch.choiceMin.toNat ch.choiceMax.toNat (ch.free s.loads)) :
    Ready ch (ch.free s.loads) (restarted cc s) ∧
      (restarted cc s).cursor.toNat = ch.choiceMin.toNat + 1 := by
  have hmax := hb.max_lt
  have hle := h.le
  have hpos := h.count
  have hmin : cc.min.toUInt64.toNat = ch.choiceMin.toNat := hcc.min
  have hcursor : (restarted cc s).cursor.toNat = ch.choiceMin.toNat + 1 := by
    show (cc.min.toUInt64 + 1).toNat = _
    rw [UInt64.toNat_add, hmin]
    exact Nat.mod_eq_of_lt (show ch.choiceMin.toNat + 1 < 2 ^ 64 by omega)
  exact ⟨⟨hcc, by omega, show 0 ≤ s.refreshCount + 1 by omega⟩, hcursor⟩

theorem toNat_restarted_threshold (cc : ChoiceCache) (h : s.threshold.toNat < 2 ^ 31) :
    (restarted cc s).threshold.toNat = s.threshold.toNat + s.threshold.toNat / 2 := by
  show (s.threshold + s.threshold / 2).toNat = _
  rw [UInt64.toNat_add, UInt64.toNat_div]
  exact Nat.mod_eq_of_lt (show s.threshold.toNat + s.threshold.toNat / 2 < 2 ^ 64 by omega)

theorem ends_of_settlesIn (hb : ch.Bounded) {j : ℕ} (h : Ready ch free s)
    (hcount : s.refreshCount + j + 1 < 2 ^ 31)
    (hs : SettlesIn ch j s.threshold.toNat s.loads free s.cursor.toNat) : Ends ch s := by
  have hmax := hb.max_lt
  induction j generalizing s free with
  | zero =>
    by_cases hex : ∃ c, Fits free 1 s.cursor.toNat (ch.choiceMax.toNat + 1) c
    · obtain ⟨c, hc⟩ := hex
      obtain ⟨c', hleast, -⟩ := hc.exists_least
      exact ends_found hb h hleast (settled_iff.mp hs c' hleast)
    · exact ends_none hb h (by omega) fun c hc => hex ⟨c, hc⟩
  | succ j ih =>
    by_cases hex : ∃ c, Fits free 1 s.cursor.toNat (ch.choiceMax.toNat + 1) c
    · obtain ⟨c, hc⟩ := hex
      obtain ⟨c', hleast, -⟩ := hc.exists_least
      by_cases hle : c' ≤ s.threshold.toNat
      · exact ends_found hb h hleast hle
      · have hend := hleast.1.le
        obtain ⟨cc, hcc, hrefresh⟩ := exists_refresh hb h (by omega)
        obtain ⟨hready, hcursor⟩ := ready_restarted hb h hcc
        refine (ih hready ?_ ?_).of_round fun turns rounds hturns =>
          findLoop_refresh hb h hleast (not_le.mp hle) hturns (hrefresh turns hturns)
        · show s.refreshCount + 1 + j + 1 < 2 ^ 31
          omega
        · rw [toNat_restarted_threshold cc (by omega), hcursor]
          exact hs
    · exact ends_none hb h (by omega) fun c hc => hex ⟨c, hc⟩

/-- Two refreshes double the threshold. -/
theorem settlesIn_of_pow_le (hb : ch.Bounded) {k t i lo : ℕ} (hk : k ≤ 30)
    (ht : 2 ^ (31 - k) ≤ t) : SettlesIn ch (2 * k) t i free lo := by
  have hmax := hb.max_lt
  induction k generalizing t i free lo with
  | zero =>
    refine settled_iff.mpr fun c hc => ?_
    have hend := hc.1.le
    omega
  | succ k ih =>
    have hpow : 2 ^ (31 - k) = 2 * 2 ^ (31 - (k + 1)) := by
      rw [← Nat.pow_succ']
      congr 1
      omega
    have htwo : 2 ≤ 2 ^ (31 - (k + 1)) := Nat.le_self_pow (by omega) 2
    have hdouble : 2 * t ≤ t + t / 2 + (t + t / 2) / 2 := by omega
    exact ih (by omega) (by omega)

theorem settlesIn_of_settled {j t t' i lo : ℕ} (ht : t ≤ t')
    (h : Settled (ch.free (i + j)) (ch.choiceMin.toNat + 1) ch.choiceMax.toNat t) :
    SettlesIn ch (j + 1) t' i free lo := by
  induction j generalizing t' i free lo with
  | zero => exact h.mono (ht.trans (Nat.le_add_right _ _))
  | succ j ih =>
    have hi : i + (j + 1) = i + 1 + j := by omega
    rw [hi] at h
    exact @ih (ch.free i) _ _ (ch.choiceMin.toNat + 1) (ht.trans (Nat.le_add_right _ _)) h

theorem Ends.returns (h : Ready ch free s) (hends : Ends ch s) :
    ∃ r s' free', Answer ch free' r s' ∧ Returns (fun turns => ch.choiceFind turns s) (r, s') := by
  obtain ⟨r, s', free', hans, enough, hrun⟩ := hends
  have hccmax : s.ccache.max.toUInt64 = ch.choiceMax :=
    UInt64.toNat_inj.mp (by rw [UInt32.toNat_toUInt64, h.cache.max])
  refine ⟨r, s', free', hans, max enough (ch.choiceMax.toNat + 2), fun turns hturns => ?_⟩
  show ch.findLoop turns s.ccache.max.toUInt64 turns s = _
  rw [hccmax]
  exact hrun turns turns ((le_max_right _ _).trans hturns) ((le_max_left _ _).trans hturns)

end Call

/-! ## Runs -/

/-- What the cache says of a choice. -/
def State.isFree (s : State) (c : ℕ) : Bool :=
  match s.ccache.choiceIsFree (UInt64.ofNat c) with
  | .ok free => free
  | .error _ => false

/-- The search from the cursor, or from the start after refresh `j` of the call, stays below the
threshold. -/
def Settles (ch : Choices) (s : State) : ℕ → Prop
  | 0 => Settled s.isFree s.cursor.toNat ch.choiceMax.toNat s.threshold.toNat
  | j + 1 => Settled (ch.free (s.loads + j)) (ch.choiceMin.toNat + 1) ch.choiceMax.toNat
      s.threshold.toNat

/-- The threshold grows, or some refresh comes upon choices below it; and the refreshes can be
counted. -/
structure Calm (ch : Choices) (s : State) : Prop where
  bounded : ch.Bounded
  settles : 2 ≤ s.threshold.toNat ∧ s.refreshCount + 61 < 2 ^ 31 ∨
    ∃ j : ℕ, Settles ch s j ∧ s.refreshCount + j + 1 < 2 ^ 31

/-- The states in which `choice_find` is called, when every call so far was made where `P` holds. -/
inductive Run (ch : Choices) (P : State → Prop) : State → Prop
  | start {s : State} : Returns ch.start s → Run ch P s
  | call {s s₁ s₂ : State} {r : UInt64} {use : Use} : Run ch P s → P s →
      Returns (fun turns => ch.choiceFind turns s) (r, s₁) → swap use r s₁ = .ok s₂ → Run ch P s₂

section Runs

variable {ch : Choices} {free : ℕ → Bool} {s : State}

theorem Ready.isFree_eq (h : Ready ch free s) (hb : ch.Bounded) {c : ℕ}
    (hlo : ch.choiceMin.toNat ≤ c) (hhi : c ≤ ch.choiceMax.toNat) : s.isFree c = free c := by
  have hmax := hb.max_lt
  have hnat : (UInt64.ofNat c).toNat = c := UInt64.toNat_ofNat_of_lt' (show c < 2 ^ 64 by omega)
  have hfree := h.cache.bits.isFree (c := UInt64.ofNat c) (hnat.symm ▸ hlo) (hnat.symm ▸ hhi)
  rw [State.isFree, hfree, hnat]

theorem Settled.congr {p q : ℕ → Bool} {lo hi t : ℕ} (h : ∀ c, lo ≤ c → c ≤ hi → p c = q c)
    (hs : Settled p lo hi t) : Settled q lo hi t := by
  rcases hs with hnone | ⟨c, hlo, hhi, hle, hfree⟩
  · exact Or.inl fun c hlo hhi => h c hlo hhi ▸ hnone c hlo hhi
  · exact Or.inr ⟨c, hlo, hhi, hle, h c hlo hhi ▸ hfree⟩

theorem Calm.ends (hc : Calm ch s) (h : Ready ch free s) : Ends ch s := by
  have hb := hc.bounded
  rcases hc.settles with ⟨htwo, hcount⟩ | ⟨j, hs, hcount⟩
  · refine ends_of_settlesIn (j := 2 * 30) hb h (by omega) (settlesIn_of_pow_le hb le_rfl ?_)
    simpa using htwo
  · refine ends_of_settlesIn hb h hcount ?_
    cases j with
    | zero =>
      have hmin := h.cursor
      exact Settled.congr (fun c hlo hhi => h.isFree_eq hb (by omega) hhi) hs
    | succ j => exact settlesIn_of_settled le_rfl hs

/-- The first call finds the choices loaded and the cursor at the first one. -/
theorem ready_start (hb : ch.Bounded) (h : Returns ch.start s) : Ready ch (ch.free 0) s := by
  obtain ⟨n, hn⟩ := h
  have hstart := hn (max n (ch.choiceMax.toNat + 2)) (le_max_left _ _)
  rw [Choices.start] at hstart
  obtain ⟨loaded, hload, hrest⟩ := bind_eq_ok hstart
  cases loaded with
  | none => cases hrest
  | some cc =>
    obtain ⟨cc', hload', hcc⟩ := ch.exists_load hb (ch.le_of_load hload) 0
    obtain rfl : cc = cc' :=
      Option.some.inj (Except.ok.inj (hload.symm.trans (hload' _ (le_max_right _ _))))
    obtain rfl := Option.some.inj (Except.ok.inj hrest)
    have hmin : cc.min.toUInt64.toNat = ch.choiceMin.toNat := hcc.min
    exact ⟨hcc, hmin.ge, le_rfl⟩

/-- Using a choice leaves a cache of the range. -/
theorem Answer.swap {use : Use} {r : UInt64} {s₂ : State} (hb : ch.Bounded)
    (h : Answer ch free r s) (hswap : swap use r s = .ok s₂) : ∃ free', Ready ch free' s₂ := by
  unfold Smush.swap at hswap
  by_cases hr : r = -1
  · rw [if_pos hr] at hswap
    obtain rfl := Except.ok.inj hswap
    exact ⟨free, h.ready⟩
  · obtain ⟨hlo, hhi, -⟩ := h.free_of_ne hr
    rw [if_neg hr] at hswap
    cases use with
    | missing =>
      obtain rfl := Except.ok.inj hswap
      exact ⟨free, h.ready⟩
    | behind =>
      obtain rfl := Except.ok.inj hswap
      exact ⟨free, h.ready.cache, hlo, h.ready.count⟩
    | moved =>
      have hmax := hb.max_lt
      obtain ⟨cc, happly, hcc⟩ := h.ready.cache.bits.apply ⟨false, r⟩ hlo hhi (Or.inl (by
        show r.toNat - _ < 2 ^ 31 - 1
        omega))
      have hmark : s.ccache.choiceMarkAlloc r = .ok cc := happly
      simp only [hmark, ok_bind] at hswap
      obtain rfl := Except.ok.inj hswap
      have hsize := hb.size_le
      exact ⟨_, hcc.holds (by omega), h.ready.cursor, h.ready.count⟩

theorem Run.ready (hb : ch.Bounded) (h : Run ch (Calm ch) s) : ∃ free, Ready ch free s := by
  induction h with
  | start hstart => exact ⟨_, ready_start hb hstart⟩
  | call _ hcalm hfind hswap ih =>
    obtain ⟨free, hready⟩ := ih
    obtain ⟨r', s', free', hans, hret⟩ := (hcalm.ends hready).returns hready
    obtain ⟨rfl, rfl⟩ := Prod.mk.inj (hfind.unique hret)
    exact hans.swap hb hswap

/-- In a run whose calls are calm, every calm call returns, with a choice that is free in the cache or
with none. -/
theorem choiceFind_returns (ch : Choices) {s : State} (hrun : Run ch (Calm ch) s)
    (hcalm : Calm ch s) :
    ∃ r s', Returns (fun turns => ch.choiceFind turns s) (r, s') ∧
      (r = -1 ∨ s'.ccache.choiceIsFree r = .ok true) := by
  obtain ⟨free, hready⟩ := hrun.ready hcalm.bounded
  obtain ⟨r, s', free', hans, hret⟩ := (hcalm.ends hready).returns hready
  refine ⟨r, s', hret, or_iff_not_imp_left.mpr fun hr => ?_⟩
  obtain ⟨hlo, hhi, hfree⟩ := hans.free_of_ne hr
  rw [hans.ready.cache.bits.isFree hlo hhi, hfree]

/-- Where the threshold does not grow and no search settles, the loop goes on until the counter of the
refreshes overflows. -/
theorem findLoop_ne (hb : ch.Bounded) {turns rounds : ℕ} (hturns : ch.choiceMax.toNat + 2 ≤ turns)
    (h : Ready ch free s) (ht : s.threshold.toNat < 2)
    (hnow : ¬ Settled free s.cursor.toNat ch.choiceMax.toNat s.threshold.toNat)
    (hlater : ∀ j, ¬ Settled (ch.free (s.loads + j)) (ch.choiceMin.toNat + 1) ch.choiceMax.toNat
      s.threshold.toNat) (v : UInt64 × State) :
    ch.findLoop turns ch.choiceMax rounds s ≠ .ok (some v) := by
  induction rounds generalizing s free with
  | zero =>
    rintro ⟨⟩
  | succ rounds ih =>
    obtain ⟨c, hleast, hbeyond⟩ := exists_beyond hnow
    by_cases hcount : s.refreshCount + 1 < 2 ^ 31
    · obtain ⟨cc, hcc, hrefresh⟩ := exists_refresh hb h hcount
      obtain ⟨hready, hcursor⟩ := ready_restarted hb h hcc
      have hthr : (restarted cc s).threshold.toNat = s.threshold.toNat := by
        rw [toNat_restarted_threshold cc (by omega)]
        omega
      rw [findLoop_refresh hb h hleast hbeyond hturns (hrefresh turns hturns)]
      refine ih hready (by omega) ?_ fun j => ?_
      · rw [hthr, hcursor]
        exact hlater 0
      · rw [hthr]
        have hloads : (restarted cc s).loads + j = s.loads + (j + 1) := by
          show s.loads + 1 + j = _
          omega
        rw [hloads]
        exact hlater (j + 1)
    · obtain ⟨cc, hload, -⟩ := ch.exists_load hb h.le s.loads
      have hpos := h.count
      have hover : ch.cacheRefresh turns s = .error .fault := by
        rw [Choices.cacheRefresh, hload turns hturns, ok_bind]
        show (addInt s.refreshCount 1 >>= _) = _
        rw [addInt, if_neg (by omega)]
        rfl
      rw [findLoop_of_least hb h hleast hturns, if_pos hbeyond, hover]
      rintro ⟨⟩

theorem not_returns (hb : ch.Bounded) (h : Ready ch free s) (ht : s.threshold.toNat < 2)
    (hno : ∀ j, ¬ Settles ch s j) (v : UInt64 × State) :
    ¬ Returns (fun turns => ch.choiceFind turns s) v := by
  rintro ⟨enough, hrun⟩
  have hccmax : s.ccache.max.toUInt64 = ch.choiceMax :=
    UInt64.toNat_inj.mp (by rw [UInt32.toNat_toUInt64, h.cache.max])
  have hres := hrun (max enough (ch.choiceMax.toNat + 2)) (le_max_left _ _)
  change ch.findLoop _ s.ccache.max.toUInt64 _ s = _ at hres
  rw [hccmax] at hres
  refine findLoop_ne hb (le_max_right _ _) h ht (fun hs => hno 0 ?_) (fun j => hno (j + 1)) v hres
  have hmin := h.cursor
  exact Settled.congr (fun c hlo hhi => (h.isFree_eq hb (by omega) hhi).symm) hs

end Runs

/-! ## Two ranges -/

/-- The choices from 0 to `choiceMax`, of which those that are not below `low` are free at every load. -/
def upFrom (low choiceMax : UInt64) : Choices where
  choiceMin := 0
  choiceMax := choiceMax
  ccond _ c := decide (low ≤ c)
  mem _ _ := 0

theorem exists_start {low choiceMax : UInt64} (hb : (upFrom low choiceMax).Bounded) :
    ∃ s, Returns (upFrom low choiceMax).start s ∧
      Ready (upFrom low choiceMax) ((upFrom low choiceMax).free 0) s ∧
      s.refreshCount = 0 ∧ s.cursor.toNat = 0 ∧ s.threshold.toNat = choiceMax.toNat / 2 ∧
      s.loads = 1 := by
  have hmax : choiceMax.toNat < 2 ^ 31 - 1 := hb.max_lt
  obtain ⟨cc, hload, hcc⟩ := Choices.exists_load hb (Nat.zero_le _) 0
  have hret : Returns (upFrom low choiceMax).start ⟨cc, 0, cc.min.toUInt64,
      ((cc.max + cc.min) / 2).toUInt64, 1⟩ :=
    ⟨_, fun turns hturns => by rw [Choices.start, hload turns hturns]; rfl⟩
  have hmin : cc.min.toNat = 0 := hcc.min
  have hccmax : cc.max.toNat = choiceMax.toNat := hcc.max
  refine ⟨_, hret, ready_start hb hret, rfl, hmin, ?_, rfl⟩
  show ((cc.max + cc.min) / 2).toNat = _
  rw [UInt32.toNat_div, UInt32.toNat_add, hmin, hccmax]
  show (choiceMax.toNat + 0) % 2 ^ 32 / 2 = _
  omega

theorem bounded_upFrom {low choiceMax : UInt64} (h : choiceMax.toNat < 2 ^ 31 - 8) :
    (upFrom low choiceMax).Bounded := by
  refine ⟨show choiceMax.toNat < 2 ^ 31 - 1 by omega, ?_⟩
  show choiceMax.toNat - 0 + 1 ≤ 2 ^ 31 - 8
  omega

/-- The first call on ten choices returns. -/
theorem choiceFind_returns_ten : ∃ s, Run (upFrom 7 9) (Calm (upFrom 7 9)) s ∧
    ∃ r s', Returns (fun turns => (upFrom 7 9).choiceFind turns s) (r, s') ∧
      (r = -1 ∨ s'.ccache.choiceIsFree r = .ok true) := by
  have hb : (upFrom 7 9).Bounded := bounded_upFrom (by decide)
  obtain ⟨s, hret, -, hcount, -, hthr, -⟩ := exists_start hb
  have hfour : s.threshold.toNat = 4 := hthr
  have hrun : Run (upFrom 7 9) (Calm (upFrom 7 9)) s := .start hret
  exact ⟨s, hrun, choiceFind_returns (upFrom 7 9) hrun ⟨hb, Or.inl ⟨by omega, by omega⟩⟩⟩

/-- Of the choices 0 and 1 only the second one is free. The threshold is 0, and the first call never
returns. -/
theorem not_choiceFind_returns_two : ∃ s, Run (upFrom 1 1) (fun _ => True) s ∧
    ∀ v, ¬ Returns (fun turns => (upFrom 1 1).choiceFind turns s) v := by
  have hb : (upFrom 1 1).Bounded := bounded_upFrom (by decide)
  obtain ⟨s, hret, hready, -, hcursor, hthr, -⟩ := exists_start hb
  have hzero : s.threshold.toNat = 0 := hthr
  have hfree : ∀ i c, c ≤ 1 → (upFrom 1 1).free i c = decide (1 ≤ c) := by
    intro i c hc
    interval_cases c <;> rfl
  have hbeyond : ∀ i lo, lo ≤ 1 → ¬ Settled ((upFrom 1 1).free i) lo 1 0 := by
    rintro i lo hlo (hnone | ⟨c, -, -, hle, hc⟩)
    · have hno := hnone 1 hlo le_rfl
      rw [hfree i 1 le_rfl] at hno
      cases hno
    · rw [hfree i c (by omega), decide_eq_true_iff] at hc
      omega
  refine ⟨s, .start hret, fun v => not_returns hb hready (by omega) (fun j hs => ?_) v⟩
  cases j with
  | zero =>
    have hcongr := Settled.congr (fun c _ hhi => hready.isFree_eq hb (Nat.zero_le c) hhi) hs
    rw [hzero, hcursor] at hcongr
    exact hbeyond 0 0 (Nat.zero_le 1) hcongr
  | succ j =>
    rw [Settles, hzero] at hs
    exact hbeyond _ 1 le_rfl hs

end Fsl.Smush
