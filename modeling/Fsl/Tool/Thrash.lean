import Fsl.Tool.RelType

/-!
# The thrash-copy tool

`tool/thrashcopy.c` relocates blocks toward the end of the disk. A cursor goes down from the last choice;
a block is moved to the free choice at the cursor if that lies behind the block.
-/

namespace Fsl.Thrash

open Bitmap RelType
open Defrag (Halt onChoices onChoices_ok)

/-- The variables of the file, the world, and how often the choices have been loaded. -/
structure State (W : Type) where
  world : W
  ccache : Option ChoiceCache
  refreshCount : ℤ
  cursor : ℤ
  loads : ℕ

variable {W T : Type}

section Code

-- `ti_phys_offset`
variable (poff : T → UInt64) (ch : Choices W) (turns : ℕ)

/-- `choice_alloc`, and the cursor at `choice_max`; `NULL` is dereferenced there. -/
def loadChoices (s : State W) : Except Halt (Option (State W)) := do
  match ← ch.alloc turns s.world s.loads with
  | none => return none
  | some none => throw .fault
  | some (some cc) =>
    return some { s with ccache := some cc, cursor := cc.max.toNat, loads := s.loads + 1 }

/-- `cache_refresh` -/
def cacheRefresh (s : State W) : Except Halt (Option (State W)) := do
  match ← loadChoices ch turns s with
  | none => return none
  | some s => return some { s with refreshCount := ← onChoices (addInt s.refreshCount 1) }

/-- The loop of `choice_find`, with the cursor where it stops. The cursor is compared without sign. -/
def findLoop (cc : ChoiceCache) : ℕ → ℤ → Except Halt (Option (Option UInt64 × ℤ))
  | 0, _ => return none
  | rounds + 1, cursor =>
    if cc.min.toUInt64 ≤ UInt64.ofInt cursor then do
      if !(← onChoices (cc.choiceIsFree (UInt64.ofInt cursor))) then findLoop cc rounds (cursor - 1)
      else return some (some (UInt64.ofInt cursor), cursor)
    else return some (none, cursor)

/-- `choice_find`, with `MAX_REFRESH` of 40. -/
def choiceFind (s : State W) : Except Halt (Option (UInt64 × State W)) :=
  if s.refreshCount = 40 then return some (-1, s)
  else
    match s.ccache with
    | none => throw .fault
    | some cc => do
      match ← findLoop cc turns s.cursor with
      | none => return none
      | some (some found, cursor) => return some (found, { s with cursor := cursor })
      | some (none, cursor) =>
        match ← cacheRefresh ch turns { s with cursor := cursor } with
        | none => return none
        | some s => return some (-1, s)

/-- The end of `swap_rel_sel`, with its assertions. -/
def takeChoice (rel : RttReloc W T) (t : T) (selV : UInt32) (found : UInt64) (s : State W) :
    Except Halt (Option (State W)) :=
  match rel.relocate s.world t selV found.toUInt32 with
  | none => throw .missing
  | some w =>
    match s.ccache with
    | none => throw .fault
    | some cc => do
      let cc ← onChoices (cc.choiceMarkAlloc found)
      let isFree ← onChoices (cc.choiceIsFree found)
      onChoices (fslAssert (isFree = false))
      return some { s with world := w, ccache := some cc }

/-- `swap_rel_sel` -/
def swapRelSel (rel : RttReloc W T) (t : T) (selV : UInt32) (s : State W) :
    Except Halt (Option (State W)) := do
  match ← choiceFind ch turns s with
  | none => return none
  | some (found, s) =>
    if found = -1 then return some s
    else
      match rel.choice s.world found with
      | none => return some s
      | some u => if poff u ≤ poff t then return some s else takeChoice rel t selV found s

/-- The start of `do_rel_type`. -/
def load (s : State W) : Except Halt (Option (State W)) :=
  match s.ccache with
  | some _ => return some s
  | none => loadChoices ch turns s

/-- The tool. -/
def tool : Tool (State W) W T where
  world := State.world
  load := load ch
  swapRelSel := swapRelSel poff ch

end Code

/-! ## Runs -/

/-- The state between two relocations: an invariant of the world, and a cache, if there is one, that only
offers choices that are available, with the cursor at one of them or right before the first. -/
structure Ready (ch : Choices W) (I : W → Prop) (s : State W) : Prop where
  inv : I s.world
  count : 0 ≤ s.refreshCount ∧ s.refreshCount ≤ 40
  cache : ∀ cc, s.ccache = some cc → ch.Offers s.world cc
  cursor : s.ccache.isSome → (ch.choiceMin.toNat : ℤ) ≤ s.cursor + 1 ∧ s.cursor ≤ ch.choiceMax.toNat

/-- The same when the choices have been loaded. -/
structure Loaded (ch : Choices W) (I : W → Prop) (s : State W) : Prop extends Ready ch I s where
  loaded : s.ccache.isSome

/-- The moves that the tool makes: to a choice that lies behind the instance. -/
def Behind (poff : T → UInt64) (rel : RttReloc W T) (w : W) (t : T) (c : ℕ) : Prop :=
  ∃ u, rel.choice w (UInt64.ofNat c) = some u ∧ poff t < poff u

section Run

variable {poff : T → UInt64} {ch : Choices W} {I : W → Prop} {s : State W} {cc : ChoiceCache} {w : W}

theorem exists_loadChoices (hb : ch.Bounded) (hinv : I s.world)
    (hcount : 0 ≤ s.refreshCount ∧ s.refreshCount ≤ 40) : ∃ s', Loaded ch I s' ∧
      s'.world = s.world ∧ s'.refreshCount = s.refreshCount ∧
      ∀ turns, ch.choiceMax.toNat + 2 ≤ turns → loadChoices ch turns s = .ok (some s') := by
  obtain ⟨cc, hoffers, halloc⟩ := Choices.exists_alloc hb s.world s.loads
  have hle := hb.le
  have hmax : cc.max.toNat = ch.choiceMax.toNat := by
    obtain ⟨free, hcc, -⟩ := hoffers
    exact hcc.max
  refine ⟨⟨s.world, some cc, s.refreshCount, cc.max.toNat, s.loads + 1⟩,
    ⟨⟨hinv, hcount, fun _ heq => Option.some.inj heq ▸ hoffers, fun _ => ?_⟩, rfl⟩, rfl, rfl,
    fun turns hturns => ?_⟩
  · show (ch.choiceMin.toNat : ℤ) ≤ (cc.max.toNat : ℤ) + 1 ∧ (cc.max.toNat : ℤ) ≤ ch.choiceMax.toNat
    omega
  · rw [loadChoices, halloc turns hturns]
    rfl

theorem ends_load (hb : ch.Bounded) (h : Ready ch I s) :
    Ends (ch.choiceMax.toNat + 2) (fun turns => load ch turns s) (Loaded ch I) := by
  cases hcc : s.ccache with
  | some cc =>
    refine .of_eq ⟨h, by rw [hcc]; rfl⟩ fun turns _ => ?_
    rw [load, hcc]
    rfl
  | none =>
    obtain ⟨s', hs', -, -, hload⟩ := exists_loadChoices hb h.inv h.count
    refine .of_eq hs' fun turns hturns => ?_
    rw [load, hcc]
    exact hload turns hturns

/-- The cursor goes down to an available choice, or past the first one. -/
theorem exists_findLoop (hb : ch.Bounded) (hmin : 1 ≤ ch.choiceMin.toNat) (h : ch.Offers w cc) (k : ℕ)
    (hk : k ≤ ch.choiceMax.toNat) (hlo : ch.choiceMin.toNat ≤ k + 1) :
    ∃ (r : Option ℕ) (k' : ℕ), ch.choiceMin.toNat ≤ k' + 1 ∧ k' ≤ k ∧
      (∀ c, r = some c → ch.Avail w c) ∧
      ∀ rounds, k + 1 < rounds → findLoop cc rounds (k : ℤ) =
        .ok (some (r.map UInt64.ofNat, (k' : ℤ))) := by
  have hccmin : cc.min.toUInt64.toNat = ch.choiceMin.toNat := by
    obtain ⟨free, hcc, -⟩ := h
    rw [UInt32.toNat_toUInt64, hcc.min]
  induction k with
  | zero =>
    have hend : ¬ cc.min.toUInt64 ≤ UInt64.ofInt ((0 : ℕ) : ℤ) := by
      rw [UInt64.le_iff_toNat_le, hccmin, Defrag.ofInt_natCast]
      show ¬ _ ≤ 0
      omega
    refine ⟨none, 0, hlo, le_rfl, fun _ hr => (nomatch hr), fun rounds hrounds => ?_⟩
    obtain ⟨rounds, rfl⟩ := Nat.exists_eq_add_of_lt hrounds
    rw [findLoop, if_neg hend]
    rfl
  | succ k ih =>
    have hnat := Choices.toNat_ofNat hb hk
    by_cases hin : ch.choiceMin.toNat ≤ k + 1
    · have hcond : cc.min.toUInt64 ≤ UInt64.ofInt ((k + 1 : ℕ) : ℤ) := by
        rw [UInt64.le_iff_toNat_le, hccmin, Defrag.ofInt_natCast, hnat]
        exact hin
      obtain ⟨free, hfree, havail⟩ := h.isFree hb hin hk
      cases free with
      | true =>
        refine ⟨some (k + 1), k + 1, by omega, le_rfl, fun _ hr => Option.some.inj hr ▸ havail rfl,
          fun rounds hrounds => ?_⟩
        obtain ⟨rounds, rfl⟩ := Nat.exists_eq_add_of_lt hrounds
        rw [findLoop, if_pos hcond, Defrag.ofInt_natCast, hfree, onChoices_ok, ok_bind]
        rfl
      | false =>
        obtain ⟨r, k', hk', hle, hr, hrun⟩ := ih (by omega) hin
        refine ⟨r, k', hk', by omega, hr, fun rounds hrounds => ?_⟩
        obtain ⟨rounds, rfl⟩ := Nat.exists_eq_add_of_lt hrounds
        rw [findLoop, if_pos hcond, Defrag.ofInt_natCast, hfree, onChoices_ok, ok_bind]
        simp only [Bool.not_false, if_true]
        rw [show ((k + 1 : ℕ) : ℤ) - 1 = (k : ℤ) by omega]
        exact hrun _ (by omega)
    · have hend : ¬ cc.min.toUInt64 ≤ UInt64.ofInt ((k + 1 : ℕ) : ℤ) := by
        rw [UInt64.le_iff_toNat_le, hccmin, Defrag.ofInt_natCast, hnat]
        exact hin
      refine ⟨none, k + 1, hlo, le_rfl, fun _ hr => (nomatch hr), fun rounds hrounds => ?_⟩
      obtain ⟨rounds, rfl⟩ := Nat.exists_eq_add_of_lt hrounds
      rw [findLoop, if_neg hend]
      rfl

/-- A call returns none or an available choice, and leaves the world alone. -/
theorem exists_choiceFind (hb : ch.Bounded) (hmin : 1 ≤ ch.choiceMin.toNat) (h : Loaded ch I s) :
    ∃ (r : UInt64) (s' : State W), Loaded ch I s' ∧ s'.world = s.world ∧
      (r = -1 ∨ ∃ c, r = UInt64.ofNat c ∧ ch.Avail s'.world c) ∧
      ∀ turns, ch.choiceMax.toNat + 2 ≤ turns → choiceFind ch turns s = .ok (some (r, s')) := by
  by_cases hlast : s.refreshCount = 40
  · refine ⟨-1, s, h, rfl, Or.inl rfl, fun turns _ => ?_⟩
    rw [choiceFind, if_pos hlast]
    rfl
  obtain ⟨cc, hcc⟩ := Option.isSome_iff_exists.mp h.loaded
  obtain ⟨hlo, hhi⟩ := h.cursor h.loaded
  obtain ⟨k, hk⟩ : ∃ k : ℕ, s.cursor = k := ⟨s.cursor.toNat, by omega⟩
  obtain ⟨r, k', hlo', hle, hr, hfind⟩ := exists_findLoop hb hmin (h.cache cc hcc) k (by omega)
    (by omega)
  have hcursor : (ch.choiceMin.toNat : ℤ) ≤ (k' : ℤ) + 1 ∧ (k' : ℤ) ≤ ch.choiceMax.toNat := by omega
  cases r with
  | some c =>
    refine ⟨UInt64.ofNat c, { s with cursor := (k' : ℤ) },
      ⟨⟨h.inv, h.count, h.cache, fun _ => hcursor⟩, h.loaded⟩, rfl, Or.inr ⟨c, rfl, hr c rfl⟩,
      fun turns hturns => ?_⟩
    rw [choiceFind, if_neg hlast]
    simp only [hcc, hk, hfind turns (by omega), ok_bind]
    rfl
  | none =>
    obtain ⟨hpos, hcount⟩ := h.count
    have hcount' : 0 ≤ s.refreshCount + 1 ∧ s.refreshCount + 1 ≤ 40 := by omega
    have hadd : addInt s.refreshCount 1 = .ok (s.refreshCount + 1) := if_pos (by omega)
    obtain ⟨s', hs', hworld, hrefresh, hload⟩ := exists_loadChoices (I := I) hb
      (s := { s with cursor := (k' : ℤ) }) h.inv h.count
    refine ⟨-1, { s' with refreshCount := s.refreshCount + 1 },
      ⟨⟨hs'.inv, hcount', hs'.cache, hs'.cursor⟩, hs'.loaded⟩, hworld, Or.inl rfl,
      fun turns hturns => ?_⟩
    rw [choiceFind, if_neg hlast]
    simp only [hk, hfind turns (by omega), ok_bind, Option.map_none, cacheRefresh, hcc] at hload ⊢
    simp only [hload turns hturns, ok_bind, hrefresh, hadd, onChoices_ok]
    rfl

/-- Where the file system keeps its promise for moves behind the instance, so does the tool. -/
theorem keeps_tool (hb : ch.Bounded) (hmin : 1 ≤ ch.choiceMin.toNat) {rel : RttReloc W T} {lo hi : ℕ}
    (hsound : ch.Sound I (Behind poff rel) rel lo hi) :
    Keeps (tool poff ch) (ch.choiceMax.toNat + 2) (Loaded ch I) rel lo hi := by
  refine ⟨hsound.lo_lt, hsound.hi_lt, fun s hs => hsound.selMin _ hs.inv,
    fun s hs => hsound.selMax _ hs.inv, fun s t j hs hlo hhi hfollow => ?_⟩
  change rel.follow s.world (UInt64.ofNat j) = some t at hfollow
  show Ends _ (fun turns => swapRelSel poff ch turns rel t (UInt32.ofNat j) s) _
  obtain ⟨r, s', hs', hworld, hr, hfind⟩ := exists_choiceFind hb hmin hs
  rcases hr with rfl | ⟨c, rfl, hc⟩
  · refine .of_eq hs' fun turns hturns => ?_
    rw [swapRelSel, hfind turns hturns, ok_bind]
    rfl
  have hmax := hb.max_lt
  have hge := hc.ge
  have hnat := Choices.toNat_ofNat hb hge
  have hne : UInt64.ofNat c ≠ -1 := fun heq => by
    have hend := congrArg UInt64.toNat heq
    rw [hnat, show (-1 : UInt64).toNat = 2 ^ 64 - 1 by decide] at hend
    omega
  cases hu : rel.choice s'.world (UInt64.ofNat c) with
  | none =>
    refine .of_eq hs' fun turns hturns => ?_
    rw [swapRelSel, hfind turns hturns, ok_bind]
    simp only [if_neg hne, hu]
    rfl
  | some u =>
    by_cases hpoff : poff u ≤ poff t
    · refine .of_eq hs' fun turns hturns => ?_
      rw [swapRelSel, hfind turns hturns, ok_bind]
      simp only [if_neg hne, hu, if_pos hpoff]
      rfl
    · rw [← hworld] at hfollow
      have hbehind : Behind poff rel s'.world t c := ⟨u, hu, UInt64.not_le.mp hpoff⟩
      obtain ⟨cc, hcc⟩ := Option.isSome_iff_exists.mp hs'.loaded
      obtain ⟨w, hrel, hw, hstays⟩ := hsound.relocate _ t j c hs'.inv hlo hhi hfollow hc hbehind
      obtain ⟨cc', hmark, hoffers, htaken⟩ := (hs'.cache cc hcc).mark hb hc hstays
      have hchoice : (UInt64.ofNat c).toUInt32 = UInt32.ofNat c := by
        refine UInt32.toNat_inj.mp ?_
        rw [UInt64.toNat_toUInt32, hnat, UInt32.toNat_ofNat']
      refine .of_eq (s := { s' with world := w, ccache := some cc' })
        ⟨⟨hw, hs'.count, fun _ heq => Option.some.inj heq ▸ hoffers, fun _ => hs'.cursor hs'.loaded⟩,
          rfl⟩ fun turns hturns => ?_
      rw [swapRelSel, hfind turns hturns, ok_bind]
      simp only [if_neg hne, hu, if_neg hpoff, takeChoice, hchoice, hrel, hcc, hmark, htaken,
        onChoices_ok, ok_bind, fslAssert_of]
      rfl

theorem ends_tool (poff : T → UInt64) (hb : ch.Bounded) (hmin : 1 ≤ ch.choiceMin.toNat)
    {insts : List (List (RttReloc W T))}
    (hsound : ∀ rels ∈ insts, ∀ rel ∈ rels, rel.relName = some "reloc" →
      ∃ lo hi, ch.Sound I (Behind poff rel) rel lo hi) {w : W} (hw : I w) :
    Ends (ch.choiceMax.toNat + 2) (fun turns => (tool poff ch).scan turns insts ⟨w, none, 0, 0, 0⟩)
      (Ready ch I) := by
  have hstart : Ready ch I ⟨w, none, 0, 0, 0⟩ :=
    ⟨hw, ⟨le_rfl, by norm_num⟩, fun _ h => (nomatch h), fun h => (nomatch h)⟩
  refine ends_scan _ (fun s hs => ends_load hb hs) (fun s (hs : Loaded ch I s) => hs.toReady)
    (fun rels hrels rel hrel hname => ?_) hstart
  obtain ⟨lo, hi, h⟩ := hsound rels hrels rel hrel hname
  exact ⟨lo, hi, keeps_tool hb hmin h⟩

/-- The tool returns from every scan, and what relocations to available choices further behind keep holds
then. -/
theorem thrash_keeps (poff : T → UInt64) (hb : ch.Bounded) (hmin : 1 ≤ ch.choiceMin.toNat)
    {insts : List (List (RttReloc W T))}
    (hsound : ∀ rels ∈ insts, ∀ rel ∈ rels, rel.relName = some "reloc" →
      ∃ lo hi, ch.Sound I (Behind poff rel) rel lo hi) {w : W} (hw : I w) :
    ∃ s, Returns (fun turns => (tool poff ch).scan turns insts ⟨w, none, 0, 0, 0⟩) s ∧
      I s.world ∧ s.refreshCount ≤ 40 := by
  obtain ⟨s, hret, hs⟩ := (ends_tool poff hb hmin hsound hw).returns
  exact ⟨s, hret, hs.inv, hs.count.2⟩

end Run

/-! ## Two blocks on four choices -/

/-- Where two blocks can be that were at choices 2 and 3. -/
structure Later (w : ℕ × ℕ) : Prop where
  apart : w.1 ≠ w.2
  first : 2 ≤ w.1 ∧ w.1 ≤ 4
  second : 3 ≤ w.2 ∧ w.2 ≤ 4

theorem sound_twoBlocks_behind : fourChoices.Sound Later (Behind id twoBlocks) twoBlocks 0 1 where
  lo_lt := by norm_num
  hi_lt := by norm_num
  selMin _ _ := rfl
  selMax _ _ := rfl
  relocate w t j c hw hlo hhi hfollow hc hbehind := by
    obtain ⟨u, hu, hlt⟩ := hbehind
    obtain rfl : u = UInt64.ofNat c := (Option.some.inj hu).symm
    obtain rfl := Option.some.inj hfollow
    have hge : c ≤ 4 := hc.ge
    obtain ⟨w', hrel, hapart, hstays⟩ := (sound_twoBlocks fun _ _ _ => True).relocate w _ j c hw.apart
      hlo hhi rfl hc trivial
    refine ⟨w', hrel, ?_, hstays⟩
    obtain rfl := Option.some.inj hrel
    have hc32 : (UInt32.ofNat c).toNat = c := UInt32.toNat_ofNat_of_lt' (show c < 2 ^ 32 by omega)
    have hfirst := hw.first
    have hsecond := hw.second
    have hlt' : (UInt64.ofNat (if UInt64.ofNat j = 0 then w.1 else w.2)).toNat < c := by
      rw [← Choices.toNat_ofNat bounded_fourChoices hc.ge]
      exact UInt64.lt_iff_toNat_lt.mp hlt
    rw [UInt64.toNat_ofNat_of_lt' (show _ < 2 ^ 64 by split <;> omega)] at hlt'
    rcases show j = 0 ∨ j = 1 by omega with rfl | rfl
    · rw [if_pos (by decide)] at hlt'
      exact ⟨hapart, by show 2 ≤ (UInt32.ofNat c).toNat ∧ (UInt32.ofNat c).toNat ≤ 4; omega, hsecond⟩
    · rw [if_neg (by decide)] at hlt'
      exact ⟨hapart, hfirst, by show 3 ≤ (UInt32.ofNat c).toNat ∧ (UInt32.ofNat c).toNat ≤ 4; omega⟩

/-- Moved toward the end, two blocks stay apart, and neither comes to lie before where it was. -/
theorem thrash_keeps_two :
    ∃ s, Returns (fun turns => (tool id fourChoices).scan turns [[twoBlocks], [twoBlocks]]
        ⟨(2, 3), none, 0, 0, 0⟩) s ∧ Later s.world ∧ s.refreshCount ≤ 40 := by
  refine thrash_keeps (I := Later) id bounded_fourChoices (by decide)
    (fun rels hrels rel hrel _ => ?_) ⟨by norm_num, by norm_num, by norm_num⟩
  have hrels' : rels = [twoBlocks] := by simpa using hrels
  rw [hrels', List.mem_singleton] at hrel
  exact ⟨0, 1, hrel ▸ sound_twoBlocks_behind⟩

end Fsl.Thrash
