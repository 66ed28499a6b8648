import Fsl.Tool.RelType

/-!
# The scatter tool

`tool/scattertool.c` relocates blocks to choices behind a random one. It only ever takes choices that
are available then, so that whatever such relocations keep holds when it is done.
-/

namespace Fsl.Scatter

open FirstFit Bitmap RelType
open Defrag (Halt onChoices onChoices_ok)

/-- The variables of the file, the world, and how often the choices have been loaded and `FSL_RAND` has
been called. `num_relocs`, an `int`, is only counted for a message and is left out. -/
structure State (W : Type) where
  world : W
  ccache : Option ChoiceCache
  refreshCount : ℤ
  loads : ℕ
  rolls : ℕ

variable {W T : Type}

/-- `rand_choice` and `choice_base`, for what `FSL_RAND` returns. -/
def choiceBase (cc : ChoiceCache) (roll : Fin (2 ^ 31)) : UInt64 :=
  (UInt32.ofNat roll.val % (cc.max - cc.min)).toUInt64 + cc.min.toUInt64

section Code

-- what `rand` of the user tool returns, at most `RAND_MAX` (`random32` of the kernel module has one bit
-- more), and the variable `frag_percent`
variable (rand : ℕ → Fin (2 ^ 31)) (fragPercent : ℤ) (ch : Choices W) (turns : ℕ)

/-- The loop of `choice_find` with so many tries left. -/
def findLoop (cc : ChoiceCache) : ℕ → ℕ → Except Halt (Option (Option UInt64 × ℕ))
  | 0, rolls => return some (none, rolls)
  | tries + 1, rolls =>
    -- a remainder by 0
    if cc.max - cc.min = 0 then throw .fault
    else do
      match ← onChoices (cc.choiceFindAvail turns (choiceBase cc (rand rolls)).toUInt32 1) with
      | none => return none
      | some k =>
        if k = -1 then findLoop cc tries (rolls + 1)
        else if !(← onChoices (cc.choiceIsFree (UInt64.ofInt k))) then findLoop cc tries (rolls + 1)
        else do
          onChoices (fslAssert (UInt32.ofInt k ≤ cc.max))
          return some (some (UInt64.ofInt k), rolls + 1)

/-- `choice_find`, with `MAX_REFRESH` of 10. -/
def choiceFind (s : State W) : Except Halt (Option (UInt64 × State W)) :=
  match s.ccache with
  | none => throw .fault
  | some cc => do
    match ← findLoop rand turns cc 11 s.rolls with
    | none => return none
    | some (some k, rolls) => return some (k, { s with rolls := rolls })
    | some (none, rolls) =>
      if s.refreshCount = 10 then return some (-1, { s with rolls := rolls })
      else do
        match ← ch.alloc turns s.world s.loads with
        | none => return none
        | some ccache => do
          let refreshCount ← onChoices (addInt s.refreshCount 1)
          return some (-1, ⟨s.world, ccache, refreshCount, s.loads + 1, rolls⟩)

/-- The end of `swap_rel_sel`. -/
def takeChoice (rel : RttReloc W T) (t : T) (selV : UInt32) (found : UInt64) (s : State W) :
    Except Halt (Option (State W)) :=
  match rel.relocate s.world t selV found.toUInt32 with
  | none => throw .missing
  | some w =>
    match s.ccache with
    | none => throw .fault
    | some cc => do
      let cc ← onChoices (cc.choiceMarkAlloc found)
      return some { s with world := w, ccache := some cc }

/-- `swap_rel_sel` -/
def swapRelSel (rel : RttReloc W T) (t : T) (selV : UInt32) (s : State W) :
    Except Halt (Option (State W)) :=
  if fragPercent < ((rand s.rolls).val % 100 : ℕ) then return some { s with rolls := s.rolls + 1 }
  else do
    match ← choiceFind rand ch turns { s with rolls := s.rolls + 1 } with
    | none => return none
    | some (found, s) => if found = -1 then return some s else takeChoice rel t selV found s

/-- The start of `do_rel_type`. -/
def load (s : State W) : Except Halt (Option (State W)) :=
  match s.ccache with
  | some _ => return some s
  | none => do
    match ← ch.alloc turns s.world s.loads with
    | none => return none
    | some ccache => return some { s with ccache := ccache, loads := s.loads + 1 }

/-- The tool. -/
def tool : Tool (State W) W T where
  world := State.world
  load := load ch
  swapRelSel := swapRelSel rand fragPercent ch

end Code

/-! ## The search -/

section Search

variable {ch : Choices W} {w : W} {cc : ChoiceCache}

/-- What a search for one choice finds. -/
theorem findAvail_cases (hb : ch.Bounded) (h : ch.Offers w cc) {base : UInt32}
    (hlo : ch.choiceMin.toNat ≤ base.toNat) (hhi : base.toNat ≤ ch.choiceMax.toNat) :
    (∃ c : ℕ, ch.Avail w c ∧ cc.choiceIsFree (UInt64.ofNat c) = .ok true ∧
      ∀ turns, ch.choiceMax.toNat + 2 ≤ turns → cc.choiceFindAvail turns base 1 = .ok (some (c : ℤ))) ∨
    ∀ turns, ch.choiceMax.toNat + 2 ≤ turns → cc.choiceFindAvail turns base 1 = .ok (some (-1)) := by
  obtain ⟨free, hcc, havail⟩ := h
  have hmax := hb.max_lt
  have hone : (1 : UInt32).toNat = 1 := rfl
  have hfind : ∀ turns, ch.choiceMax.toNat + 2 ≤ turns → _ := fun turns hturns =>
    hcc.findAvail base 1 hlo hhi (by decide) hturns
  rw [hone] at hfind
  rcases hfind _ le_rfl with ⟨c, hc, -⟩ | ⟨hnone, -⟩
  · have hge := hc.1.ge
    have hlt := hc.1.le
    have hfree : free c = true := hc.1.all c le_rfl (by omega)
    have hnat := Choices.toNat_ofNat hb (show c ≤ ch.choiceMax.toNat by omega)
    refine Or.inl ⟨c, havail c (by omega) (by omega) hfree, ?_, fun turns hturns => ?_⟩
    · rw [hcc.bits.isFree (by rw [hnat]; omega) (by rw [hnat]; omega), hnat, hfree]
    · rcases hfind turns hturns with ⟨c', hc', hres⟩ | ⟨hnone, -⟩
      · obtain rfl : c' = c := hc'.eq hc
        have hc32 : (UInt32.ofNat c').toNat = c' :=
          UInt32.toNat_ofNat_of_lt' (show c' < 2 ^ 32 by omega)
        rw [hres, toInt_of_lt (by omega), hc32]
      · exact absurd hc.1 (hnone c)
  · refine Or.inr fun turns hturns => ?_
    rcases hfind turns hturns with ⟨c', hc', -⟩ | ⟨-, hres⟩
    · exact absurd hc'.1 (hnone c')
    · rw [hres, if_pos (Or.inr hb.size_le)]

/-- The random choice is one of the range. -/
theorem choiceBase_bounds (hb : ch.Bounded) (h : ch.Offers w cc)
    (hlt : ch.choiceMin.toNat < ch.choiceMax.toNat) (roll : Fin (2 ^ 31)) :
    cc.max - cc.min ≠ 0 ∧ ch.choiceMin.toNat ≤ (choiceBase cc roll).toUInt32.toNat ∧
      (choiceBase cc roll).toUInt32.toNat ≤ ch.choiceMax.toNat := by
  obtain ⟨free, hcc, -⟩ := h
  have hmax := hb.max_lt
  have hle : cc.min ≤ cc.max := UInt32.le_iff_toNat_le.mpr (by rw [hcc.min, hcc.max]; omega)
  have hspan : (cc.max - cc.min).toNat = ch.choiceMax.toNat - ch.choiceMin.toNat := by
    rw [UInt32.toNat_sub_of_le _ _ hle, hcc.min, hcc.max]
  have hmod := Nat.mod_lt (UInt32.ofNat roll.val).toNat (show 0 < (cc.max - cc.min).toNat by omega)
  have hbase : (choiceBase cc roll).toUInt32.toNat =
      (UInt32.ofNat roll.val).toNat % (cc.max - cc.min).toNat + ch.choiceMin.toNat := by
    rw [choiceBase, UInt64.toNat_toUInt32, UInt64.toNat_add, UInt32.toNat_toUInt64, UInt32.toNat_toUInt64,
      UInt32.toNat_mod, hcc.min]
    omega
  refine ⟨fun hzero => ?_, by omega, by omega⟩
  rw [hzero] at hspan
  exact absurd hspan (show ¬ 0 = _ by omega)

theorem exists_findLoop (rand : ℕ → Fin (2 ^ 31)) (hb : ch.Bounded) (hlt : ch.choiceMin.toNat < ch.choiceMax.toNat)
    (h : ch.Offers w cc) (tries rolls : ℕ) : ∃ (r : Option ℕ) (rolls' : ℕ),
      (∀ c, r = some c → ch.Avail w c) ∧
      ∀ turns, ch.choiceMax.toNat + 2 ≤ turns → findLoop rand turns cc tries rolls =
        .ok (some (r.map UInt64.ofNat, rolls')) := by
  induction tries generalizing rolls with
  | zero => exact ⟨none, rolls, fun _ hr => (nomatch hr), fun _ _ => rfl⟩
  | succ tries ih =>
    obtain ⟨hspan, hlo, hhi⟩ := choiceBase_bounds hb h hlt (rand rolls)
    rcases findAvail_cases hb h hlo hhi with ⟨c, hc, hfree, hfind⟩ | hfind
    · have hmax := hb.max_lt
      have hge := hc.ge
      have hne : ¬ (c : ℤ) = -1 := by omega
      have hccmax : UInt32.ofInt (c : ℤ) ≤ cc.max := by
        obtain ⟨free, hcc, -⟩ := h
        rw [Bitmap.ofInt_natCast, UInt32.le_iff_toNat_le, hcc.max,
          UInt32.toNat_ofNat_of_lt' (show c < 2 ^ 32 by omega)]
        exact hge
      refine ⟨some c, rolls + 1, fun _ hr => Option.some.inj hr ▸ hc, fun turns hturns => ?_⟩
      rw [findLoop, if_neg hspan, hfind turns hturns, onChoices_ok, ok_bind]
      simp only [if_neg hne, Defrag.ofInt_natCast, hfree, onChoices_ok, ok_bind, Bool.not_true,
        Bool.false_eq_true, if_false, fslAssert_of hccmax]
      rfl
    · obtain ⟨r, rolls', hr, hrun⟩ := ih (rolls + 1)
      refine ⟨r, rolls', hr, fun turns hturns => ?_⟩
      rw [findLoop, if_neg hspan, hfind turns hturns, onChoices_ok, ok_bind]
      exact hrun turns hturns

end Search

/-! ## Runs -/

/-- The state between two relocations: an invariant of the world, and a cache, if there is one, that only
offers choices that are available. -/
structure Ready (ch : Choices W) (I : W → Prop) (s : State W) : Prop where
  inv : I s.world
  count : 0 ≤ s.refreshCount ∧ s.refreshCount ≤ 10
  cache : ∀ cc, s.ccache = some cc → ch.Offers s.world cc

/-- The same when the choices have been loaded. -/
structure Loaded (ch : Choices W) (I : W → Prop) (s : State W) : Prop extends Ready ch I s where
  loaded : s.ccache.isSome

section Run

variable {rand : ℕ → Fin (2 ^ 31)} {fragPercent : ℤ} {ch : Choices W} {I : W → Prop} {s : State W}

theorem ends_load (hb : ch.Bounded) (h : Ready ch I s) :
    Ends (ch.choiceMax.toNat + 2) (fun turns => load ch turns s) (Loaded ch I) := by
  cases hcc : s.ccache with
  | some cc =>
    refine .of_eq ⟨h, by rw [hcc]; rfl⟩ fun turns _ => ?_
    rw [load, hcc]
    rfl
  | none =>
    obtain ⟨cc, hoffers, halloc⟩ := Choices.exists_alloc hb s.world s.loads
    refine .of_eq (s := { s with ccache := some cc, loads := s.loads + 1 })
      ⟨⟨h.inv, h.count, fun _ heq => Option.some.inj heq ▸ hoffers⟩, rfl⟩ fun turns hturns => ?_
    simp only [load, hcc, halloc turns hturns, ok_bind]
    rfl

/-- A call returns none or an available choice, and leaves the world alone. -/
theorem exists_choiceFind (rand : ℕ → Fin (2 ^ 31)) (hb : ch.Bounded)
    (hlt : ch.choiceMin.toNat < ch.choiceMax.toNat) (h : Loaded ch I s) :
    ∃ (r : UInt64) (s' : State W), Loaded ch I s' ∧ s'.world = s.world ∧
      (r = -1 ∨ ∃ c, r = UInt64.ofNat c ∧ ch.Avail s'.world c) ∧
      ∀ turns, ch.choiceMax.toNat + 2 ≤ turns → choiceFind rand ch turns s = .ok (some (r, s')) := by
  obtain ⟨cc, hcc⟩ := Option.isSome_iff_exists.mp h.loaded
  obtain ⟨r, rolls, hr, hfind⟩ := exists_findLoop rand hb hlt (h.cache cc hcc) 11 s.rolls
  have hsome : ({ s with rolls := rolls } : State W).ccache.isSome := h.loaded
  have hready : Loaded ch I { s with rolls := rolls } := ⟨⟨h.inv, h.count, h.cache⟩, hsome⟩
  cases r with
  | some c =>
    refine ⟨UInt64.ofNat c, _, hready, rfl, Or.inr ⟨c, rfl, hr c rfl⟩, fun turns hturns => ?_⟩
    simp only [choiceFind, hcc, hfind turns hturns, ok_bind]
    rfl
  | none =>
    by_cases hlast : s.refreshCount = 10
    · refine ⟨-1, _, hready, rfl, Or.inl rfl, fun turns hturns => ?_⟩
      simp only [choiceFind, hcc, hfind turns hturns, ok_bind, Option.map_none, if_pos hlast]
      rfl
    · obtain ⟨cc', hoffers, halloc⟩ := Choices.exists_alloc hb s.world s.loads
      obtain ⟨hlo, hhi⟩ := h.count
      have hcount : 0 ≤ s.refreshCount + 1 ∧ s.refreshCount + 1 ≤ 10 := by omega
      have hadd : addInt s.refreshCount 1 = .ok (s.refreshCount + 1) := if_pos (by omega)
      refine ⟨-1, ⟨s.world, some cc', s.refreshCount + 1, s.loads + 1, rolls⟩,
        ⟨⟨h.inv, hcount, fun _ heq => Option.some.inj heq ▸ hoffers⟩, rfl⟩, rfl, Or.inl rfl,
        fun turns hturns => ?_⟩
      simp only [choiceFind, hcc, hfind turns hturns, ok_bind, Option.map_none, if_neg hlast,
        halloc turns hturns, hadd, onChoices_ok]
      rfl

/-- Where the file system keeps its promise, so does the tool. -/
theorem keeps_tool (hb : ch.Bounded) (hlt : ch.choiceMin.toNat < ch.choiceMax.toNat)
    {rel : RttReloc W T} {lo hi : ℕ} (hsound : ch.Sound I (fun _ _ _ => True) rel lo hi) :
    Keeps (tool rand fragPercent ch) (ch.choiceMax.toNat + 2) (Loaded ch I) rel lo hi := by
  refine ⟨hsound.lo_lt, hsound.hi_lt, fun s hs => hsound.selMin _ hs.inv,
    fun s hs => hsound.selMax _ hs.inv, fun s t j hs hlo hhi hfollow => ?_⟩
  have hrolled : Loaded ch I { s with rolls := s.rolls + 1 } :=
    ⟨⟨hs.inv, hs.count, hs.cache⟩, hs.loaded⟩
  show Ends _ (fun turns => swapRelSel rand fragPercent ch turns rel t (UInt32.ofNat j) s) _
  by_cases hfrag : fragPercent < ((rand s.rolls).val % 100 : ℕ)
  · refine .of_eq hrolled fun turns _ => ?_
    rw [swapRelSel, if_pos hfrag]
    rfl
  · obtain ⟨r, s', hs', hworld, hr, hfind⟩ := exists_choiceFind rand hb hlt hrolled
    rcases hr with rfl | ⟨c, rfl, hc⟩
    · refine .of_eq hs' fun turns hturns => ?_
      rw [swapRelSel, if_neg hfrag, hfind turns hturns, ok_bind]
      rfl
    · change rel.follow s.world (UInt64.ofNat j) = some t at hfollow
      rw [← show s'.world = s.world from hworld] at hfollow
      obtain ⟨cc, hcc⟩ := Option.isSome_iff_exists.mp hs'.loaded
      obtain ⟨w, hrel, hw, hstays⟩ := hsound.relocate _ t j c hs'.inv hlo hhi hfollow hc trivial
      obtain ⟨cc', hmark, hoffers, -⟩ := (hs'.cache cc hcc).mark hb hc hstays
      have hmax := hb.max_lt
      have hge := hc.ge
      have hnat := Choices.toNat_ofNat hb hge
      have hchoice : (UInt64.ofNat c).toUInt32 = UInt32.ofNat c := by
        refine UInt32.toNat_inj.mp ?_
        rw [UInt64.toNat_toUInt32, hnat, UInt32.toNat_ofNat']
      have hne : UInt64.ofNat c ≠ -1 := fun heq => by
        have hend := congrArg UInt64.toNat heq
        rw [hnat, show (-1 : UInt64).toNat = 2 ^ 64 - 1 by decide] at hend
        omega
      refine .of_eq (s := { s' with world := w, ccache := some cc' })
        ⟨⟨hw, hs'.count, fun _ heq => Option.some.inj heq ▸ hoffers⟩, rfl⟩ fun turns hturns => ?_
      rw [swapRelSel, if_neg hfrag, hfind turns hturns, ok_bind]
      simp only [if_neg hne, takeChoice, hchoice, hrel, hcc, hmark, onChoices_ok, ok_bind]
      rfl

theorem ends_tool (rand : ℕ → Fin (2 ^ 31)) (fragPercent : ℤ) (hb : ch.Bounded)
    (hlt : ch.choiceMin.toNat < ch.choiceMax.toNat) {insts : List (List (RttReloc W T))}
    (hsound : ∀ rels ∈ insts, ∀ rel ∈ rels, rel.relName = some "reloc" →
      ∃ lo hi, ch.Sound I (fun _ _ _ => True) rel lo hi) {w : W} (hw : I w) :
    Ends (ch.choiceMax.toNat + 2)
      (fun turns => (tool rand fragPercent ch).scan turns insts ⟨w, none, 0, 0, 0⟩) (Ready ch I) := by
  have hstart : Ready ch I ⟨w, none, 0, 0, 0⟩ := ⟨hw, ⟨le_rfl, by norm_num⟩, fun _ h => (nomatch h)⟩
  refine ends_scan _ (fun s hs => ends_load hb hs) (fun s (hs : Loaded ch I s) => hs.toReady)
    (fun rels hrels rel hrel hname => ?_) hstart
  obtain ⟨lo, hi, h⟩ := hsound rels hrels rel hrel hname
  exact ⟨lo, hi, keeps_tool hb hlt h⟩

/-- Whatever the random numbers are, the tool returns from every scan, and what relocations to available
choices keep holds then. -/
theorem scatter_keeps (rand : ℕ → Fin (2 ^ 31)) (fragPercent : ℤ) (hb : ch.Bounded)
    (hlt : ch.choiceMin.toNat < ch.choiceMax.toNat) {insts : List (List (RttReloc W T))}
    (hsound : ∀ rels ∈ insts, ∀ rel ∈ rels, rel.relName = some "reloc" →
      ∃ lo hi, ch.Sound I (fun _ _ _ => True) rel lo hi) {w : W} (hw : I w) :
    ∃ s, Returns (fun turns => (tool rand fragPercent ch).scan turns insts ⟨w, none, 0, 0, 0⟩) s ∧
      I s.world ∧ s.refreshCount ≤ 10 := by
  obtain ⟨s, hret, hs⟩ := (ends_tool rand fragPercent hb hlt hsound hw).returns
  exact ⟨s, hret, hs.inv, hs.count.2⟩

end Run

/-- Two blocks that are scattered over four choices stay apart. -/
theorem scatter_keeps_two :
    ∃ s, Returns (fun turns => (tool (fun n => Fin.ofNat _ (7 * n)) 50 fourChoices).scan turns
        [[twoBlocks], [twoBlocks]] ⟨(1, 2), none, 0, 0, 0⟩) s ∧
      s.world.1 ≠ s.world.2 ∧ s.refreshCount ≤ 10 := by
  have hapart : ((1, 2) : ℕ × ℕ).1 ≠ ((1, 2) : ℕ × ℕ).2 := by norm_num
  refine scatter_keeps (I := fun w : ℕ × ℕ => w.1 ≠ w.2) _ 50 bounded_fourChoices (by decide)
    (fun rels hrels rel hrel _ => ?_) hapart
  have hrels' : rels = [twoBlocks] := by simpa using hrels
  rw [hrels', List.mem_singleton] at hrel
  exact ⟨0, 1, hrel ▸ sound_twoBlocks _⟩

end Fsl.Scatter
