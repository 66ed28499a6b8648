import Fsl.Lib.Sweep
import Fsl.Runtime.Choice

/-!
# The relocate tool

`tool/relocate.c` moves blocks onto the marked pixels of an image, which is laid over the disk. Its
search goes through the choices and the marked pixels with one cursor each, both kept between calls. A
pixel that the choices have passed is given up, and the choice is tried again on the next one.
-/

namespace Fsl.Relocate

open Bitmap

/-- The image that is laid over the disk, with a byte for each pixel. -/
structure Img where
  x : UInt32
  y : UInt32
  bmp : ℕ → UInt8
  diskBytes : UInt64

/-- The choices of the `reloc` statement: the bounds that `it_min` and `it_max` give, the condition, the
offset that `it_range` gives and whether it translates. -/
structure Choices where
  choiceMin : UInt64
  choiceMax : UInt64
  ccond : UInt64 → Bool
  mem : ℕ → UInt8
  range : UInt64 → UInt64
  xlate : UInt64 → Bool

/-- The variables of the file. -/
structure State where
  ccache : ChoiceCache
  ccacheCursor : UInt64
  relocCursor : UInt64

namespace Img

variable (im : Img)

def pixels : UInt32 := im.x * im.y

/-- `bytes_per_px`; of an image without pixels it is 0 here. -/
def bytesPerPx : UInt64 := im.diskBytes / im.pixels.toUInt64

/-- `byte_to_imgidx` -/
def byteToImgidx (inByte : UInt64) : Except Stop UInt64 :=
  -- a division by 0, here or in `bytes_per_px`
  if im.bytesPerPx = 0 then throw .fault else return inByte / im.bytesPerPx

/-- The loop of `reloc_img_advance_unchecked`, whose counter is an `int`; there is no value before it has
ended. -/
def advanceLoop : ℕ → ℤ → Except Stop (Option UInt64)
  | 0, _ => return none
  | turns + 1, i =>
    if UInt32.ofInt i < im.pixels then
      -- a byte before the pixels
      if i < 0 then throw .fault
      else if im.bmp i.toNat ≠ 0 then return some (UInt64.ofInt i)
      else do advanceLoop turns (← addInt i 1)
    else return some (-1)

/-- `reloc_img_advance_unchecked` -/
def advanceUnchecked (turns : ℕ) (relocCursor : UInt64) : Except Stop (Option UInt64) :=
  im.advanceLoop turns (toInt (relocCursor + 1).toUInt32)

/-- `reloc_img_advance` -/
def advance (turns : ℕ) (relocCursor : UInt64) : Except Stop (Option UInt64) :=
  if relocCursor = -1 then return some relocCursor else im.advanceUnchecked turns relocCursor

end Img

variable (im : Img) (ch : Choices)

/-- The start of `tool_entry`, and `ccache_load`, where `NULL` is dereferenced. -/
def start (turns : ℕ) : Except Stop (Option State) := do
  match ← im.advanceUnchecked turns (-1) with
  | none => return none
  | some relocCursor =>
    match ← ChoiceCache.choiceAlloc turns ch.mem ch.ccond ch.choiceMin ch.choiceMax with
    | none => return none
    | some none => throw .fault
    | some (some cc) => return some ⟨cc, cc.min.toUInt64, relocCursor⟩

/-- The loop of `choice_find`. -/
def findLoop (turns : ℕ) : ℕ → UInt32 → State → Except Stop (Option (UInt64 × State))
  | 0, _, _ => return none
  | rounds + 1, cur, s =>
    if cur ≤ s.ccache.max then do
      if !(← s.ccache.choiceIsFree cur.toUInt64) then findLoop turns rounds (cur + 1) s
      else do
        fslAssert (ch.xlate cur.toUInt64 = false)
        let imgidx ← im.byteToImgidx (ch.range cur.toUInt64 / 8)
        if imgidx = s.relocCursor then do
          let cc ← s.ccache.choiceMarkAlloc cur.toUInt64
          match ← im.advance turns s.relocCursor with
          | none => return none
          | some relocCursor =>
            let next := if relocCursor = -1 then cc.max + 1 else cur + 1
            return some (cur.toUInt64, ⟨cc, next.toUInt64, relocCursor⟩)
        else if s.relocCursor < imgidx then do
          match ← im.advance turns s.relocCursor with
          | none => return none
          | some relocCursor =>
            if relocCursor = -1 then
              return some (-1, ⟨s.ccache, (s.ccache.max + 1).toUInt64, relocCursor⟩)
            else findLoop turns rounds (cur - 1 + 1) { s with relocCursor := relocCursor }
        else findLoop turns rounds (cur + 1) s
    else return some (-1, s)

/-- `choice_find` -/
def choiceFind (turns : ℕ) (s : State) : Except Stop (Option (UInt64 × State)) :=
  findLoop im ch turns turns s.ccacheCursor.toUInt32 s

/-- The results of the calls so far, and the state after them. -/
inductive Calls : List UInt64 → State → Prop
  | start {s : State} : Returns (start im ch) s → Calls [] s
  | call {rs : List UInt64} {s s' : State} {r : UInt64} : Calls rs s →
      Returns (fun turns => choiceFind im ch turns s) (r, s') → Calls (rs ++ [r]) s'

/-! ## Pixels -/

namespace Img

/-- The pixel has a mark. -/
def Marked (q : ℕ) : Prop := q < im.pixels.toNat ∧ im.bmp q ≠ 0

/-- `px` is the first marked pixel from `i` on, or the end mark when there is none. -/
def First (i : ℕ) (px : UInt64) : Prop :=
  i ≤ px.toNat ∧ (px = -1 ∨ im.Marked px.toNat) ∧ ∀ q, i ≤ q → q < px.toNat → ¬ im.Marked q

/-- The `int` of the loop gets to a pixel or to the end. -/
def Counted (i : ℕ) : Prop :=
  im.pixels.toNat < 2 ^ 31 ∨ ∃ m, i ≤ m ∧ m < 2 ^ 31 ∧ im.Marked m

variable {im : Img} {i : ℕ}

theorem toNat_end : (-1 : UInt64).toNat = 2 ^ 64 - 1 := by decide

theorem Marked.lt {q : ℕ} (h : im.Marked q) : q < 2 ^ 32 := h.1.trans im.pixels.toNat_lt

theorem First.of_none (hi : i < 2 ^ 32) (h : ∀ q, i ≤ q → ¬ im.Marked q) : im.First i (-1) := by
  refine ⟨?_, Or.inl rfl, fun q hq _ => h q hq⟩
  rw [toNat_end]
  omega

theorem First.step {px : UInt64} (h : im.First (i + 1) px) (hi : ¬ im.Marked i) : im.First i px := by
  obtain ⟨hle, hpx, hgap⟩ := h
  refine ⟨by omega, hpx, fun q hq hlt => ?_⟩
  rcases hq.eq_or_lt with rfl | hgt
  · exact hi
  · exact hgap q hgt hlt

theorem exists_advanceLoop (hi : i < 2 ^ 31) (hc : im.Counted i) : ∃ px, im.First i px ∧
    ∀ turns, 2 ^ 31 < turns + i → im.advanceLoop turns i = .ok (some px) := by
  generalize hk : 2 ^ 31 - i = k
  induction k generalizing i with
  | zero => omega
  | succ k ih =>
    have hofInt : (UInt32.ofInt (i : ℤ)).toNat = i := by
      rw [ofInt_natCast]
      exact UInt32.toNat_ofNat_of_lt' (show i < 2 ^ 32 by omega)
    have hloop : ∀ turns, 2 ^ 31 < turns + i → ∃ t, turns = t + 1 ∧ 2 ^ 31 < t + (i + 1) :=
      fun turns hturns => ⟨turns - 1, by omega, by omega⟩
    by_cases hlt : i < im.pixels.toNat
    · have hin : UInt32.ofInt (i : ℤ) < im.pixels := UInt32.lt_iff_toNat_lt.mpr (hofInt.symm ▸ hlt)
      have hpos : ¬ (i : ℤ) < 0 := by omega
      by_cases hmark : im.bmp i = 0
      · have hnot : ¬ im.Marked i := fun h => h.2 hmark
        -- the counter does not overflow: there is a mark behind, or an end
        have hnext : i + 1 < 2 ^ 31 ∧ im.Counted (i + 1) := by
          rcases hc with hlow | ⟨m, hle, hm, hmarked⟩
          · exact ⟨by omega, Or.inl hlow⟩
          · have hne : i ≠ m := fun h => hnot (h ▸ hmarked)
            exact ⟨by omega, Or.inr ⟨m, by omega, hm, hmarked⟩⟩
        obtain ⟨px, hfirst, hrun⟩ := ih hnext.1 hnext.2 (by omega)
        refine ⟨px, hfirst.step hnot, fun turns hturns => ?_⟩
        obtain ⟨t, rfl, ht⟩ := hloop turns hturns
        have hadd : addInt (i : ℤ) 1 = .ok ((i + 1 : ℕ) : ℤ) := addInt_natCast hnext.1
        rw [advanceLoop, if_pos hin, if_neg hpos, Int.toNat_natCast, if_neg (not_not.mpr hmark), hadd,
          ok_bind, hrun t ht]
      · have hword : (UInt64.ofInt (i : ℤ)).toNat = i := toNat_ofInt_natCast (by omega)
        refine ⟨UInt64.ofInt (i : ℤ), ⟨hword.ge, Or.inr ?_, fun q hq hlt => by omega⟩,
          fun turns hturns => ?_⟩
        · rw [hword]
          exact ⟨hlt, hmark⟩
        · obtain ⟨t, rfl, -⟩ := hloop turns hturns
          rw [advanceLoop, if_pos hin, if_neg hpos, Int.toNat_natCast, if_pos hmark]
          rfl
    · refine ⟨-1, First.of_none (by omega) fun q hq h => ?_, fun turns hturns => ?_⟩
      · have hq' := h.1
        omega
      · obtain ⟨t, rfl, -⟩ := hloop turns hturns
        have hout : ¬ UInt32.ofInt (i : ℤ) < im.pixels := by
          rw [UInt32.lt_iff_toNat_lt, hofInt]
          exact hlt
        rw [advanceLoop, if_neg hout]
        rfl

theorem exists_advanceUnchecked (hc : im.Counted 0) :
    ∃ px, im.First 0 px ∧ ∀ turns, 2 ^ 31 < turns → im.advanceUnchecked turns (-1) = .ok (some px) := by
  obtain ⟨px, hfirst, hrun⟩ := exists_advanceLoop (by decide) hc
  have hzero : toInt ((-1 : UInt64) + 1).toUInt32 = (0 : ℕ) := by decide
  refine ⟨px, hfirst, fun turns hturns => ?_⟩
  rw [advanceUnchecked, hzero, hrun turns hturns]

/-- From a marked pixel to the next. -/
theorem exists_advance {px : UInt64} (hpx : im.Marked px.toNat) (hc : im.Counted (px.toNat + 1)) :
    ∃ px', im.First (px.toNat + 1) px' ∧
      ∀ turns, 2 ^ 31 < turns → im.advance turns px = .ok (some px') := by
  have hlt := hpx.lt
  have hstart : px.toNat + 1 < 2 ^ 31 := by
    rcases hc with hlow | ⟨m, hle, hm, -⟩
    · have hpixel := hpx.1
      omega
    · omega
  have hsucc : (px + 1).toUInt32.toNat = px.toNat + 1 := by
    have hone : (1 : UInt64).toNat = 1 := rfl
    rw [UInt64.toNat_toUInt32, UInt64.toNat_add, hone]
    omega
  have hne : px ≠ -1 := by
    rintro rfl
    rw [toNat_end] at hlt
    omega
  obtain ⟨px', hfirst, hrun⟩ := exists_advanceLoop hstart hc
  refine ⟨px', hfirst, fun turns hturns => ?_⟩
  rw [advance, if_neg hne, advanceUnchecked, toInt_of_lt (by omega), hsucc, hrun turns (by omega)]

end Img

/-! ## Choices -/

namespace Choices

variable {ch : Choices}

/-- `c` is one of the choices, and its condition holds. -/
def Free (ch : Choices) (c : ℕ) : Prop :=
  ch.choiceMin.toNat ≤ c ∧ c ≤ ch.choiceMax.toNat ∧ ch.ccond (UInt64.ofNat c) = true

/-- What is free when the choices in `out` have been given away. -/
def left (ch : Choices) (out : List ℕ) (c : ℕ) : Bool :=
  ch.ccond (UInt64.ofNat c) && decide (c ∉ out)

end Choices

/-- The pixel that a choice lies on. -/
def place (im : Img) (ch : Choices) (c : ℕ) : ℕ :=
  (ch.range (UInt64.ofNat c)).toNat / 8 / im.bytesPerPx.toNat

/-- Nothing overflows: the bitmap of the choices has its bytes and each free choice can be marked in it,
a free choice needs pixels of one byte at least, and the `int` that looks for the next mark stays below
`2 ^ 31`, where it ends at a mark beyond the free choices if not at the last pixel. -/
structure Safe (im : Img) (ch : Choices) : Prop where
  le : ch.choiceMin.toNat ≤ ch.choiceMax.toNat
  size : ch.choiceMax.toNat - ch.choiceMin.toNat + 1 ≤ 2 ^ 32 - 8
  markable : ∀ c, ch.Free c → Markable (c - ch.choiceMin.toNat)
  bytes : ∀ c, ch.Free c → im.bytesPerPx ≠ 0
  counted : im.pixels.toNat < 2 ^ 31 ∨
    ∃ m, m < 2 ^ 31 ∧ im.Marked m ∧ ∀ c, ch.Free c → place im ch c < m

/-- The choices that calls with these results have given away. -/
def found (rs : List UInt64) : List ℕ := (rs.filter fun r => r ≠ -1).map UInt64.toNat

/-- The choices given away after one more result. -/
def extend (out : List ℕ) (r : UInt64) : List ℕ := if r = -1 then out else out ++ [r.toNat]

theorem found_append (rs : List UInt64) (r : UInt64) : found (rs ++ [r]) = extend (found rs) r := by
  unfold found extend
  rw [List.filter_append, List.map_append]
  by_cases hr : r = -1
  · rw [if_pos hr, hr]
    simp
  · rw [if_neg hr]
    simp [hr]

/-- The two cursors, when the choices in `out` have been given away and the search is at choice `cur`. -/
structure At (im : Img) (ch : Choices) (out : List ℕ) (s : State) (cur : ℕ) : Prop where
  sweep : Sweep (fun c => ch.ccond (UInt64.ofNat c) = true) im.Marked (place im ch)
    ch.choiceMin.toNat ch.choiceMax.toNat out cur s.relocCursor.toNat
  cache : s.ccache.Bits ch.choiceMin.toNat ch.choiceMax.toNat (ch.left out)
  mark : s.relocCursor = -1 ∨ im.Marked s.relocCursor.toNat
  lo_le : ch.choiceMin.toNat ≤ cur
  le : cur ≤ ch.choiceMax.toNat + 1

/-- The state between two calls. -/
def Ready (im : Img) (ch : Choices) (out : List ℕ) (s : State) : Prop :=
  At im ch out s s.ccacheCursor.toNat

/-- What a call that began at pixel `px` leaves. A choice that it returns lies on the pixel that the mark
had come to, and the mark has gone on from there. -/
structure Done (im : Img) (ch : Choices) (out : List ℕ) (px : UInt64) (r : UInt64) (s : State) : Prop where
  ready : Ready im ch (extend out r) s
  mono : px.toNat ≤ s.relocCursor.toNat
  last : r = -1 → ∀ c, ch.Free c → place im ch c < s.relocCursor.toNat
  fresh : r ≠ -1 → ch.Free r.toNat ∧ r.toNat ∉ out
  current : r ≠ -1 → im.Marked (place im ch r.toNat) ∧ px.toNat ≤ place im ch r.toNat ∧
    im.First (place im ch r.toNat + 1) s.relocCursor

section Loop

variable {im : Img} {ch : Choices} {out : List ℕ} {s : State} {cur : UInt32}

theorem place_lt (im : Img) (ch : Choices) (c : ℕ) : place im ch c < 2 ^ 61 := by
  have hlt := (ch.range (UInt64.ofNat c)).toNat_lt
  have hle : place im ch c ≤ (ch.range (UInt64.ofNat c)).toNat / 8 := Nat.div_le_self _ _
  omega

/-- The rounds that are left end with a result. -/
def Ends (im : Img) (ch : Choices) (out : List ℕ) (s : State) (cur : UInt32) : Prop :=
  ∃ r s', Done im ch out s.relocCursor r s' ∧ ∃ enough, ∀ turns rounds, 2 ^ 31 < turns →
    enough ≤ rounds → findLoop im ch turns rounds cur s = .ok (some (r, s'))

/-- One round more at the front, in which the mark may have gone on. -/
theorem Ends.of_round {s₁ : State} {cur₁ : UInt32} (h : Ends im ch out s₁ cur₁)
    (hmono : s.relocCursor.toNat ≤ s₁.relocCursor.toNat)
    (hround : ∀ turns rounds, 2 ^ 31 < turns →
      findLoop im ch turns (rounds + 1) cur s = findLoop im ch turns rounds cur₁ s₁) :
    Ends im ch out s cur := by
  obtain ⟨r, s', hdone, enough, hrun⟩ := h
  refine ⟨r, s', ⟨hdone.ready, hmono.trans hdone.mono, hdone.last, hdone.fresh, fun hr => ?_⟩,
    enough + 1, fun turns rounds hturns hrounds => ?_⟩
  · obtain ⟨hmark, hle, hfirst⟩ := hdone.current hr
    exact ⟨hmark, hmono.trans hle, hfirst⟩
  · obtain ⟨rounds, rfl⟩ : ∃ k, rounds = k + 1 := ⟨rounds - 1, by omega⟩
    rw [hround turns rounds hturns, hrun turns rounds hturns (by omega)]

/-- A round that returns. -/
theorem Ends.of_last (r : UInt64) (s' : State) (hdone : Done im ch out s.relocCursor r s')
    (hround : ∀ turns rounds, 2 ^ 31 < turns →
      findLoop im ch turns (rounds + 1) cur s = .ok (some (r, s'))) : Ends im ch out s cur := by
  refine ⟨r, s', hdone, 1, fun turns rounds hturns hrounds => ?_⟩
  obtain ⟨rounds, rfl⟩ : ∃ k, rounds = k + 1 := ⟨rounds - 1, by omega⟩
  exact hround turns rounds hturns

/-- A look at a choice in the cache. -/
theorem At.isFree (h : At im ch out s cur.toNat) (hle : cur.toNat ≤ ch.choiceMax.toNat) :
    s.ccache.choiceIsFree cur.toUInt64 = .ok (ch.ccond cur.toUInt64) := by
  have hnot : cur.toNat ∉ out := fun hmem => lt_irrefl _ (h.sweep.range _ hmem).2.2
  have hres := h.cache.isFree (c := cur.toUInt64) h.lo_le hle
  rw [hres, Choices.left, UInt32.toNat_toUInt64, UInt64.ofNat_uInt32ToNat, decide_eq_true hnot, Bool.and_true]

theorem At.free (h : At im ch out s cur.toNat) (hle : cur.toNat ≤ ch.choiceMax.toNat)
    (hfree : ch.ccond cur.toUInt64 = true) : ch.Free cur.toNat :=
  ⟨h.lo_le, hle, (congrArg ch.ccond (UInt64.ofNat_uInt32ToNat cur)).trans hfree⟩

theorem le_max (h : At im ch out s cur.toNat) : cur ≤ s.ccache.max ↔ cur.toNat ≤ ch.choiceMax.toNat := by
  rw [UInt32.le_iff_toNat_le, h.cache.max]

/-- The state that the end of the loop leaves unchanged is again one between two calls. -/
theorem At.ready (h : At im ch out s cur.toNat) (hlo : ch.choiceMin.toNat ≤ s.ccacheCursor.toNat)
    (hle : s.ccacheCursor.toNat ≤ cur.toNat) (hout : ∀ c ∈ out, c < s.ccacheCursor.toNat) :
    Ready im ch out s :=
  ⟨h.sweep.back hle hout, h.cache, h.mark, hlo, hle.trans h.le⟩

theorem ends_end (h : At im ch out s cur.toNat) (hlo : ch.choiceMin.toNat ≤ s.ccacheCursor.toNat)
    (hle : s.ccacheCursor.toNat ≤ cur.toNat) (hout : ∀ c ∈ out, c < s.ccacheCursor.toNat)
    (hend : ch.choiceMax.toNat < cur.toNat) : Ends im ch out s cur := by
  refine Ends.of_last (-1) s ⟨h.ready hlo hle hout, le_rfl, fun _ c hc => ?_,
    fun hne => absurd rfl hne, fun hne => absurd rfl hne⟩ fun turns rounds _ => ?_
  · exact h.sweep.passed c hc.1 hc.2.1 (hc.2.1.trans_lt hend) hc.2.2
  · rw [findLoop, if_neg (mt (le_max h).mp (not_le.mpr hend))]
    rfl

/-- The pixel of a choice, as the loop computes it. -/
def imgidx (im : Img) (ch : Choices) (cur : UInt32) : UInt64 :=
  ch.range cur.toUInt64 / 8 / im.bytesPerPx

theorem toNat_imgidx : (imgidx im ch cur).toNat = place im ch cur.toNat := by
  rw [imgidx, place, UInt64.ofNat_uInt32ToNat, UInt64.toNat_div, UInt64.toNat_div]
  rfl

/-- A choice that is not free. -/
theorem findLoop_skip (h : At im ch out s cur.toNat) (hle : cur.toNat ≤ ch.choiceMax.toNat)
    (hfree : ch.ccond cur.toUInt64 = false) (turns rounds : ℕ) :
    findLoop im ch turns (rounds + 1) cur s = findLoop im ch turns rounds (cur + 1) s := by
  rw [findLoop, if_pos ((le_max h).mpr hle), h.isFree hle, hfree]
  rfl

/-- A free choice is compared with the mark. -/
theorem findLoop_free (h : At im ch out s cur.toNat) (hle : cur.toNat ≤ ch.choiceMax.toNat)
    (hfree : ch.ccond cur.toUInt64 = true) (hbytes : im.bytesPerPx ≠ 0)
    (hx : ch.xlate cur.toUInt64 = false) (turns rounds : ℕ) :
    findLoop im ch turns (rounds + 1) cur s =
      if imgidx im ch cur = s.relocCursor then do
        let cc ← s.ccache.choiceMarkAlloc cur.toUInt64
        match ← im.advance turns s.relocCursor with
        | none => return none
        | some relocCursor =>
          let next := if relocCursor = -1 then cc.max + 1 else cur + 1
          return some (cur.toUInt64, ⟨cc, next.toUInt64, relocCursor⟩)
      else if s.relocCursor < imgidx im ch cur then do
        match ← im.advance turns s.relocCursor with
        | none => return none
        | some relocCursor =>
          if relocCursor = -1 then
            return some (-1, ⟨s.ccache, (s.ccache.max + 1).toUInt64, relocCursor⟩)
          else findLoop im ch turns rounds (cur - 1 + 1) { s with relocCursor := relocCursor }
      else findLoop im ch turns rounds (cur + 1) s := by
  have hidx : im.byteToImgidx (ch.range cur.toUInt64 / 8) = .ok (imgidx im ch cur) :=
    if_neg hbytes
  rw [findLoop, if_pos ((le_max h).mpr hle), h.isFree hle, hfree, ok_bind, Bool.not_true,
    if_neg Bool.false_ne_true, fslAssert_of hx, ok_bind, hidx, ok_bind]

variable (hmax : ch.choiceMax.toNat < 2 ^ 32 - 1)

include hmax in
theorem toNat_cur_succ (hle : cur.toNat ≤ ch.choiceMax.toNat) : (cur + 1).toNat = cur.toNat + 1 := by
  have hone : (1 : UInt32).toNat = 1 := rfl
  rw [UInt32.toNat_add, hone]
  omega

include hmax in
theorem toNat_max_succ (h : At im ch out s cur.toNat) :
    (s.ccache.max + 1).toUInt64.toNat = ch.choiceMax.toNat + 1 := by
  have hone : (1 : UInt32).toNat = 1 := rfl
  rw [UInt32.toNat_toUInt64, UInt32.toNat_add, h.cache.max, hone]
  omega

/-- The mark goes on from a pixel that a free choice lies on or beyond. -/
theorem exists_advance (hs : Safe im ch) (h : At im ch out s cur.toNat)
    (hfree : ch.Free cur.toNat) (hle : s.relocCursor.toNat ≤ place im ch cur.toNat) :
    ∃ px, im.Marked s.relocCursor.toNat ∧ im.First (s.relocCursor.toNat + 1) px ∧
      ∀ turns, 2 ^ 31 < turns → im.advance turns s.relocCursor = .ok (some px) := by
  have hplace := place_lt im ch cur.toNat
  have hmark : im.Marked s.relocCursor.toNat := by
    rcases h.mark with hend | hmark
    · rw [hend, Img.toNat_end] at hle
      omega
    · exact hmark
  have hcount : im.Counted (s.relocCursor.toNat + 1) := by
    rcases hs.counted with hlow | ⟨m, hm, hmarked, hbeyond⟩
    · exact Or.inl hlow
    · exact Or.inr ⟨m, hle.trans_lt (hbeyond _ hfree), hm, hmarked⟩
  obtain ⟨px, hfirst, hrun⟩ := Img.exists_advance hmark hcount
  exact ⟨px, hmark, hfirst, hrun⟩

theorem left_append (c : ℕ) : ch.left (out ++ [c]) = Function.update (ch.left out) c false := by
  funext c'
  by_cases hc : c' = c
  · rw [hc, Function.update_self, Choices.left, decide_eq_false, Bool.and_false]
    exact fun hnot => hnot (List.mem_append_right _ (List.mem_singleton_self c))
  · rw [Function.update_of_ne hc, Choices.left, Choices.left]
    congr 1
    refine decide_eq_decide.mpr ?_
    simp [hc]

include hmax in
/-- A free choice on the marked pixel. -/
theorem ends_take (hs : Safe im ch) (h : At im ch out s cur.toNat)
    (hle : cur.toNat ≤ ch.choiceMax.toNat) (hfree : ch.ccond cur.toUInt64 = true)
    (hx : ch.xlate cur.toUInt64 = false) (hplace : place im ch cur.toNat = s.relocCursor.toNat) :
    Ends im ch out s cur := by
  have hcfree := h.free hle hfree
  obtain ⟨px, hmark, hfirst, hadv⟩ := exists_advance hs h hcfree hplace.ge
  obtain ⟨cc, hmarked, hcc⟩ := h.cache.apply ⟨false, cur.toUInt64⟩ hcfree.1 hle (hs.markable _ hcfree)
  have hleft : MarkOp.effect (ch.left out) ⟨false, cur.toUInt64⟩ = ch.left (out ++ [cur.toNat]) :=
    (left_append cur.toNat).symm
  rw [hleft] at hcc
  have hccmax : cc.max = s.ccache.max := UInt32.toNat_inj.mp (hcc.max.trans h.cache.max.symm)
  have hidx : imgidx im ch cur = s.relocCursor := UInt64.toNat_inj.mp (toNat_imgidx.trans hplace)
  have hr : cur.toUInt64 ≠ -1 := by
    intro heq
    have hlt := cur.toNat_lt
    rw [← UInt32.toNat_toUInt64, heq, Img.toNat_end] at hlt
    omega
  have hextend : extend out cur.toUInt64 = out ++ [cur.toNat] := if_neg hr
  have hgap : ∀ q, s.relocCursor.toNat < q → q < px.toNat → ¬ im.Marked q :=
    fun q hgt hlt => hfirst.2.2 q hgt hlt
  have hsweep := h.sweep.take h.lo_le hle hcfree.2.2 hplace hmark hfirst.1 hgap
  have hlo := h.lo_le
  refine Ends.of_last cur.toUInt64
    ⟨cc, (if px = -1 then cc.max + 1 else cur + 1).toUInt64, px⟩ ⟨?_, ?_, ?_, ?_, ?_⟩ ?_
  · rw [hextend]
    by_cases hend : px = -1
    · -- nothing is left to do: the search does not start again
      have hcur := toNat_max_succ hmax h
      rw [Ready, if_pos hend, hccmax, hcur]
      refine ⟨hsweep.finish (by omega) fun c _ _ _ => ?_, hcc, hfirst.2.1, by omega, le_rfl⟩
      have hlt := place_lt im ch c
      rw [hend, Img.toNat_end]
      omega
    · have hcur := toNat_cur_succ hmax hle
      rw [Ready, if_neg hend, UInt32.toNat_toUInt64, hcur]
      exact ⟨hsweep, hcc, hfirst.2.1, by omega, by omega⟩
  · exact Nat.le_of_succ_le hfirst.1
  · exact fun heq => absurd heq hr
  · exact fun _ => ⟨hcfree, fun hmem => lt_irrefl _ (h.sweep.range _ hmem).2.2⟩
  · intro _
    rw [UInt32.toNat_toUInt64, hplace]
    exact ⟨hmark, le_rfl, hfirst⟩
  · intro turns rounds hturns
    have halloc : s.ccache.choiceMarkAlloc cur.toUInt64 = .ok cc := hmarked
    rw [findLoop_free h hle hfree (hs.bytes _ hcfree) hx, if_pos hidx, halloc, ok_bind,
      hadv turns hturns]
    rfl

include hmax in
/-- A free choice beyond the marked pixel, which is given up. -/
theorem ends_miss (hs : Safe im ch) (h : At im ch out s cur.toNat)
    (hle : cur.toNat ≤ ch.choiceMax.toNat) (hfree : ch.ccond cur.toUInt64 = true)
    (hx : ch.xlate cur.toUInt64 = false) (hbeyond : s.relocCursor.toNat < place im ch cur.toNat)
    (hnext : ∀ px, im.First (s.relocCursor.toNat + 1) px → px ≠ -1 →
      At im ch out { s with relocCursor := px } cur.toNat →
      Ends im ch out { s with relocCursor := px } cur) : Ends im ch out s cur := by
  have hcfree := h.free hle hfree
  have hlo := h.lo_le
  obtain ⟨px, hmark, hfirst, hadv⟩ := exists_advance hs h hcfree hbeyond.le
  have hne : imgidx im ch cur ≠ s.relocCursor := by
    intro heq
    rw [← toNat_imgidx, heq] at hbeyond
    exact lt_irrefl _ hbeyond
  have hlt : s.relocCursor < imgidx im ch cur := by
    rw [UInt64.lt_iff_toNat_lt, toNat_imgidx]
    exact hbeyond
  have hgap : ∀ q, s.relocCursor.toNat < q → q < px.toNat → ¬ im.Marked q :=
    fun q hgt hqlt => hfirst.2.2 q hgt hqlt
  have hsweep := h.sweep.miss h.lo_le hle hbeyond hfirst.1 hgap
  have hround := findLoop_free h hle hfree (hs.bytes _ hcfree) hx
  by_cases hend : px = -1
  · have hcur := toNat_max_succ hmax h
    have hall : ∀ c, place im ch c < px.toNat := fun c => by
      have hclt := place_lt im ch c
      rw [hend, Img.toNat_end]
      omega
    refine Ends.of_last (-1) ⟨s.ccache, (s.ccache.max + 1).toUInt64, px⟩
      ⟨?_, Nat.le_of_succ_le hfirst.1, fun _ c _ => hall c, fun hr => absurd rfl hr,
        fun hr => absurd rfl hr⟩ fun turns rounds hturns => ?_
    · show At im ch out _ (s.ccache.max + 1).toUInt64.toNat
      rw [hcur]
      exact ⟨hsweep.finish (by omega) fun c _ _ _ => hall c, h.cache, hfirst.2.1, by omega, le_rfl⟩
    · rw [hround, if_neg hne, if_pos hlt, hadv turns hturns, ok_bind]
      exact if_pos hend
  · refine (hnext px hfirst hend ⟨hsweep, h.cache, hfirst.2.1, h.lo_le, h.le⟩).of_round
      (Nat.le_of_succ_le hfirst.1) fun turns rounds hturns => ?_
    rw [hround, if_neg hne, if_pos hlt, hadv turns hturns, ok_bind, UInt32.sub_add_cancel]
    exact if_neg hend

/-- The choices that are left, and the marked pixels. -/
def rest (im : Img) (ch : Choices) (s : State) (cur : UInt32) : ℕ :=
  (ch.choiceMax.toNat + 1 - cur.toNat) + (im.pixels.toNat - s.relocCursor.toNat)

include hmax in
/-- The loop ends: each round passes a choice or a marked pixel. -/
theorem ends_loop (hs : Safe im ch)
    (hx : ∀ c : UInt64, ch.choiceMin ≤ c → c ≤ ch.choiceMax → ch.xlate c = false)
    (h : At im ch out s cur.toNat) (hlo : ch.choiceMin.toNat ≤ s.ccacheCursor.toNat)
    (hle : s.ccacheCursor.toNat ≤ cur.toNat) (hout : ∀ c ∈ out, c < s.ccacheCursor.toNat) :
    Ends im ch out s cur := by
  generalize hk : rest im ch s cur = k
  induction k using Nat.strong_induction_on generalizing s cur with
  | _ k ih =>
    by_cases hin : cur.toNat ≤ ch.choiceMax.toNat
    · have hcur := toNat_cur_succ hmax hin
      have hnextlo := h.lo_le
      -- a round that goes on to the next choice
      have hskip : (ch.ccond (UInt64.ofNat cur.toNat) = true →
            place im ch cur.toNat < s.relocCursor.toNat) →
          (∀ turns rounds, 2 ^ 31 < turns → findLoop im ch turns (rounds + 1) cur s =
            findLoop im ch turns rounds (cur + 1) s) → Ends im ch out s cur := by
        intro hpass hround
        have hsweep := h.sweep.skip hpass
        rw [← hcur] at hsweep
        refine (ih (rest im ch s (cur + 1)) ?_
          ⟨hsweep, h.cache, h.mark, by omega, by omega⟩ hlo (by omega) hout rfl).of_round le_rfl hround
        rw [← hk, rest, rest, hcur]
        omega
      cases hfree : ch.ccond cur.toUInt64 with
      | false =>
        refine hskip (fun htrue => ?_) fun turns rounds _ => findLoop_skip h hin hfree turns rounds
        rw [UInt64.ofNat_uInt32ToNat, hfree] at htrue
        cases htrue
      | true =>
        have hcx : ch.xlate cur.toUInt64 = false :=
          hx _ (UInt64.le_iff_toNat_le.mpr h.lo_le) (UInt64.le_iff_toNat_le.mpr hin)
        rcases lt_trichotomy (place im ch cur.toNat) s.relocCursor.toNat with hlt | heq | hgt
        · have hne : imgidx im ch cur ≠ s.relocCursor := by
            intro heq
            rw [← toNat_imgidx, heq] at hlt
            exact lt_irrefl _ hlt
          have hnlt : ¬ s.relocCursor < imgidx im ch cur := by
            rw [UInt64.lt_iff_toNat_lt, toNat_imgidx]
            exact hlt.not_gt
          refine hskip (fun _ => hlt) fun turns rounds _ => ?_
          rw [findLoop_free h hin hfree (hs.bytes _ (h.free hin hfree)) hcx, if_neg hne, if_neg hnlt]
        · exact ends_take hmax hs h hin hfree hcx heq
        · refine ends_miss hmax hs h hin hfree hcx hgt fun px hfirst hend hat => ?_
          refine ih _ ?_ hat hlo hle hout rfl
          have hmark := (hfirst.2.1.resolve_left hend).1
          have hstep := hfirst.1
          rw [← hk, rest, rest]
          show _ + (im.pixels.toNat - px.toNat) < _
          omega
    · exact ends_end h hlo hle hout (by omega)

end Loop

/-! ## Calls -/

section Calls

variable {im : Img} {ch : Choices} {out : List ℕ} {rs : List UInt64} {s : State}

/-- A call returns. -/
theorem Ready.choiceFind (hmax : ch.choiceMax.toNat < 2 ^ 32 - 1) (hs : Safe im ch)
    (hx : ∀ c : UInt64, ch.choiceMin ≤ c → c ≤ ch.choiceMax → ch.xlate c = false)
    (h : Ready im ch out s) : ∃ r s', Done im ch out s.relocCursor r s' ∧
      Returns (fun turns => choiceFind im ch turns s) (r, s') := by
  have hle := h.le
  have hcursor : s.ccacheCursor.toUInt32.toNat = s.ccacheCursor.toNat := by
    rw [UInt64.toNat_toUInt32]
    omega
  obtain ⟨r, s', hdone, enough, hrun⟩ := ends_loop hmax hs hx
    (show At im ch out s s.ccacheCursor.toUInt32.toNat from hcursor.symm ▸ h) h.lo_le hcursor.ge fun c hc => (h.sweep.range c hc).2.2
  exact ⟨r, s', hdone, max enough (2 ^ 31 + 1), fun turns hturns => hrun turns turns (by omega) (by omega)⟩

/-- The start of the tool returns. -/
theorem exists_start (hmax : ch.choiceMax.toNat < 2 ^ 32 - 1) (hs : Safe im ch) :
    ∃ s, Ready im ch [] s ∧ Returns (start im ch) s := by
  have hle := hs.le
  obtain ⟨cc, halloc, hcc⟩ := ChoiceCache.exists_choiceAlloc ch.mem ch.ccond hle (by omega) hs.size
    fun c hlo hhi hfree => hs.markable _ ⟨hlo, hhi, by rwa [UInt64.ofNat_toNat]⟩
  have hcount : im.Counted 0 := hs.counted.imp_right fun ⟨m, hm, hmark, _⟩ => ⟨m, Nat.zero_le m, hm, hmark⟩
  obtain ⟨px, hfirst, hadv⟩ := Img.exists_advanceUnchecked hcount
  have hcursor : cc.min.toUInt64.toNat = ch.choiceMin.toNat := hcc.min
  have hleft : ch.left [] = fun c => ch.ccond (UInt64.ofNat c) := by
    funext c
    rw [Choices.left, decide_eq_true List.not_mem_nil, Bool.and_true]
  refine ⟨⟨cc, cc.min.toUInt64, px⟩, ?_, 2 ^ 32, fun turns hturns => ?_⟩
  · rw [Ready, hcursor]
    exact ⟨Sweep.initial fun q hq => hfirst.2.2 q (Nat.zero_le q) hq, hleft ▸ hcc, hfirst.2.1, le_rfl,
      by omega⟩
  · rw [start, hadv turns (by omega), ok_bind]
    show (ChoiceCache.choiceAlloc turns ch.mem ch.ccond ch.choiceMin ch.choiceMax >>= _) = _
    rw [halloc turns (by omega)]
    rfl

/-- Once a call has found nothing, every free choice lies behind the mark, and that stays so. -/
def Passed (im : Img) (ch : Choices) (rs : List UInt64) (s : State) : Prop :=
  -1 ∈ rs → ∀ c, ch.Free c → place im ch c < s.relocCursor.toNat

theorem Calls.ready (hmax : ch.choiceMax.toNat < 2 ^ 32 - 1) (hs : Safe im ch)
    (hx : ∀ c : UInt64, ch.choiceMin ≤ c → c ≤ ch.choiceMax → ch.xlate c = false)
    (h : Calls im ch rs s) : Ready im ch (found rs) s ∧ Passed im ch rs s := by
  induction h with
  | start hret =>
    obtain ⟨s', hready, hret'⟩ := exists_start hmax hs
    rw [hret.unique hret']
    exact ⟨hready, fun hmem => absurd hmem List.not_mem_nil⟩
  | @call rs s s' r _ hret ih =>
    obtain ⟨hready, hpassed⟩ := ih
    obtain ⟨r', s₁, hdone, hret'⟩ := hready.choiceFind hmax hs hx
    obtain ⟨rfl, rfl⟩ := Prod.mk.inj (hret.unique hret')
    rw [found_append]
    refine ⟨hdone.ready, fun hmem c hc => ?_⟩
    rcases List.mem_append.mp hmem with hold | hnew
    · exact (hpassed hold c hc).trans_le hdone.mono
    · exact hdone.last (List.mem_singleton.mp hnew).symm c hc

theorem length_le_found (h : -1 ∉ rs) : rs.length = (found rs).length := by
  have hall : rs.filter (fun r => r ≠ -1) = rs :=
    List.filter_eq_self.mpr fun r hr => decide_eq_true fun heq => h (heq ▸ hr)
  rw [found, List.length_map, hall]

/-- What the results so far have in common. -/
structure Sound (im : Img) (ch : Choices) (rs : List UInt64) : Prop where
  ascending : (found rs).Pairwise (· < ·)
  apart : (found rs).Pairwise fun c c' => place im ch c < place im ch c'
  free : ∀ c ∈ found rs, ch.Free c ∧ im.Marked (place im ch c)

/-- A call that returns choice `r`: it was free, it lies on the marked pixel that was current, and the
mark has gone on to the next. -/
structure Placed (im : Img) (ch : Choices) (s : State) (r : UInt64) (s' : State) : Prop where
  free : s.ccache.choiceIsFree r = .ok true
  taken : s'.ccache.choiceIsFree r = .ok false
  marked : im.Marked (place im ch r.toNat)
  reached : s.relocCursor.toNat ≤ place im ch r.toNat
  next : im.First (place im ch r.toNat + 1) s'.relocCursor

theorem Ready.sound (h : Ready im ch (found rs) s) : Sound im ch rs where
  ascending := h.sweep.ordered
  apart := h.sweep.apart
  free c hc := ⟨⟨(h.sweep.range c hc).1, (h.sweep.range c hc).2.1, (h.sweep.found c hc).1⟩,
    (h.sweep.found c hc).2⟩

theorem Done.placed {r : UInt64} {s' : State} (h : Ready im ch out s)
    (hdone : Done im ch out s.relocCursor r s') (hr : r ≠ -1) : Placed im ch s r s' := by
  obtain ⟨⟨hlo, hhi, hfree⟩, hfresh⟩ := hdone.fresh hr
  obtain ⟨hmark, hle, hfirst⟩ := hdone.current hr
  have hextend : extend out r = out ++ [r.toNat] := if_neg hr
  refine ⟨?_, ?_, hmark, hle, hfirst⟩
  · rw [h.cache.isFree hlo hhi, Choices.left, hfree, decide_eq_true hfresh]
    rfl
  · rw [hdone.ready.cache.isFree hlo hhi, hextend, left_append, Function.update_self]

/-- Where the offsets ascend, so do the pixels. -/
theorem monotoneOn_place (hmax : ch.choiceMax.toNat < 2 ^ 32 - 1)
    (hmono : ∀ c c' : UInt64, ch.choiceMin ≤ c → c ≤ c' → c' ≤ ch.choiceMax →
      ch.range c ≤ ch.range c') :
    MonotoneOn (place im ch) (Set.Icc ch.choiceMin.toNat ch.choiceMax.toNat) := by
  rintro c ⟨hlo, -⟩ c' ⟨-, hhi⟩ hle
  have hword : (UInt64.ofNat c).toNat = c := UInt64.toNat_ofNat_of_lt' (show c < 2 ^ 64 by omega)
  have hword' : (UInt64.ofNat c').toNat = c' := UInt64.toNat_ofNat_of_lt' (show c' < 2 ^ 64 by omega)
  have hrange := UInt64.le_iff_toNat_le.mp (hmono (UInt64.ofNat c) (UInt64.ofNat c')
    (UInt64.le_iff_toNat_le.mpr (by omega)) (UInt64.le_iff_toNat_le.mpr (by omega))
    (UInt64.le_iff_toNat_le.mpr (by omega)))
  exact Nat.div_le_div_right (Nat.div_le_div_right hrange)

/-- The calls give the marked pixels free choices in ascending order, and, where the offsets ascend, every
marked pixel on which a free choice lies. -/
theorem choiceFind_greedy (im : Img) (ch : Choices) (hmax : ch.choiceMax.toNat < 2 ^ 32 - 1)
    (hx : ∀ c : UInt64, ch.choiceMin ≤ c → c ≤ ch.choiceMax → ch.xlate c = false)
    (hs : Safe im ch) :
    (∃ s, Returns (start im ch) s) ∧
    (∀ rs s, Calls im ch rs s → Sound im ch rs ∧
      ∃ r s', Returns (fun turns => choiceFind im ch turns s) (r, s') ∧
        (r = -1 ∨ Placed im ch s r s')) ∧
    ((∀ c c' : UInt64, ch.choiceMin ≤ c → c ≤ c' → c' ≤ ch.choiceMax → ch.range c ≤ ch.range c') →
      ∃ enough, ∀ rs s, Calls im ch rs s → enough ≤ rs.length → ∀ q, im.Marked q →
        ((∃ c ∈ found rs, place im ch c = q) ↔ ∃ c, ch.Free c ∧ place im ch c = q)) := by
  refine ⟨?_, fun rs s hcalls => ?_, fun hmono => ?_⟩
  · obtain ⟨s, -, hret⟩ := exists_start hmax hs
    exact ⟨s, hret⟩
  · obtain ⟨hready, -⟩ := hcalls.ready hmax hs hx
    obtain ⟨r, s', hdone, hret⟩ := hready.choiceFind hmax hs hx
    exact ⟨hready.sound, r, s', hret, or_iff_not_imp_left.mpr (hdone.placed hready)⟩
  · -- there are no more results than choices, so one of as many calls has found nothing
    refine ⟨ch.choiceMax.toNat + 2 - ch.choiceMin.toNat, fun rs s hcalls hlen q hmark => ?_⟩
    obtain ⟨hready, hpassed⟩ := hcalls.ready hmax hs hx
    have hle := hs.le
    have hend : -1 ∈ rs := by
      by_contra hnot
      have hcount := hready.sweep.length_le
      rw [← length_le_found hnot] at hcount
      omega
    have hcomplete := hready.sweep.complete (monotoneOn_place hmax hmono)
      (fun c hlo hhi hfree => hpassed hend c ⟨hlo, hhi, hfree⟩) hmark
    rw [hcomplete]
    refine exists_congr fun c => ?_
    rw [Choices.Free, and_assoc, and_assoc]

end Calls

/-! ## Two images -/

/-- As many choices as `choiceMax` says, of one byte each, of which the first two are free. -/
def upTo (choiceMax : UInt64) : Choices where
  choiceMin := 0
  choiceMax := choiceMax
  ccond c := decide (c < 2)
  mem _ := 0
  range c := 8 * c
  xlate _ := false

/-- A disk of two bytes, with a marked pixel on each. -/
def twoPixels : Img := ⟨2, 1, fun _ => 1, 2⟩

theorem safe_upTo_one : Safe twoPixels (upTo 1) where
  le := by decide
  size := by decide
  markable c hc := Or.inl (by
    have hle : c ≤ 1 := hc.2.1
    omega)
  bytes _ _ := by decide
  counted := Or.inl (by decide)

theorem choiceFind_greedy_upTo_one :
    (∃ s, Returns (start twoPixels (upTo 1)) s) ∧
    (∀ rs s, Calls twoPixels (upTo 1) rs s → Sound twoPixels (upTo 1) rs ∧
      ∃ r s', Returns (fun turns => choiceFind twoPixels (upTo 1) turns s) (r, s') ∧
        (r = -1 ∨ Placed twoPixels (upTo 1) s r s')) :=
  have h := choiceFind_greedy twoPixels (upTo 1) (by decide) (fun _ _ _ => rfl) safe_upTo_one
  ⟨h.1, h.2.1⟩

/-- The bitmap of all choices below `2 ^ 32 - 1` has no bytes: `bmp_init` rounds its size up to 0, and
marking the first choice writes behind it. -/
theorem not_returns_start_wide : (upTo 0xfffffffe).choiceMax.toNat < 2 ^ 32 - 1 ∧
    ∀ s, ¬ Returns (start twoPixels (upTo 0xfffffffe)) s := by
  refine ⟨by decide, fun s ⟨enough, hrun⟩ => ?_⟩
  have hres := hrun (enough + 1) (Nat.le_succ enough)
  have hadv : twoPixels.advanceUnchecked (enough + 1) (-1) = .ok (some 0) := rfl
  have halloc : ChoiceCache.choiceAlloc (enough + 1) (upTo 0xfffffffe).mem (upTo 0xfffffffe).ccond
      (upTo 0xfffffffe).choiceMin (upTo 0xfffffffe).choiceMax = .error .fault := rfl
  rw [start, hadv, ok_bind] at hres
  simp only [halloc] at hres
  cases hres

end Fsl.Relocate
