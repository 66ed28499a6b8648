import Fsl.Tool.Defrag
import Fsl.Tool.RelType

/-!
# A run of the defragmentation tool

`handle_ti` hands the `defrag` statements of every instance that the scan comes to to `do_defrag`. Where
all instances of a selection can be followed and relocated, a file is left alone only if it is in a row
already or no choices in a row are left for it.
-/

namespace Fsl.Defrag

open FirstFit Bitmap
open RelType (RttReloc)

variable {W T X : Type}

/-- A `relocate` statement as the tool takes it, with `ti_phys_offset` and `ti_size` of an instance. -/
def fileOf (place : W → T → UInt64 × UInt64) (rel : RttReloc W T) : File W where
  selMin := rel.selMin
  selMax := rel.selMax
  follow w k := (rel.follow w k).map (place w)
  relocate w sel choice := (rel.follow w sel.toUInt64).bind fun t => rel.relocate w t sel choice

/-- The choices, if they are loaded in world `w`. -/
def choicesAt (ch : RelType.Choices W) (w : W) : Choices :=
  ⟨ch.choiceMin, ch.choiceMax, ch.ccond w, ch.mem 0⟩

section Code

variable (place : W → T → UInt64 × UInt64) (ch : RelType.Choices W) (turns : ℕ)

/-- `handle_ti`, with the calls of `wpkt_relocate`. -/
def handleTi : List (RttReloc W T) → State W → Except Halt (Option (List Move × State W))
  | [], s => return some ([], s)
  | rel :: rels, s =>
    if rel.relName = some "defrag" then do
      match ← doDefrag (choicesAt ch s.world) (fileOf place rel) turns s with
      | none => return none
      | some (ms, s) => return (← handleTi rels s).map fun r => (ms ++ r.1, r.2)
    else handleTi rels s

/-- `handle_ti` for the instances of a scan. -/
def scan : List (List (RttReloc W T)) → State W → Except Halt (Option (List Move × State W))
  | [], s => return some ([], s)
  | rels :: rest, s => do
    match ← handleTi place ch turns rels s with
    | none => return none
    | some (ms, s) => return (← scan rest s).map fun r => (ms ++ r.1, r.2)

end Code

/-! ## Whether a file is in a row -/

section Blocks

variable {f : File W} {w : W} {selMin selMax : UInt32}

/-- What the loop of `is_fragmented` says of instances that are all there. -/
theorem fragLoop_iff {n p : ℕ} (hend : p + n < 2 ^ 31 - 1) {last : UInt64 × UInt64}
    (hlast : f.follow w (UInt64.ofNat p) = some last)
    (hall : ∀ k, p < k → k ≤ p + n → (f.follow w (UInt64.ofNat k)).isSome) :
    ∃ b, fragLoop f w n ((p + 1 : ℕ) : ℤ) last = .ok b ∧ (b = false ↔ Contiguous f w p (p + n)) := by
  induction n generalizing p last with
  | zero => exact ⟨false, rfl, iff_of_true rfl fun k hk hlt => by omega⟩
  | succ n ih =>
    obtain ⟨here, hhere⟩ := Option.isSome_iff_exists.mp (hall (p + 1) (by omega) (by omega))
    by_cases hnext : here.1 = last.1 + last.2
    · obtain ⟨b, hrun, hb⟩ := ih (p := p + 1) (by omega) hhere fun k hk hle => hall k (by omega) (by omega)
      have hadd : addInt ((p + 1 : ℕ) : ℤ) 1 = .ok ((p + 1 + 1 : ℕ) : ℤ) :=
        addInt_natCast (show p + 1 + 1 < 2 ^ 31 by omega)
      refine ⟨b, ?_, hb.trans ⟨fun hrow k hk hlt => ?_, fun hrow k hk hlt => hrow k (by omega) (by omega)⟩⟩
      · rw [fragLoop, ofInt_natCast, hhere]
        dsimp only
        rw [if_neg (not_not.mpr hnext), hadd]
        exact hrun
      · rcases Nat.eq_or_lt_of_le hk with rfl | hk
        · exact ⟨last, here, hlast, hhere, hnext⟩
        · exact hrow k hk (by omega)
    · refine ⟨true, ?_, iff_of_false Bool.noConfusion fun hrow => ?_⟩
      · rw [fragLoop, ofInt_natCast, hhere]
        dsimp only
        rw [if_pos hnext]
        rfl
      · obtain ⟨a, b, ha, hb, heq⟩ := hrow p le_rfl (by omega)
        rw [hlast] at ha
        rw [hhere] at hb
        rw [← Option.some.inj ha, ← Option.some.inj hb] at heq
        exact hnext heq

theorem isFragmented_iff (hlt : selMin.toNat < selMax.toNat) (hmax : selMax.toNat < 2 ^ 31 - 1)
    (hall : ∀ k, selMin.toNat ≤ k → k ≤ selMax.toNat → (f.follow w (UInt64.ofNat k)).isSome) :
    ∃ b, isFragmented f w (toInt selMin) (toInt selMax) = .ok b ∧
      (b = false ↔ Contiguous f w selMin.toNat selMax.toNat) := by
  obtain ⟨n, hn⟩ := Nat.exists_eq_add_of_lt hlt
  obtain ⟨first, hfirst⟩ := Option.isSome_iff_exists.mp (hall selMin.toNat le_rfl hlt.le)
  obtain ⟨b, hrun, hb⟩ := fragLoop_iff (n := n + 1) (by omega) hfirst fun k hk hle =>
    hall k hk.le (by omega)
  rw [show selMin.toNat + (n + 1) = selMax.toNat by omega] at hb
  refine ⟨b, ?_, hb⟩
  unfold isFragmented
  rw [toInt_of_lt (by omega), toInt_of_lt (by omega), if_neg (by omega), ofInt_natCast, hfirst]
  rw [show ((selMax.toNat : ℤ) - selMin.toNat).toNat = n + 1 by omega]
  exact hrun

end Blocks

/-! ## Moving a file -/

section Relocate

variable {f : File W} {w : W} {cc : ChoiceCache} {lo hi cursor : ℕ} {free : ℕ → Bool}
  {selMin selMax selCount : UInt32}

/-- The searches find choices in a row if there are any. -/
theorem findRun_fits (h : cc.Holds lo hi free) (hhi : hi < 2 ^ 31) (hlo : lo ≤ cursor)
    (hle : cursor ≤ hi) (hex : ∃ c, Fits free (need selCount) lo (hi + 1) c) {turns : ℕ}
    (hturns : hi + 2 ≤ turns) {p : ℤ} : findRun turns cc cursor selCount ≠ .ok (some (-1, p)) := by
  have hpos : ∀ c : ℕ, (c : ℤ) ≠ -1 := fun c => by omega
  have hfound : ∀ {c : ℕ} {q : ℤ}, (Except.ok (some ((c : ℤ), q)) : Except Halt _) ≠ .ok (some (-1, p)) :=
    fun {c q} heq => hpos c (Prod.mk.inj (Option.some.inj (Except.ok.inj heq))).1
  have hmin : toInt cc.min = (lo : ℤ) := by
    have := h.le
    rw [toInt_of_lt (by rw [h.min]; omega), h.min]
  unfold findRun
  rw [hmin]
  rcases search_cases h hhi hlo hle hturns with ⟨c, -, hres⟩ | ⟨-, hres⟩
  · rw [hres, onChoices_ok, ok_bind]
    dsimp only
    rw [if_neg (hpos c)]
    exact hfound
  · obtain ⟨c, hc, -⟩ := hex.choose_spec.exists_least
    rw [hres]
    split_ifs
    · rw [onChoices_ok, ok_bind]
      dsimp only
      rw [if_pos rfl, search_least h hhi le_rfl h.le hturns hc, onChoices_ok, ok_bind]
      exact hfound
    · rintro ⟨⟩

theorem onChoices_bind_ne {α β : Type} {x : Except Stop α} {k : α → Except Halt β}
    (hk : ∀ a, x = .ok a → k a ≠ .error .missing) : (onChoices x >>= k) ≠ .error .missing := by
  rcases x with (_ | _) | a
  · rintro ⟨⟩
  · rintro ⟨⟩
  · exact hk a rfl

/-- The loop goes on while the next instance can be followed and relocated after the calls so far. -/
theorem relocateLoop_ne_missing {c n i : ℕ} (hgo : ∀ j, j < n → ∀ w₁,
      moveAll f (row selMin c i j) w = some w₁ →
      (f.follow w₁ (selMin + UInt32.ofNat (i + j)).toUInt64).isSome ∧
        (f.relocate w₁ (selMin + UInt32.ofNat (i + j)) (UInt32.ofNat (c + (i + j)))).isSome) :
    relocateLoop f selMin c n i w cc ≠ .error .missing := by
  induction n generalizing i w cc with
  | zero =>
    intro heq
    cases heq
  | succ n ih =>
    obtain ⟨hfollow, hrel⟩ := hgo 0 (Nat.succ_pos n) w rfl
    rw [Nat.add_zero] at hfollow hrel
    obtain ⟨here, hhere⟩ := Option.isSome_iff_exists.mp hfollow
    obtain ⟨w₁, hstep⟩ := Option.isSome_iff_exists.mp hrel
    unfold relocateLoop
    rw [Bitmap.ofInt_natCast, hhere]
    refine onChoices_bind_ne fun v hv => onChoices_bind_ne fun isFree _ => ?_
    obtain rfl : v = ((c + i : ℕ) : ℤ) := by
      unfold addInt at hv
      split_ifs at hv
      exact (Except.ok.inj hv).symm
    cases isFree with
    | false =>
      intro heq
      cases heq
    | true =>
      rw [if_pos rfl, Bitmap.ofInt_natCast, hstep]
      refine onChoices_bind_ne fun cc₁ _ => ?_
      have hrest : relocateLoop f selMin c n ((i : ℤ) + 1) w₁ cc₁ ≠ .error .missing :=
        ih (i := i + 1) fun j hj w₂ hmoves => by
          rw [show i + 1 + j = i + (j + 1) by omega]
          refine hgo (j + 1) (by omega) w₂ ?_
          rw [show row selMin c i (j + 1) =
            ⟨selMin + UInt32.ofNat i, UInt32.ofNat (c + i)⟩ :: row selMin c (i + 1) j from rfl, moveAll,
            hstep]
          exact hmoves
      cases hrun : relocateLoop f selMin c n ((i : ℤ) + 1) w₁ cc₁ with
      | error e =>
        rw [hrun] at hrest
        exact fun heq => hrest (congrArg _ (Except.error.inj heq))
      | ok r =>
        intro heq
        cases heq

/-- All instances from `lo` to `hi` can be followed, and relocated one after the other to any choices in
a row that are free. -/
structure Movable (free : ℕ → Bool) (first last : ℕ) (f : File W) (w : W) (lo hi : ℕ) : Prop where
  here : ∀ k, lo ≤ k → k ≤ hi → (f.follow w (UInt64.ofNat k)).isSome
  there : ∀ c, Fits free (hi - lo + 1) first (last + 1) c → ∀ j, j ≤ hi - lo → ∀ w₁,
    moveAll f (row (UInt32.ofNat lo) c 0 j) w = some w₁ →
    (f.follow w₁ (UInt32.ofNat lo + UInt32.ofNat j).toUInt64).isSome ∧
      (f.relocate w₁ (UInt32.ofNat lo + UInt32.ofNat j) (UInt32.ofNat (c + j))).isSome

/-- What comes of a file that can be moved: it is left alone where it is in a row or no choices in a row
are left, and otherwise it is moved to such. -/
theorem defragFrom_movable (h : cc.Holds lo hi free) (hhi : hi < 2 ^ 31 - 1)
    (hsize : hi - lo + 1 ≤ 2 ^ 31 - 8) (hlo : lo ≤ cursor) (hle : cursor ≤ hi)
    (hlt : selMin.toNat < selMax.toNat) (hmax : selMax.toNat < 2 ^ 31 - 1)
    (hmov : Movable free lo hi f w selMin.toNat selMax.toNat) :
    ((Contiguous f w selMin.toNat selMax.toNat ∨
        ∀ c, ¬ Fits free (selMax.toNat - selMin.toNat + 1) lo (hi + 1) c) ∧
      ∃ s : State W, s.world = w ∧ s.ccache.isSome ∧ ∀ turns, hi + 2 ≤ turns →
        defragFrom turns f w cc cursor selMin selMax = .ok (some ([], s))) ∨
    ¬ Contiguous f w selMin.toNat selMax.toNat ∧
      ∃ (c : ℕ) (s : State W), Fits free (selMax.toNat - selMin.toNat + 1) lo (hi + 1) c ∧
        moveAll f (row selMin c 0 (selMax.toNat - selMin.toNat + 1)) w = some s.world ∧
        s.ccache.isSome ∧ ∀ turns, hi + 2 ≤ turns → defragFrom turns f w cc cursor selMin selMax =
          .ok (some (row selMin c 0 (selMax.toNat - selMin.toNat + 1), s)) := by
  have hcclo := h.le
  have hnat : (selMax - selMin + 1).toNat = selMax.toNat - selMin.toNat + 1 :=
    (toNat_selCount (by omega) (by rw [toInt_of_lt (by omega), toInt_of_lt (by omega)]; omega)).1
  have hneed : need (selMax - selMin + 1) = selMax.toNat - selMin.toNat + 1 := by
    rw [need, hnat]
    omega
  have hok : hi - lo + 1 ≤ 2 ^ 31 - 8 ∨ free hi = true ∨
    ∃ c, Fits free (need (selMax - selMin + 1)) cursor (hi + 1) c := Or.inl hsize
  rcases findRun_cases h (by omega) hlo hle hok with
    ⟨c, p, hp, hc, hfind⟩ | hfind
  · rw [hneed] at hc
    have hclo : Fits free (selMax.toNat - selMin.toNat + 1) lo (hi + 1) c :=
      hc.mono (by rcases hp with rfl | rfl <;> omega)
    have hge := hc.ge
    have hend := hc.le
    have hpos : (c : ℤ) ≠ -1 := by omega
    obtain ⟨b, hfrag, hb⟩ := isFragmented_iff hlt hmax hmov.here
    cases b with
    | false =>
      refine Or.inl ⟨Or.inl (hb.mp rfl), ⟨w, some cc, p⟩, rfl, rfl, fun turns hturns => ?_⟩
      rw [defragFrom, hfind turns hturns, ok_bind]
      dsimp only
      rw [if_neg hpos, hfrag]
      rfl
    | true =>
      have hbroken : ¬ Contiguous f w selMin.toNat selMax.toNat := fun hrow =>
        Bool.noConfusion (hb.mpr hrow)
      have hall : ∀ j, j < selMax.toNat - selMin.toNat + 1 → free (c + 0 + j) = true := fun j hj =>
        hc.all (c + 0 + j) (by omega) (by omega)
      rcases relocateLoop_cases (f := f) (w := w) selMin h (show hi < 2 ^ 31 by omega) hclo.ge
        (show c + 0 + (selMax.toNat - selMin.toNat + 1) ≤ hi + 1 by omega) hall with
        hmissing | ⟨w', cc', hrun, hmoves, hcc'⟩
      · refine absurd hmissing (relocateLoop_ne_missing fun j hj w₁ hmoves => ?_)
        rw [← UInt32.ofNat_toNat (x := selMin)] at hmoves ⊢
        rw [Nat.zero_add]
        exact hmov.there c hclo j (by omega) w₁ hmoves
      · rw [Nat.cast_zero] at hrun
        have hsum : p + (selMax.toNat - selMin.toNat + 1) < 2 ^ 31 := by omega
        have hturn : toInt (selMax - selMin + 1) = ((selMax.toNat - selMin.toNat + 1 : ℕ) : ℤ) := by
          rw [toInt_of_lt (by omega), hnat]
        refine Or.inr ⟨hbroken, c,
          ⟨w', some cc', advance cc' ((p + (selMax.toNat - selMin.toNat + 1) : ℕ) : ℤ)⟩, hclo, hmoves, rfl,
          fun turns hturns => ?_⟩
        rw [defragFrom, hfind turns hturns, ok_bind]
        dsimp only
        rw [if_neg hpos, hfrag, hturn, Int.toNat_natCast]
        simp only [ok_bind, Bool.not_true, Bool.false_eq_true, if_false, hrun, addInt_natCast hsum,
          onChoices_ok]
        rfl
  · refine Or.inl ⟨Or.inr fun c hc => ?_, ⟨w, some cc, lo⟩, rfl, rfl, fun turns hturns => ?_⟩
    · have hfit : ∃ c, Fits free (need (selMax - selMin + 1)) lo (hi + 1) c := ⟨c, by rwa [hneed]⟩
      exact findRun_fits h (by omega) hlo hle hfit le_rfl (hfind _ le_rfl)
    · rw [defragFrom, hfind turns hturns, ok_bind]
      rfl

end Relocate

/-! ## Runs -/

section Runs

variable {ch : Choices} {ms : List Move} {f : File W} {s : State W}

/-- Only the first call looks at what the choices are. -/
theorem doDefrag_loaded (hloaded : s.ccache.isSome) (ch ch' : Choices) (f : File W) (turns : ℕ) :
    doDefrag ch f turns s = doDefrag ch' f turns s := by
  obtain ⟨cc, hcc⟩ := Option.isSome_iff_exists.mp hloaded
  have hload : ∀ ch : Choices, load ch turns s = .ok (some (cc, s.ccacheCursor)) := fun ch => by
    rw [load, hcc]
    rfl
  rw [doDefrag, doDefrag, hload ch, hload ch']

/-- A call for a file that can be moved returns. -/
theorem Ready.doDefrag_movable (h : Ready ch ms s) (hle : ch.choiceMin.toNat ≤ ch.choiceMax.toNat)
    (hmax : ch.choiceMax.toNat < 2 ^ 31 - 1)
    (hsize : ch.choiceMax.toNat - ch.choiceMin.toNat + 1 ≤ 2 ^ 31 - 8) {lo hi : ℕ}
    (hlo : (f.selMin s.world).toNat = lo) (hhi : (f.selMax s.world).toNat = hi) (hlow : lo < 2 ^ 31)
    (hlast : hi < 2 ^ 31 - 1)
    (hmov : lo < hi → Movable (left ch ms) ch.choiceMin.toNat ch.choiceMax.toNat f s.world lo hi) :
    ∃ ms' s', Returns (fun turns => Defrag.doDefrag ch f turns s) (ms', s') ∧ Ready ch (ms ++ ms') s' ∧
      s'.ccache.isSome ∧
      (ms' = [] ∧ s'.world = s.world ∧ (Contiguous f s.world lo hi ∨
          ∀ c, ¬ Fits (left ch ms) (hi - lo + 1) ch.choiceMin.toNat (ch.choiceMax.toNat + 1) c) ∨
        ¬ Contiguous f s.world lo hi ∧ ∃ c,
          Fits (left ch ms) (hi - lo + 1) ch.choiceMin.toNat (ch.choiceMax.toNat + 1) c ∧
          ms' = row (UInt32.ofNat lo) c 0 (hi - lo + 1) ∧ moveAll f ms' s.world = some s'.world) := by
  obtain ⟨cc, hcc, hfirst, hfirst', hload⟩ := h.load hle (by omega) (by omega)
  have hword : ∀ {c : UInt64} {k : ℕ}, c.toNat = k → k < 2 ^ 31 →
      c.toUInt32 = UInt32.ofNat k ∧ c.toUInt32.toNat = k := by
    intro c k hc hk
    have hnat : c.toUInt32.toNat = k := by
      rw [UInt64.toNat_toUInt32, hc]
      exact Nat.mod_eq_of_lt (by omega)
    exact ⟨by rw [← hnat, UInt32.ofNat_toNat], hnat⟩
  obtain ⟨hselMin, hminNat⟩ := hword hlo hlow
  obtain ⟨-, hmaxNat⟩ := hword hhi (by omega)
  have hcalm : Calm ch ms f s := fun _ =>
    ⟨Or.inl hsize, fun _ => by omega, fun p _ hsum hfit => by
      have hend := hfit.le
      omega⟩
  have hcall : ∃ ms' s', s'.ccache.isSome ∧
      (∀ turns, ch.choiceMax.toNat + 2 ≤ turns → Defrag.doDefrag ch f turns s = .ok (some (ms', s'))) ∧
      (ms' = [] ∧ s'.world = s.world ∧ (Contiguous f s.world lo hi ∨
          ∀ c, ¬ Fits (left ch ms) (hi - lo + 1) ch.choiceMin.toNat (ch.choiceMax.toNat + 1) c) ∨
        ¬ Contiguous f s.world lo hi ∧ ∃ c,
          Fits (left ch ms) (hi - lo + 1) ch.choiceMin.toNat (ch.choiceMax.toNat + 1) c ∧
          ms' = row (UInt32.ofNat lo) c 0 (hi - lo + 1) ∧ moveAll f ms' s.world = some s'.world) := by
    by_cases hlt : lo < hi
    · have hsel : Selects (f.selMin s.world).toUInt32 (f.selMax s.world).toUInt32 := by
        have hle' : (f.selMin s.world).toUInt32 ≤ (f.selMax s.world).toUInt32 :=
          UInt32.le_iff_toNat_le.mpr (by omega)
        refine ⟨fun heq => ?_, hle', fun heq => ?_⟩
        · rw [heq] at hminNat
          exact absurd hminNat (by rw [show (-1 : UInt32).toNat = 2 ^ 32 - 1 by decide]; omega)
        · have hone := congrArg UInt32.toNat heq
          rw [UInt32.toNat_add, UInt32.toNat_sub_of_le _ _ hle', hminNat, hmaxNat,
            show (1 : UInt32).toNat = 1 from rfl] at hone
          omega
      have hrun : ∀ turns, ch.choiceMax.toNat + 2 ≤ turns → Defrag.doDefrag ch f turns s =
          defragFrom turns f s.world cc (first ch s) (f.selMin s.world).toUInt32
            (f.selMax s.world).toUInt32 := by
        intro turns hturns
        rw [Defrag.doDefrag, hload turns hturns, ok_bind]
        exact if_pos hsel
      have horder : (f.selMin s.world).toUInt32.toNat < (f.selMax s.world).toUInt32.toNat := by omega
      have hres := defragFrom_movable (f := f) (w := s.world) hcc hmax hsize hfirst hfirst' horder
        (by omega) (by rw [hminNat, hmaxNat]; exact hmov hlt)
      rw [hminNat, hmaxNat, hselMin] at hres
      rcases hres with ⟨halone, s', hworld, hsome, hfrom⟩ | ⟨hbroken, c, s', hc, hmoves, hsome, hfrom⟩
      · refine ⟨[], s', hsome, fun turns hturns => ?_, Or.inl ⟨rfl, hworld, halone⟩⟩
        rw [hrun turns hturns, hselMin]
        exact hfrom turns hturns
      · refine ⟨_, s', hsome, fun turns hturns => ?_, Or.inr ⟨hbroken, c, hc, rfl, hmoves⟩⟩
        rw [hrun turns hturns, hselMin]
        exact hfrom turns hturns
    · have hsel : ¬ Selects (f.selMin s.world).toUInt32 (f.selMax s.world).toUInt32 := by
        rintro ⟨-, hle', hone⟩
        have hnat := UInt32.le_iff_toNat_le.mp hle'
        refine hone (UInt32.toNat_inj.mp ?_)
        rw [UInt32.toNat_add, UInt32.toNat_sub_of_le _ _ hle', hminNat, hmaxNat,
          show (1 : UInt32).toNat = 1 from rfl]
        omega
      refine ⟨[], ⟨s.world, some cc, (first ch s : ℤ)⟩, rfl, fun turns hturns => ?_,
        Or.inl ⟨rfl, rfl, Or.inl fun k hk hk' => by omega⟩⟩
      rw [Defrag.doDefrag, hload turns hturns, ok_bind]
      exact if_neg hsel
  obtain ⟨ms', s', hsome, hrun, hres⟩ := hcall
  have hret : Returns (fun turns => Defrag.doDefrag ch f turns s) (ms', s') := ⟨_, hrun⟩
  refine ⟨ms', s', hret, ?_, hsome, hres⟩
  rcases h.doDefrag hle (by omega) (by omega) hcalm with ⟨enough, hmiss⟩ | ⟨ms₁, s₁, hret₁, hready, -⟩
  · have hboth := (hmiss _ (le_max_left enough _)).symm.trans (hrun _ (le_max_right _ _))
    cases hboth
  · obtain ⟨rfl, rfl⟩ := Prod.mk.inj (hret.unique hret₁)
    exact hready

variable {place : W → T → UInt64 × UInt64} {rch : RelType.Choices W} {s' : State W}

/-- An instance with a `defrag` statement behind another one. -/
theorem returns_handleTi {other rel : RttReloc W T} (hother : other.relName ≠ some "defrag")
    (hrel : rel.relName = some "defrag")
    (h : Returns (fun turns => doDefrag (choicesAt rch s.world) (fileOf place rel) turns s) (ms, s')) :
    Returns (fun turns => handleTi place rch turns [other, rel] s) (ms, s') := by
  obtain ⟨enough, hrun⟩ := h
  refine ⟨enough, fun turns hturns => ?_⟩
  have hcall : doDefrag (choicesAt rch s.world) (fileOf place rel) turns s = .ok (some (ms, s')) :=
    hrun turns hturns
  simp only [handleTi, if_neg hother, if_pos hrel, hcall, ok_bind]
  show Except.ok (some (ms ++ [], s')) = _
  rw [List.append_nil]

/-- What every `handle_ti` of a scan keeps holds when it is done. -/
theorem returns_scan {stmts : X → List (RttReloc W T)} {Inv : List X → List Move → State W → Prop}
    {xs : List X} (hstep : ∀ done x ms s, x ∈ xs → Inv done ms s → ∃ ms' s',
      Returns (fun turns => handleTi place rch turns (stmts x) s) (ms', s') ∧
        Inv (done ++ [x]) (ms ++ ms') s') {done : List X} (h : Inv done ms s) :
    ∃ ms' s', Returns (fun turns => scan place rch turns (xs.map stmts) s) (ms', s') ∧
      Inv (done ++ xs) (ms ++ ms') s' := by
  induction xs generalizing done ms s with
  | nil => exact ⟨[], s, ⟨0, fun _ _ => rfl⟩, by rwa [List.append_nil, List.append_nil]⟩
  | cons x xs ih =>
    obtain ⟨ms₁, s₁, ⟨n₁, hhandle⟩, hinv⟩ := hstep done x ms s List.mem_cons_self h
    obtain ⟨ms₂, s₂, ⟨n₂, hscan⟩, hinv'⟩ :=
      ih (fun done y ms s hy => hstep done y ms s (List.mem_cons_of_mem _ hy)) hinv
    refine ⟨ms₁ ++ ms₂, s₂, ⟨max n₁ n₂, fun turns hturns => ?_⟩, ?_⟩
    · have h₁ : handleTi place rch turns (stmts x) s = .ok (some (ms₁, s₁)) :=
        hhandle turns ((le_max_left _ _).trans hturns)
      have h₂ : scan place rch turns (xs.map stmts) s₁ = .ok (some (ms₂, s₂)) :=
        hscan turns ((le_max_right _ _).trans hturns)
      show scan place rch turns (stmts x :: xs.map stmts) s = _
      rw [scan, h₁, ok_bind]
      dsimp only
      rw [h₂]
      rfl
    · rwa [List.append_assoc, List.append_assoc] at hinv'

end Runs

end Fsl.Defrag
