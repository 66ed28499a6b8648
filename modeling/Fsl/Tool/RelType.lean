import Fsl.Tool.Defrag

/-!
# Tools that relocate what a scan finds

`smushtool.c`, `scattertool.c` and `thrashcopy.c` have the same `ti_handle` and `do_rel_type`: for every
instance that the scan comes to, each instance of the selection of its `reloc` statements is followed
and handed to `swap_rel_sel`. They differ in how choices are found there.
-/

namespace Fsl.RelType

open Bitmap
open Defrag (Halt onChoices onChoices_ok)

/-- A `relocate` statement of an instance in world `w`: its name, the bounds of its selection, the
instances of the selection and of the choices, and `wpkt_relocate`, which has a value where it
returns. -/
structure RttReloc (W T : Type) where
  relName : Option String
  selMin : W → UInt64
  selMax : W → UInt64
  follow : W → UInt64 → Option T
  choice : W → UInt64 → Option T
  relocate : W → T → UInt32 → UInt32 → Option W

/-- The choices of all `reloc` statements: the bounds that `it_min` and `it_max` give and what the
condition says in world `w`, with the memory in which they are loaded each time. -/
structure Choices (W : Type) where
  choiceMin : UInt64
  choiceMax : UInt64
  ccond : W → UInt64 → Bool
  mem : ℕ → ℕ → UInt8

/-- The parts in which the tools differ, for loops that have so many turns: the start of `do_rel_type`
and `swap_rel_sel`. -/
structure Tool (S W T : Type) where
  world : S → W
  load : ℕ → S → Except Halt (Option S)
  swapRelSel : ℕ → RttReloc W T → T → UInt32 → S → Except Halt (Option S)

variable {S W T : Type}

namespace Tool

variable (tool : Tool S W T) (turns : ℕ)

/-- A turn of the loop of `do_rel_type`; an instance that is not there is passed over. -/
def relTurn (rel : RttReloc W T) (cur : ℤ) (s : S) : Except Halt (Option S) :=
  match rel.follow (tool.world s) (UInt64.ofInt cur) with
  | none => return some s
  | some t => tool.swapRelSel turns rel t (UInt32.ofInt cur) s

/-- The loop of `do_rel_type` over the `n` instances that are left. -/
def relLoop (rel : RttReloc W T) : ℕ → ℤ → S → Except Halt (Option S)
  | 0, _, s => return some s
  | n + 1, cur, s => do
    match ← tool.relTurn turns rel cur s with
    | none => return none
    | some s => relLoop rel n (← onChoices (addInt cur 1)) s

/-- `do_rel_type`, where the bounds become an `int`. -/
def doRelType (rel : RttReloc W T) (s : S) : Except Halt (Option S) := do
  match ← tool.load turns s with
  | none => return none
  | some s =>
    let selMin := toInt (rel.selMin (tool.world s)).toUInt32
    let selMax := toInt (rel.selMax (tool.world s)).toUInt32
    tool.relLoop turns rel (selMax - selMin + 1).toNat selMin s

/-- `ti_handle` -/
def tiHandle : List (RttReloc W T) → S → Except Halt (Option S)
  | [], s => return some s
  | rel :: rels, s =>
    if rel.relName = some "reloc" then do
      match ← tool.doRelType turns rel s with
      | none => return none
      | some s => tiHandle rels s
    else tiHandle rels s

/-- `ti_handle` for the instances of a scan. -/
def scan : List (List (RttReloc W T)) → S → Except Halt (Option S)
  | [], s => return some s
  | rels :: rest, s => do
    match ← tool.tiHandle turns rels s with
    | none => return none
    | some s => scan rest s

end Tool

/-! ## Runs -/

/-- With that many turns the call returns, in a state where `Q` holds. -/
def Ends (enough : ℕ) (x : ℕ → Except Halt (Option S)) (Q : S → Prop) : Prop :=
  ∃ s, Q s ∧ ∀ turns, enough ≤ turns → x turns = .ok (some s)

variable {enough : ℕ} {x : ℕ → Except Halt (Option S)} {P Q : S → Prop}

theorem Ends.mono (h : Ends enough x P) (himp : ∀ s, P s → Q s) : Ends enough x Q := by
  obtain ⟨s, hs, hx⟩ := h
  exact ⟨s, himp s hs, hx⟩

theorem Ends.of_eq {s : S} (hs : Q s) (hx : ∀ turns, enough ≤ turns → x turns = .ok (some s)) :
    Ends enough x Q := ⟨s, hs, hx⟩

/-- A call and what follows it. -/
theorem Ends.bind {y : ℕ → S → Except Halt (Option S)} {z : ℕ → Except Halt (Option S)}
    (h : Ends enough x P) (hy : ∀ s, P s → Ends enough (fun turns => y turns s) Q)
    (hz : ∀ turns s, P s → x turns = .ok (some s) → z turns = y turns s) : Ends enough z Q := by
  obtain ⟨s, hs, hx⟩ := h
  obtain ⟨s', hs', hrun⟩ := hy s hs
  exact ⟨s', hs', fun turns hturns => (hz turns s hs (hx turns hturns)).trans (hrun turns hturns)⟩

theorem Ends.returns (h : Ends enough x Q) : ∃ s, Returns x s ∧ Q s := by
  obtain ⟨s, hs, hx⟩ := h
  exact ⟨s, ⟨enough, hx⟩, hs⟩

/-- What a tool keeps for a statement with the selection from `lo` to `hi`: every `swap_rel_sel` for an
instance of it returns where `Q` holds, and `Q` holds then. -/
structure Keeps (tool : Tool S W T) (enough : ℕ) (Q : S → Prop) (rel : RttReloc W T) (lo hi : ℕ) :
    Prop where
  lo_lt : lo < 2 ^ 31
  hi_lt : hi < 2 ^ 31 - 1
  selMin : ∀ s, Q s → (rel.selMin (tool.world s)).toNat = lo
  selMax : ∀ s, Q s → (rel.selMax (tool.world s)).toNat = hi
  swap : ∀ s t j, Q s → lo ≤ j → j ≤ hi → rel.follow (tool.world s) (UInt64.ofNat j) = some t →
    Ends enough (fun turns => tool.swapRelSel turns rel t (UInt32.ofNat j) s) Q

section Keeps

variable {tool : Tool S W T} {rel : RttReloc W T} {lo hi : ℕ} {s : S}

theorem Keeps.relTurn (h : Keeps tool enough Q rel lo hi) {j : ℕ} (hlo : lo ≤ j) (hhi : j ≤ hi)
    (hs : Q s) : Ends enough (fun turns => tool.relTurn turns rel (j : ℤ) s) Q := by
  have hj : UInt64.ofInt (j : ℤ) = UInt64.ofNat j := Defrag.ofInt_natCast j
  have hj' : UInt32.ofInt (j : ℤ) = UInt32.ofNat j := Bitmap.ofInt_natCast j
  simp only [Tool.relTurn, hj, hj']
  cases hfollow : rel.follow (tool.world s) (UInt64.ofNat j) with
  | none => exact .of_eq hs fun _ _ => rfl
  | some t => exact h.swap s t j hs hlo hhi hfollow

theorem Keeps.relLoop (h : Keeps tool enough Q rel lo hi) {n j : ℕ} (hlo : lo ≤ j)
    (hn : j + n = hi + 1) (hs : Q s) :
    Ends enough (fun turns => tool.relLoop turns rel n (j : ℤ) s) Q := by
  have hlt := h.hi_lt
  induction n generalizing j s with
  | zero => exact .of_eq hs fun _ _ => rfl
  | succ n ih =>
    refine (h.relTurn hlo (by omega) hs).bind (fun s' hs' => ih (j := j + 1) (by omega) (by omega) hs')
      fun turns s' _ hturn => ?_
    rw [Tool.relLoop, hturn, ok_bind]
    show (onChoices (addInt (j : ℤ) (1 : ℕ)) >>= _) = _
    rw [addInt_natCast (by omega), onChoices_ok, ok_bind]

theorem Keeps.doRelType (h : Keeps tool enough Q rel lo hi) (hs : P s)
    (hload : ∀ s, P s → Ends enough (fun turns => tool.load turns s) Q) :
    Ends enough (fun turns => tool.doRelType turns rel s) Q := by
  have hlo := h.lo_lt
  have hhi := h.hi_lt
  have hbound : ∀ {c : UInt64} {k : ℕ}, c.toNat = k → k < 2 ^ 31 → toInt c.toUInt32 = (k : ℤ) := by
    intro c k hc hk
    have hc' : c.toUInt32.toNat = k := by
      rw [UInt64.toNat_toUInt32, hc]
      exact Nat.mod_eq_of_lt (by omega)
    rw [toInt_of_lt (by omega), hc']
  have hloop : ∀ s', Q s' →
      Ends enough (fun turns => tool.relLoop turns rel (hi + 1 - lo) (lo : ℤ) s') Q := by
    intro s' hs'
    by_cases hle : lo ≤ hi + 1
    · exact h.relLoop le_rfl (by omega) hs'
    · rw [show hi + 1 - lo = 0 by omega]
      exact .of_eq hs' fun _ _ => rfl
  refine (hload s hs).bind hloop fun turns s' hs' hrun => ?_
  rw [Tool.doRelType, hrun, ok_bind]
  simp only [hbound (h.selMin s' hs') (by omega), hbound (h.selMax s' hs') (by omega)]
  rw [show ((hi : ℤ) - lo + 1).toNat = hi + 1 - lo by omega]

end Keeps

/-- A tool returns from every scan, if it keeps what its loads lead to. -/
theorem ends_scan (tool : Tool S W T)
    (hload : ∀ s, P s → Ends enough (fun turns => tool.load turns s) Q) (hweak : ∀ s, Q s → P s)
    {insts : List (List (RttReloc W T))}
    (hkeeps : ∀ rels ∈ insts, ∀ rel ∈ rels, rel.relName = some "reloc" →
      ∃ lo hi, Keeps tool enough Q rel lo hi) {s : S} (hs : P s) :
    Ends enough (fun turns => tool.scan turns insts s) P := by
  have hhandle : ∀ rels : List (RttReloc W T), (∀ rel ∈ rels, rel.relName = some "reloc" →
      ∃ lo hi, Keeps tool enough Q rel lo hi) → ∀ s, P s →
        Ends enough (fun turns => tool.tiHandle turns rels s) P := by
    intro rels hrels
    induction rels with
    | nil => exact fun s hs => .of_eq hs fun _ _ => rfl
    | cons rel rels ih =>
      intro s hs
      have hrest := ih fun rel' hmem => hrels rel' (List.mem_cons_of_mem _ hmem)
      by_cases hname : rel.relName = some "reloc"
      · obtain ⟨lo, hi, hkeep⟩ := hrels rel List.mem_cons_self hname
        refine ((hkeep.doRelType hs hload).mono hweak).bind hrest fun turns s' _ hrun => ?_
        rw [Tool.tiHandle, if_pos hname, hrun, ok_bind]
      · simp only [Tool.tiHandle, if_neg hname]
        exact hrest s hs
  induction insts generalizing s with
  | nil => exact .of_eq hs fun _ _ => rfl
  | cons rels rest ih =>
    refine (hhandle rels (hkeeps rels List.mem_cons_self) s hs).bind
      (fun s' hs' => ih (fun rels' hmem => hkeeps rels' (List.mem_cons_of_mem _ hmem)) hs')
      fun turns s' _ hrun => ?_
    rw [Tool.scan, hrun, ok_bind]

/-! ## The choices of a cache -/

namespace Choices

/-- `choice_alloc` in world `w`, for the `i`-th time. -/
def alloc (ch : Choices W) (turns : ℕ) (w : W) (i : ℕ) :
    Except Halt (Option (Option ChoiceCache)) :=
  onChoices (ChoiceCache.choiceAlloc turns (ch.mem i) (ch.ccond w) ch.choiceMin ch.choiceMax)

/-- The choices can be loaded and searched without an overflow. -/
structure Bounded (ch : Choices W) : Prop where
  le : ch.choiceMin.toNat ≤ ch.choiceMax.toNat
  max_lt : ch.choiceMax.toNat < 2 ^ 31
  size_le : ch.choiceMax.toNat - ch.choiceMin.toNat + 1 ≤ 2 ^ 31 - 8

/-- Choice `c` is available in world `w`. -/
structure Avail (ch : Choices W) (w : W) (c : ℕ) : Prop where
  le : ch.choiceMin.toNat ≤ c
  ge : c ≤ ch.choiceMax.toNat
  ccond : ch.ccond w (UInt64.ofNat c) = true

/-- A cache of the choices that offers only available ones; those that have become free since it was
loaded it does not offer. -/
def Offers (ch : Choices W) (w : W) (cc : ChoiceCache) : Prop :=
  ∃ free : ℕ → Bool, cc.Holds ch.choiceMin.toNat ch.choiceMax.toNat free ∧
    ∀ c, ch.choiceMin.toNat ≤ c → c ≤ ch.choiceMax.toNat → free c = true → ch.Avail w c

variable {ch : Choices W} {w w' : W} {cc : ChoiceCache}

theorem exists_alloc (hb : ch.Bounded) (w : W) (i : ℕ) : ∃ cc, ch.Offers w cc ∧
    ∀ turns, ch.choiceMax.toNat + 2 ≤ turns → ch.alloc turns w i = .ok (some (some cc)) := by
  have hmax := hb.max_lt
  have hsize := hb.size_le
  obtain ⟨cc, halloc, h⟩ := ChoiceCache.exists_choiceAlloc (ch.mem i) (ch.ccond w) hb.le (by omega)
    (by omega) fun c hlo hhi _ => Or.inl (by omega)
  refine ⟨cc, ⟨_, h.holds (by omega), fun c hlo hhi hfree => ⟨hlo, hhi, hfree⟩⟩, fun turns hturns => ?_⟩
  rw [alloc, halloc turns (by omega)]
  rfl

theorem toNat_ofNat (hb : ch.Bounded) {c : ℕ} (hhi : c ≤ ch.choiceMax.toNat) :
    (UInt64.ofNat c).toNat = c := by
  have hmax := hb.max_lt
  exact UInt64.toNat_ofNat_of_lt' (show c < 2 ^ 64 by omega)

/-- What the cache says of a choice. -/
theorem Offers.isFree (h : ch.Offers w cc) (hb : ch.Bounded) {c : ℕ} (hlo : ch.choiceMin.toNat ≤ c)
    (hhi : c ≤ ch.choiceMax.toNat) : ∃ free : Bool,
      cc.choiceIsFree (UInt64.ofNat c) = .ok free ∧ (free = true → ch.Avail w c) := by
  obtain ⟨free, hcc, havail⟩ := h
  have hnat := toNat_ofNat hb hhi
  refine ⟨free c, ?_, havail c hlo hhi⟩
  rw [hcc.bits.isFree (by rw [hnat]; exact hlo) (by rw [hnat]; exact hhi), hnat]

/-- Once a choice is taken in the world, it is marked in the cache. -/
theorem Offers.mark (h : ch.Offers w cc) (hb : ch.Bounded) {c : ℕ} (hc : ch.Avail w c)
    (hstays : ∀ c', c' ≠ c → ch.Avail w c' → ch.Avail w' c') :
    ∃ cc', cc.choiceMarkAlloc (UInt64.ofNat c) = .ok cc' ∧ ch.Offers w' cc' ∧
      cc'.choiceIsFree (UInt64.ofNat c) = .ok false := by
  obtain ⟨free, hcc, havail⟩ := h
  have hmax := hb.max_lt
  have hsize := hb.size_le
  have hnat := toNat_ofNat hb hc.ge
  have hlo := hc.le
  have hhi := hc.ge
  obtain ⟨cc', happly, hbits⟩ := hcc.bits.apply ⟨false, UInt64.ofNat c⟩ (hnat.symm ▸ hc.le)
    (hnat.symm ▸ hc.ge) (Or.inl (by
      show (UInt64.ofNat c).toNat - ch.choiceMin.toNat < 2 ^ 31 - 1
      omega))
  have hself : MarkOp.effect free ⟨false, UInt64.ofNat c⟩ c = false := by
    rw [MarkOp.effect, hnat, Function.update_self]
  refine ⟨cc', happly, ⟨_, hbits.holds (by omega), fun c' hlo' hhi' hfree => ?_⟩, ?_⟩
  · by_cases hne : c' = c
    · rw [hne, hself] at hfree
      cases hfree
    · rw [MarkOp.effect, hnat, Function.update_of_ne hne] at hfree
      exact hstays c' hne (havail c' hlo' hhi' hfree)
  · rw [hbits.isFree (by rw [hnat]; exact hlo) (by rw [hnat]; exact hhi), hnat, hself]

/-- What the file system promises of a statement with the selection from `lo` to `hi` in the worlds where
`I` holds: relocating an instance of it to an available choice, where the tool may do so, returns where
`I` holds, and the other choices stay available. -/
structure Sound (ch : Choices W) (I : W → Prop) (may : W → T → ℕ → Prop) (rel : RttReloc W T) (lo hi : ℕ) :
    Prop where
  lo_lt : lo < 2 ^ 31
  hi_lt : hi < 2 ^ 31 - 1
  selMin : ∀ w, I w → (rel.selMin w).toNat = lo
  selMax : ∀ w, I w → (rel.selMax w).toNat = hi
  relocate : ∀ w t j c, I w → lo ≤ j → j ≤ hi → rel.follow w (UInt64.ofNat j) = some t →
    ch.Avail w c → may w t c →
      ∃ w', rel.relocate w t (UInt32.ofNat j) (UInt32.ofNat c) = some w' ∧ I w' ∧
        ∀ c', c' ≠ c → ch.Avail w c' → ch.Avail w' c'

end Choices

/-! ## Two blocks on four choices -/

/-- A world that is the places of two blocks; either can be relocated to where none of them is. -/
def twoBlocks : RttReloc (ℕ × ℕ) UInt64 where
  relName := some "reloc"
  selMin _ := 0
  selMax _ := 1
  follow w j := some (UInt64.ofNat (if j = 0 then w.1 else w.2))
  choice _ c := some c
  relocate w _ j c := some (if j = 0 then (c.toNat, w.2) else (w.1, c.toNat))

def fourChoices : Choices (ℕ × ℕ) where
  choiceMin := 1
  choiceMax := 4
  ccond w c := decide (c.toNat ≠ w.1 ∧ c.toNat ≠ w.2)
  mem _ _ := 0

theorem bounded_fourChoices : fourChoices.Bounded := ⟨by decide, by decide, by decide⟩

/-- The blocks stay apart. -/
theorem sound_twoBlocks (may : ℕ × ℕ → UInt64 → ℕ → Prop) :
    fourChoices.Sound (fun w => w.1 ≠ w.2) may twoBlocks 0 1 where
  lo_lt := by norm_num
  hi_lt := by norm_num
  selMin _ _ := rfl
  selMax _ _ := rfl
  relocate w _ j c hw _ _ _ hc _ := by
    have hge : c ≤ 4 := hc.ge
    have hout : (UInt64.ofNat c).toNat ≠ w.1 ∧ (UInt64.ofNat c).toNat ≠ w.2 :=
      of_decide_eq_true hc.ccond
    rw [Choices.toNat_ofNat bounded_fourChoices hc.ge] at hout
    have hc32 : (UInt32.ofNat c).toNat = c := UInt32.toNat_ofNat_of_lt' (show c < 2 ^ 32 by omega)
    refine ⟨_, rfl, ?_, fun c' hne hc' => ⟨hc'.le, hc'.ge, ?_⟩⟩
    · rw [hc32]
      split
      · exact hout.2
      · exact hout.1.symm
    · have hout' : (UInt64.ofNat c').toNat ≠ w.1 ∧ (UInt64.ofNat c').toNat ≠ w.2 :=
        of_decide_eq_true hc'.ccond
      rw [Choices.toNat_ofNat bounded_fourChoices hc'.ge] at hout'
      refine decide_eq_true ?_
      rw [Choices.toNat_ofNat bounded_fourChoices hc'.ge, hc32]
      split
      · exact ⟨hne, hout'.2⟩
      · exact ⟨hout'.1, hne⟩

end Fsl.RelType
