import Fsl.Compiler.PacketTables

/-!
# Runs of compiled packets

The tables of a packet make its writes before its calls, whatever their order in the text. The writes are
the same, and where they do not overlap, so is the file.
-/

namespace Fsl.PacketTables

open Pread

variable {wpkts : List WritePkt} {syms : Syms}

/-! ## What a packet emits -/

/-- Results of the same actions in two orders. -/
structure Same (x y : Except Stop (List WlogEnt)) : Prop where
  right : ∀ ws, x = .ok ws → ∃ ws', y = .ok ws' ∧ ws.Perm ws'
  left : ∀ ws', y = .ok ws' → ∃ ws, x = .ok ws ∧ ws.Perm ws'

theorem Same.refl (x : Except Stop (List WlogEnt)) : Same x x :=
  ⟨fun ws h => ⟨ws, h, .refl ws⟩, fun ws h => ⟨ws, h, .refl ws⟩⟩

theorem Same.trans {x y z : Except Stop (List WlogEnt)} (h : Same x y) (h' : Same y z) : Same x z where
  right ws hx := by
    obtain ⟨ws', hy, hp⟩ := h.right ws hx
    obtain ⟨ws'', hz, hp'⟩ := h'.right ws' hy
    exact ⟨ws'', hz, hp.trans hp'⟩
  left ws hz := by
    obtain ⟨ws', hy, hp⟩ := h'.left ws hz
    obtain ⟨ws'', hx, hp'⟩ := h.left ws' hy
    exact ⟨ws'', hx, hp'.trans hp⟩

/-- One action after the other. -/
def seqAll : List (Except Stop (List WlogEnt)) → Except Stop (List WlogEnt)
  | [] => .ok []
  | x :: l => do
    let ws ← x
    let rest ← seqAll l
    return ws ++ rest

theorem seqAll_cons_eq_ok {x : Except Stop (List WlogEnt)} {l : List (Except Stop (List WlogEnt))}
    {ws : List WlogEnt} : seqAll (x :: l) = .ok ws ↔
      ∃ ws₁ ws₂, x = .ok ws₁ ∧ seqAll l = .ok ws₂ ∧ ws = ws₁ ++ ws₂ := by
  constructor
  · intro h
    obtain ⟨ws₁, hx, h⟩ := bind_eq_ok h
    obtain ⟨ws₂, hl, h⟩ := bind_eq_ok h
    cases h
    exact ⟨ws₁, ws₂, hx, hl, rfl⟩
  · rintro ⟨ws₁, ws₂, rfl, hl, rfl⟩
    rw [seqAll, hl]
    rfl

theorem seqAll_append (l l' : List (Except Stop (List WlogEnt))) :
    seqAll (l ++ l') = do
      let ws ← seqAll l
      let rest ← seqAll l'
      return ws ++ rest := by
  induction l with
  | nil =>
    cases h : seqAll l' with
    | error e => simp [seqAll, h]
    | ok ws => simp [seqAll, h]
  | cons x l ih =>
    rw [List.cons_append, seqAll, seqAll, ih]
    cases x with
    | error e => rfl
    | ok ws =>
      cases seqAll l with
      | error e => rfl
      | ok ws' =>
        cases seqAll l' with
        | error e => rfl
        | ok ws'' => simp

theorem same_of_forall₂ {l l' : List (Except Stop (List WlogEnt))} (h : List.Forall₂ Same l l') :
    Same (seqAll l) (seqAll l') := by
  induction h with
  | nil => exact Same.refl _
  | cons hx _ ih =>
    constructor
    · intro ws hws
      obtain ⟨ws₁, ws₂, h₁, h₂, rfl⟩ := seqAll_cons_eq_ok.mp hws
      obtain ⟨ws₁', h₁', hp₁⟩ := hx.right ws₁ h₁
      obtain ⟨ws₂', h₂', hp₂⟩ := ih.right ws₂ h₂
      exact ⟨_, seqAll_cons_eq_ok.mpr ⟨_, _, h₁', h₂', rfl⟩, hp₁.append hp₂⟩
    · intro ws hws
      obtain ⟨ws₁, ws₂, h₁, h₂, rfl⟩ := seqAll_cons_eq_ok.mp hws
      obtain ⟨ws₁', h₁', hp₁⟩ := hx.left ws₁ h₁
      obtain ⟨ws₂', h₂', hp₂⟩ := ih.left ws₂ h₂
      exact ⟨_, seqAll_cons_eq_ok.mpr ⟨_, _, h₁', h₂', rfl⟩, hp₁.append hp₂⟩

theorem seqAll_perm {l l' : List (Except Stop (List WlogEnt))} (h : l.Perm l') {ws : List WlogEnt}
    (hws : seqAll l = .ok ws) : ∃ ws', seqAll l' = .ok ws' ∧ ws.Perm ws' := by
  induction h generalizing ws with
  | nil => exact ⟨ws, hws, .refl ws⟩
  | cons x _ ih =>
    obtain ⟨ws₁, ws₂, h₁, h₂, rfl⟩ := seqAll_cons_eq_ok.mp hws
    obtain ⟨ws₂', h₂', hp⟩ := ih h₂
    exact ⟨_, seqAll_cons_eq_ok.mpr ⟨_, _, h₁, h₂', rfl⟩, hp.append_left ws₁⟩
  | swap x y l =>
    obtain ⟨ws₁, ws₂, h₁, h₂, rfl⟩ := seqAll_cons_eq_ok.mp hws
    obtain ⟨ws₃, ws₄, h₃, h₄, rfl⟩ := seqAll_cons_eq_ok.mp h₂
    refine ⟨_, seqAll_cons_eq_ok.mpr ⟨_, _, h₃, seqAll_cons_eq_ok.mpr ⟨_, _, h₁, h₄, rfl⟩, rfl⟩, ?_⟩
    rw [← List.append_assoc, ← List.append_assoc]
    exact List.perm_append_comm.append_right ws₄
  | trans _ _ ih ih' =>
    obtain ⟨ws', h', hp⟩ := ih hws
    obtain ⟨ws'', h'', hp'⟩ := ih' h'
    exact ⟨ws'', h'', hp.trans hp'⟩

theorem same_of_perm {l l' : List (Except Stop (List WlogEnt))} (h : l.Perm l') :
    Same (seqAll l) (seqAll l') where
  right _ hws := seqAll_perm h hws
  left _ hws := by
    obtain ⟨ws', hl, hp⟩ := seqAll_perm h.symm hws
    exact ⟨ws', hl, hp.symm⟩

section

variable {mode : Mode} {d : Disk} {params : Params} {tbl : String → Wpkt String} {depth : ℕ}
  {name : String}

/-- What the code of a statement emits. -/
def actOf (mode : Mode) (d : Disk) (em : String → Params → Prog (List WlogEnt)) (params : Params) :
    WritePktStmt → Except Stop (List WlogEnt)
  | .struct cond loc size val => (genStruct cond loc size val params).run mode d
  | .call cond name exprs =>
    (emitCall em params ⟨evalCond cond, exprs, wpktName name 0⟩).run mode d
  | .other => .error Stop.assertion

theorem run_emitFuncs (fs : List (Params → Prog (List WlogEnt))) :
    (emitFuncs params fs).run mode d = seqAll (fs.map fun f => (f params).run mode d) := by
  induction fs with
  | nil => rfl
  | cons f fs ih =>
    rw [emitFuncs, List.map_cons, seqAll, Prog.run_bind]
    cases (f params).run mode d with
    | error e => rfl
    | ok ws =>
      rw [ok_bind, ok_bind, Prog.run_bind, ih]
      cases seqAll (fs.map fun f => (f params).run mode d) <;> rfl

theorem run_emitCalls (em : String → Params → Prog (List WlogEnt)) (cs : List (WpktCall String)) :
    (emitCalls em params cs).run mode d =
      seqAll (cs.map fun c => (emitCall em params c).run mode d) := by
  induction cs with
  | nil => rfl
  | cons c cs ih =>
    rw [emitCalls, List.map_cons, seqAll, Prog.run_bind]
    cases (emitCall em params c).run mode d with
    | error e => rfl
    | ok ws =>
      rw [ok_bind, ok_bind, Prog.run_bind, ih]
      cases seqAll (cs.map fun c => (emitCall em params c).run mode d) <;> rfl

theorem run_meaningAll (call : String → Params → Prog (List WlogEnt)) (blk : List WritePktStmt) :
    (meaningAll call params blk).run mode d =
      seqAll (blk.map fun s => (s.meaning call params).run mode d) := by
  induction blk with
  | nil => rfl
  | cons s blk ih =>
    rw [meaningAll, List.map_cons, seqAll, Prog.run_bind]
    cases (s.meaning call params).run mode d with
    | error e => rfl
    | ok ws =>
      rw [ok_bind, ok_bind, Prog.run_bind, ih]
      cases seqAll (blk.map fun s => (s.meaning call params).run mode d) <;> rfl

/-- The actions of a packet, as its tables have them: the writes first. -/
def tableActs (mode : Mode) (d : Disk) (em : String → Params → Prog (List WlogEnt)) (params : Params)
    (blk : List WritePktStmt) : List (Except Stop (List WlogEnt)) :=
  (blk.filterMap funcOf).map (fun f => (f params).run mode d) ++
    (blk.filterMap callOf).map fun c => (emitCall em params c).run mode d

theorem run_emit {blk : List WritePktStmt}
    (htbl : tbl name = ⟨blk.filterMap funcOf, blk.filterMap callOf⟩) :
    (emit tbl (depth + 1) name params).run mode d =
      seqAll (tableActs mode d (emit tbl depth) params blk) := by
  rw [emit, htbl, tableActs, seqAll_append, Prog.run_bind, ← run_emitFuncs, ← run_emitCalls]
  cases (emitFuncs params (blk.filterMap funcOf)).run mode d with
  | error e => rfl
  | ok ws => rw [ok_bind, ok_bind, Prog.run_bind]; rfl

theorem tableActs_perm {em : String → Params → Prog (List WlogEnt)} {blk : List WritePktStmt}
    (hproto : ∀ s ∈ blk, s.HasProto) :
    (tableActs mode d em params blk).Perm (blk.map (actOf mode d em params)) := by
  induction blk with
  | nil => exact .refl _
  | cons s blk ih =>
    obtain ⟨hs, hblk⟩ := List.forall_mem_cons.mp hproto
    cases s with
    | struct cond loc size val => exact (ih hblk).cons _
    | call cond name exprs => exact List.perm_middle.trans ((ih hblk).cons _)
    | other => exact hs.elim

/-- No write of the packet stands behind a call. -/
def CallsLast (blk : List WritePktStmt) : Prop :=
  blk.Pairwise fun s s' => callOf s = none ∨ funcOf s' = none

theorem tableActs_eq {em : String → Params → Prog (List WlogEnt)} {blk : List WritePktStmt}
    (hproto : ∀ s ∈ blk, s.HasProto) (hlast : CallsLast blk) :
    tableActs mode d em params blk = blk.map (actOf mode d em params) := by
  induction blk with
  | nil => rfl
  | cons s blk ih =>
    obtain ⟨hs, hblk⟩ := List.forall_mem_cons.mp hproto
    obtain ⟨hbehind, hrest⟩ := List.pairwise_cons.mp hlast
    have hih := ih hblk hrest
    cases s with
    | struct cond loc size val => exact congrArg (_ :: ·) hih
    | call cond name exprs =>
      have hnone : blk.filterMap funcOf = [] :=
        List.filterMap_eq_nil_iff.mpr fun s' hs' => (hbehind s' hs').resolve_left (by simp [callOf])
      have hfuncs : (WritePktStmt.call cond name exprs :: blk).filterMap funcOf = [] := hnone
      rw [tableActs, hnone] at hih
      rw [tableActs, hfuncs, List.map_cons, ← hih]
      rfl
    | other => exact hs.elim

/-- The code of a statement does what the statement means, where the calls do. -/
theorem actOf_rel {R : Except Stop (List WlogEnt) → Except Stop (List WlogEnt) → Prop}
    (hrefl : ∀ x, R x x) {em call : String → Params → Prog (List WlogEnt)} {s : WritePktStmt}
    (hs : s.HasProto)
    (hcall : ∀ cond name exprs, s = .call cond name exprs → ∀ params,
      R ((em (wpktName name 0) params).run mode d) ((call name params).run mode d)) :
    R (actOf mode d em params s) ((s.meaning call params).run mode d) := by
  cases s with
  | struct cond loc size val => exact hrefl _
  | other => exact hs.elim
  | call cond name exprs =>
    rw [actOf, emitCall, WritePktStmt.meaning, Prog.run_bind, Prog.run_bind]
    cases (evalCond cond params).run mode d with
    | error e => exact hrefl _
    | ok b =>
      rw [ok_bind, ok_bind]
      cases b with
      | false => exact hrefl _
      | true =>
        rw [if_pos rfl, if_pos rfl, Prog.run_bind, Prog.run_bind]
        cases (exprs params).run mode d with
        | error e => exact hrefl _
        | ok ps => exact hcall cond name exprs rfl ps

/-- What linked tables have of a packet. -/
theorem Linked.tbl_eq (hl : Linked (wpkts.flatMap WritePkt.syms) tbl)
    (hone : ∀ p ∈ wpkts, p.blocks.length = 1) (hcalls : CallsKnown wpkts) {p : WritePkt}
    (hp : p ∈ wpkts) {blk : List WritePktStmt} (hb : p.blocks = [blk]) :
    tbl (wpktName p.name 0) = ⟨blk.filterMap funcOf, blk.filterMap callOf⟩ := by
  have hload := hl.load (wpktName p.name 0) (rttOf p.name blk)
    (mem_syms hp (by simp [syms_of_blocks hb]))
  rw [loadWpkt_eq hl.nodup hone hcalls hp hb] at hload
  exact (Option.some.inj hload).symm

theorem meaning_succ (hnames : (wpkts.map WritePkt.name).Nodup) {p : WritePkt} (hp : p ∈ wpkts) :
    meaning wpkts (depth + 1) p.name params =
      meaningAll (meaning wpkts depth) params p.blocks.flatten := by
  have hfind : wpkts.find? (fun q => q.name = p.name) = some p := by
    rw [List.find?_eq_some_iff_append]
    obtain ⟨front, back, rfl⟩ := List.append_of_mem hp
    refine ⟨by simp, front, back, rfl, fun q hq => ?_⟩
    rw [List.map_append, List.nodup_append] at hnames
    have hne := hnames.2.2 q.name (List.mem_map_of_mem hq) p.name
      (List.mem_map_of_mem List.mem_cons_self)
    simpa using hne
  rw [meaning, hfind]

/-- Packets of linked tables emit what the packets mean, up to `R`, if the tables of one do. -/
theorem run_emit_rel {R : Except Stop (List WlogEnt) → Except Stop (List WlogEnt) → Prop}
    (hrefl : ∀ x, R x x) (hblk : ∀ p ∈ wpkts, p.blocks ≠ []) (hgen : Generates wpkts syms)
    (hl : Linked syms tbl)
    (hstep : ∀ em call, ∀ p ∈ wpkts, ∀ blk ∈ p.blocks, ∀ params,
      (∀ s ∈ blk, R (actOf mode d em params s) ((s.meaning call params).run mode d)) →
      R (seqAll (tableActs mode d em params blk))
        (seqAll (blk.map fun s => (s.meaning call params).run mode d)))
    (depth : ℕ) {p : WritePkt} (hp : p ∈ wpkts) (params : Params) :
    R ((emit tbl depth (wpktName p.name 0) params).run mode d)
      ((meaning wpkts depth p.name params).run mode d) := by
  obtain ⟨hproto, rfl⟩ := hgen
  obtain ⟨hone, hnames, -, hcalls⟩ := hl.sound hblk
  induction depth generalizing p params with
  | zero => exact hrefl _
  | succ depth ih =>
    obtain ⟨blk, hb⟩ := List.length_eq_one_iff.mp (hone p hp)
    have hmem : blk ∈ p.blocks := by simp [hb]
    have hflat : p.blocks.flatten = blk := by simp [hb]
    rw [run_emit (hl.tbl_eq hone hcalls hp hb), meaning_succ hnames hp, run_meaningAll, hflat]
    refine hstep _ _ p hp blk hmem params fun s hs => ?_
    refine actOf_rel hrefl (hproto p hp blk hmem s hs) fun cond name exprs heq ps => ?_
    obtain ⟨q, hq, rfl⟩ := hcalls p hp blk hmem cond name exprs (heq ▸ hs)
    exact ih hq ps

/-- A packet emits its writes in another order. -/
theorem emit_same (hblk : ∀ p ∈ wpkts, p.blocks ≠ []) (hgen : Generates wpkts syms)
    (hl : Linked syms tbl) (depth : ℕ) {p : WritePkt} (hp : p ∈ wpkts) (params : Params) :
    Same ((emit tbl depth (wpktName p.name 0) params).run mode d)
      ((meaning wpkts depth p.name params).run mode d) := by
  refine run_emit_rel Same.refl hblk hgen hl (fun em call q hq blk hb ps hacts => ?_) depth hp params
  refine (same_of_perm (tableActs_perm (hgen.1 q hq blk hb))).trans (same_of_forall₂ ?_)
  rw [List.forall₂_map_left_iff, List.forall₂_map_right_iff, List.forall₂_same]
  exact hacts

/-- A packet emits its writes in order if in all packets the calls stand behind the writes. -/
theorem emit_eq (hblk : ∀ p ∈ wpkts, p.blocks ≠ []) (hgen : Generates wpkts syms)
    (hl : Linked syms tbl) (hlast : ∀ p ∈ wpkts, ∀ blk ∈ p.blocks, CallsLast blk) (depth : ℕ)
    {p : WritePkt} (hp : p ∈ wpkts) (params : Params) :
    (emit tbl depth (wpktName p.name 0) params).run mode d =
      (meaning wpkts depth p.name params).run mode d := by
  refine run_emit_rel (R := Eq) (fun _ => rfl) hblk hgen hl (fun em call q hq blk hb ps hacts => ?_)
    depth hp params
  rw [tableActs_eq (hgen.1 q hq blk hb) (hlast q hq blk hb)]
  exact congrArg seqAll (List.map_congr_left hacts)

end

/-- Writes that are apart from each other can be made in any order. -/
theorem applyAll_perm {ws ws' : List WlogEnt} (hp : ws.Perm ws') (hapart : ws.Pairwise WlogEnt.Apart)
    (d : Disk) : d.applyAll ws = d.applyAll ws' := by
  have hsymm : ∀ {we we' : WlogEnt}, we.Apart we' → we'.Apart we := fun h k hk =>
    h k ⟨hk.2.2.1, hk.2.2.2, hk.1, hk.2.1⟩
  have hapart' := (hp.pairwise_iff hsymm).mp hapart
  refine Disk.ext_bit (by rw [Disk.size_applyAll, Disk.size_applyAll]) fun k hk => ?_
  rw [Disk.size_applyAll] at hk
  by_cases hcov : ∃ we ∈ ws, we.bitAddr.toNat ≤ k ∧ k < we.bitAddr.toNat + we.bits
  · obtain ⟨we, hwe, hle, hlt⟩ := hcov
    rw [Disk.bit_applyAll_of_mem hapart hwe hk hle hlt,
      Disk.bit_applyAll_of_mem hapart' (hp.mem_iff.mp hwe) hk hle hlt]
  · rw [Disk.bit_applyAll_of_not_mem hk fun we hwe h => hcov ⟨we, hwe, h⟩,
      Disk.bit_applyAll_of_not_mem hk fun we hwe h => hcov ⟨we, hp.mem_iff.mpr hwe, h⟩]

/-- A compiled packet writes to the file what its text says, one statement after the other, if its writes
do not overlap, or in all packets the calls stand behind the writes. -/
theorem wpktDo_meaning {mode : Mode} {d : Disk} {params : Params} {tbl : String → Wpkt String}
    {depth : ℕ} (hblk : ∀ p ∈ wpkts, p.blocks ≠ []) (hgen : Generates wpkts syms)
    (hl : Linked syms tbl) {p : WritePkt} (hp : p ∈ wpkts) {ws : List WlogEnt}
    (hmeans : (meaning wpkts depth p.name params).run mode d = .ok ws) (hroom : ws.length ≤ 64)
    (hfits : ∀ we ∈ ws, we.Fits d.size)
    (horder : ws.Pairwise WlogEnt.Apart ∨ ∀ p ∈ wpkts, ∀ blk ∈ p.blocks, CallsLast blk) {io : Io}
    (hio : Over d io) :
    ∃ io', wpktDo mode tbl depth (wpktName p.name 0) params ⟨io, none⟩ = .ok ((), ⟨io', none⟩) ∧
      Over (d.applyAll ws) io' := by
  refine Commits.run ?_ hio
  rcases horder with hapart | hlast
  · obtain ⟨ws', hemit, hperm⟩ := (emit_same hblk hgen hl depth hp params).left ws hmeans
    exact ⟨ws', hemit, hperm.length_eq ▸ hroom, fun we hwe => hfits we (hperm.mem_iff.mp hwe),
      applyAll_perm hperm.symm hapart d⟩
  · exact ⟨ws, (emit_eq hblk hgen hl hlast depth hp params).trans hmeans, hroom, hfits, rfl⟩

theorem wpktDo_meaning_twoPackets : ∃ tbl io',
    wpktDo .little tbl 2 (wpktName "write_fat" 0) [] ⟨⟨twoLines, ioCacheInit fun _ _ => 0⟩, none⟩ =
        .ok ((), ⟨io', none⟩) ∧
      Over (twoLines.applyAll [⟨8, 2, 8⟩, ⟨0, 1, 1⟩]) io' := by
  obtain ⟨tbl, hl⟩ := twoPackets_sound.exists_linked
  have hmeans : (meaning twoPackets 2 "write_fat" []).run .little twoLines =
      .ok [⟨8, 2, 8⟩, ⟨0, 1, 1⟩] := rfl
  have hfits : ∀ we ∈ [(⟨8, 2, 8⟩ : WlogEnt), ⟨0, 1, 1⟩], we.Fits twoLines.size := by
    unfold WlogEnt.Fits
    decide
  have hapart : [(⟨8, 2, 8⟩ : WlogEnt), ⟨0, 1, 1⟩].Pairwise WlogEnt.Apart := by
    simp [WlogEnt.Apart]
    omega
  obtain ⟨io', hrun, hover⟩ := wpktDo_meaning twoPackets_blocks twoPackets_generates hl
    List.mem_cons_self hmeans (by decide) hfits (Or.inl hapart) ⟨rfl, (reachable_init twoLines _).coherent⟩
  exact ⟨tbl, io', hrun, hover⟩

end Fsl.PacketTables
