import Fsl.Runtime.Packet
import Fsl.Runtime.PhysCopy

/-!
# Relocation

`runtime/writepkt.c`: a `relocate` statement allocates a free block, copies the selected block to it,
links it in place of the selected one and gives that one back. The packets of the last two steps are
both computed on the file after the copy and committed in the order link, replace.
-/

namespace Fsl

open BitNum Pread

variable {ι : Type}

/-- `struct fsl_rtt_wpkt_inst`: a packet with the function that computes its parameters. -/
structure WpktInst (ι : Type) where
  params : List UInt64 → Prog (List UInt64)
  wpkt : ι

/-- `struct fsl_rtt_reloc` for a given parent: the iterator over the free choices, which may fail to
give a block, and the three packets. -/
structure Reloc (ι : Type) where
  choice : UInt64 → Prog (Option TypeInfo)
  alloc : WpktInst ι
  replace : WpktInst ι
  relink : WpktInst ι

/-- `wpkt_params` has room for 16 words; more overrun the stack. -/
def paramsFit (params : List UInt64) : Prog (List UInt64) :=
  if params.length ≤ 16 then pure params else throw Stop.fault

/-- Compute the parameters of a packet and run it. -/
def doInst (mode : Mode) (tbl : ι → Wpkt ι) (depth : ℕ) (inst : WpktInst ι) (args : List UInt64) :
    RtM Unit := do
  let params ← onIo ((inst.params args >>= paramsFit).exec mode)
  ioDoWpkt mode tbl depth inst.wpkt params

/-- The writes a packet emits with these arguments. -/
def emitInst (tbl : ι → Wpkt ι) (depth : ℕ) (inst : WpktInst ι) (args : List UInt64) :
    Prog (List WlogEnt) := do
  let params ← inst.params args >>= paramsFit
  emit tbl depth inst.wpkt params

theorem run_emitInst {mode : Mode} {tbl : ι → Wpkt ι} {depth : ℕ} {inst : WpktInst ι}
    {args params : List UInt64} {ws : List WlogEnt} {d : Disk}
    (hparams : (inst.params args).run mode d = .ok params) (hlen : params.length ≤ 16)
    (h : (emit tbl depth inst.wpkt params).run mode d = .ok ws) :
    (emitInst tbl depth inst args).run mode d = .ok ws := by
  rw [emitInst, Prog.run_bind, Prog.run_bind, hparams, ok_bind, paramsFit, if_pos hlen, Prog.run_pure,
    ok_bind, h]

/-- `wpkt_relocate`; there is no value where the copy does not end. -/
def wpktRelocate (mode : Mode) (tbl : ι → Wpkt ι) (depth : ℕ) (rel : Reloc ι) (sel : TypeInfo)
    (selIdx choiceIdx : UInt32) : RtM (Option Unit) := do
  let choice ← onIo ((rel.choice choiceIdx.toUInt64).exec mode)
  match choice with
  | none => throw Stop.assertion
  | some dst => do
    wlogStart
    doInst mode tbl depth rel.alloc [choiceIdx.toUInt64]
    writeComplete
    match ← onIo (PhysCopy.physCopy mode PhysCopy.copyTurns dst sel) with
    | none => return none
    | some () => do
      wlogStart
      doInst mode tbl depth rel.replace [selIdx.toUInt64]
      let wlogReplace ← ioStealWlog
      wlogStart
      doInst mode tbl depth rel.relink [selIdx.toUInt64, choiceIdx.toUInt64]
      writeComplete
      commitStolen wlogReplace
      return some ()

/-- The steps of a relocation on the file alone: every address, value and condition of the
allocation is taken from the initial disk, and those of the other two packets from the disk after
the copy. The block has less than `2 ^ 32` bytes, every log has room for its packet and every write
fits the disk. -/
structure Relocation (mode : Mode) (tbl : ι → Wpkt ι) (depth : ℕ) (rel : Reloc ι) (sel : TypeInfo)
    (selIdx choiceIdx : UInt32) (d : Disk) (dst : TypeInfo) (sz : UInt64)
    (alloc relink replace : List WlogEnt) (copied : Disk) : Prop where
  choice : (rel.choice choiceIdx.toUInt64).run mode d = .ok (some dst)
  alloc_emits : (emitInst tbl depth rel.alloc [choiceIdx.toUInt64]).run mode d = .ok alloc
  alloc_room : alloc.length ≤ 64
  alloc_fits : ∀ we ∈ alloc, we.Fits d.size
  copyable : Copyable mode (d.applyAll alloc) dst sel sz
  copy_ends : sz.toNat / 8 < 2 ^ 32
  copied_eq : copied = (d.applyAll alloc).copyBlock (sel.offset.toNat / 8) (dst.offset.toNat / 8)
    (sz.toNat / 8)
  replace_emits : (emitInst tbl depth rel.replace [selIdx.toUInt64]).run mode copied = .ok replace
  replace_room : replace.length ≤ 64
  replace_fits : ∀ we ∈ replace, we.Fits d.size
  relink_emits : (emitInst tbl depth rel.relink [selIdx.toUInt64, choiceIdx.toUInt64]).run mode
    copied = .ok relink
  relink_room : relink.length ≤ 64
  relink_fits : ∀ we ∈ relink, we.Fits d.size

theorem run_bind_ok {σ ε α β : Type} {x : StateT σ (Except ε) α} {f : α → StateT σ (Except ε) β}
    {s s' : σ} {a : α} (h : x s = .ok (a, s')) : (x >>= f) s = f a s' := by
  show (x s >>= fun p => f p.1 p.2) = f a s'
  rw [h]
  rfl

theorem onIo_ok {α : Type} {x : IoM α} {io io' : Io} {wlog : Wlog} {a : α}
    (h : x io = .ok (a, io')) : onIo x ⟨io, wlog⟩ = .ok (a, ⟨io', wlog⟩) := by
  rw [onIo, h]
  rfl

theorem wlogStart_ok (io : Io) : wlogStart ⟨io, none⟩ = .ok ((), ⟨io, some []⟩) := rfl

/-- A packet in a freshly started log. -/
theorem doInst_ok {mode : Mode} {tbl : ι → Wpkt ι} {depth : ℕ} {inst : WpktInst ι}
    {args : List UInt64} {ws : List WlogEnt} {d : Disk} {io : Io} (hio : Over d io)
    (hemit : (emitInst tbl depth inst args).run mode d = .ok ws) (hroom : ws.length ≤ 64) :
    ∃ io', doInst mode tbl depth inst args ⟨io, some []⟩ = .ok ((), ⟨io', some ws⟩) ∧
      Over d io' := by
  rw [emitInst, Prog.run_bind] at hemit
  obtain ⟨params, hp, hemit⟩ := bind_eq_ok hemit
  have hlogs : Logs d (doInst mode tbl depth inst args) ws :=
    Logs.prog hp (ioDoWpkt_logs hemit)
  obtain ⟨⟨io', wlog'⟩, hx, hover, hw⟩ := hlogs ⟨io, some []⟩ [] hio rfl (by simpa using hroom)
  rw [List.nil_append] at hw
  change wlog' = some ws at hw
  subst hw
  exact ⟨io', hx, hover⟩

theorem writeComplete_ok {d : Disk} {io : Io} {l : List WlogEnt} (hio : Over d io)
    (hfits : ∀ we ∈ l, we.Fits d.size) :
    ∃ io', writeComplete ⟨io, some l⟩ = .ok ((), ⟨io', none⟩) ∧ Over (d.applyAll l) io' := by
  obtain ⟨rfl, hc⟩ := hio
  obtain ⟨io', hx, hd, hc'⟩ := commitEnts_ok hc hfits
  refine ⟨io', ?_, hd, hc'⟩
  have hcommit : wlogCommit ⟨io, some l⟩ = .ok ((), ⟨io', some []⟩) := by
    simp only [wlogCommit, bind, StateT.bind, get, getThe, MonadStateOf.get, StateT.get, pure,
      Except.pure, Except.bind, onIo, hx, Except.map, modify, modifyGet,
      MonadStateOf.modifyGet, StateT.modifyGet]
  rw [writeComplete, run_bind_ok hcommit]
  rfl

/-- The relocation procedure carries out its steps: from a stopped log and a coherent cache it
returns with the log stopped again and the file as the steps leave it. -/
theorem Relocation.run {mode : Mode} {tbl : ι → Wpkt ι} {depth : ℕ} {rel : Reloc ι}
    {sel : TypeInfo} {selIdx choiceIdx : UInt32} {dst : TypeInfo} {sz : UInt64}
    {alloc relink replace : List WlogEnt} {d copied : Disk} {io : Io} (hio : Over d io)
    (h : Relocation mode tbl depth rel sel selIdx choiceIdx d dst sz alloc relink replace copied) :
    ∃ io', wpktRelocate mode tbl depth rel sel selIdx choiceIdx ⟨io, none⟩ =
        .ok (some (), ⟨io', none⟩) ∧ Over ((copied.applyAll relink).applyAll replace) io' := by
  have hchoice : Refines (Over d) Eq ((rel.choice choiceIdx.toUInt64).exec mode)
      ((rel.choice choiceIdx.toUInt64).run mode d) := Prog.exec_refines _
  rw [h.choice] at hchoice
  obtain ⟨_, io0, h0, rfl, hio0⟩ := hchoice io hio
  obtain ⟨io1, h1, hio1⟩ := doInst_ok hio0 h.alloc_emits h.alloc_room
  obtain ⟨io2, h2, hio2⟩ := writeComplete_ok hio1 h.alloc_fits
  have hcopyable := h.copyable
  rw [← hio2.1] at hcopyable
  obtain ⟨io3, hturns, hd3, hc3⟩ := PhysCopy.physCopy_ok hio2.2 hcopyable h.copy_ends
  have h3 := PhysCopy.physCopy_copyTurns (hturns _ (Nat.lt_succ_self _))
  have hio3 : Over copied io3 := ⟨by rw [hd3, hio2.1, h.copied_eq], hc3⟩
  have hsize : copied.size = d.size := by
    rw [h.copied_eq, Disk.size_copyBlock, Disk.size_applyAll]
  obtain ⟨io4, h4, hio4⟩ := doInst_ok hio3 h.replace_emits h.replace_room
  obtain ⟨io5, h5, hio5⟩ := doInst_ok hio4 h.relink_emits h.relink_room
  obtain ⟨io6, h6, hio6⟩ := writeComplete_ok hio5 (by rw [hsize]; exact h.relink_fits)
  obtain ⟨io7, h7, hd7, hc7⟩ := commitEnts_ok (l := replace) hio6.2
    (by rw [hio6.1, Disk.size_applyAll, hsize]; exact h.replace_fits)
  refine ⟨io7, ?_, by rw [hd7, hio6.1], hc7⟩
  rw [wpktRelocate, run_bind_ok (onIo_ok h0)]
  show (wlogStart >>= _) (⟨io0, none⟩ : Rt) = _
  rw [run_bind_ok (wlogStart_ok io0), run_bind_ok h1, run_bind_ok h2,
    run_bind_ok (onIo_ok h3)]
  show (wlogStart >>= _) (⟨io3, none⟩ : Rt) = _
  rw [run_bind_ok (wlogStart_ok io3), run_bind_ok h4,
    run_bind_ok (show ioStealWlog ⟨io4, some replace⟩ = .ok (some replace, ⟨io4, none⟩) from rfl),
    run_bind_ok (wlogStart_ok io4), run_bind_ok h5, run_bind_ok h6,
    run_bind_ok (show commitStolen (some replace) ⟨io6, none⟩ = .ok ((), ⟨io7, none⟩) from onIo_ok h7)]
  rfl

/-- The packet `w` commits: on the file `d` it emits writes that have room in a log and fit the disk,
and `d'` is the file after them. -/
def Commits (mode : Mode) (tbl : ι → Wpkt ι) (depth : ℕ) (w : ι) (params : List UInt64)
    (d d' : Disk) : Prop :=
  ∃ ws, (emit tbl depth w params).run mode d = .ok ws ∧ ws.length ≤ 64 ∧
    (∀ we ∈ ws, we.Fits d.size) ∧ d' = d.applyAll ws

/-- `wpkt_do` with given parameters. -/
def wpktDo (mode : Mode) (tbl : ι → Wpkt ι) (depth : ℕ) (w : ι) (params : List UInt64) :
    RtM Unit := do
  wlogStart
  ioDoWpkt mode tbl depth w params
  writeComplete

/-- A packet that commits on the file is committed by the runtime. -/
theorem Commits.run {mode : Mode} {tbl : ι → Wpkt ι} {depth : ℕ} {w : ι} {params : List UInt64}
    {d d' : Disk} (h : Commits mode tbl depth w params d d') {io : Io} (hio : Over d io) :
    ∃ io', wpktDo mode tbl depth w params ⟨io, none⟩ = .ok ((), ⟨io', none⟩) ∧ Over d' io' := by
  obtain ⟨ws, hemit, hroom, hfits, rfl⟩ := h
  obtain ⟨⟨io1, wlog1⟩, h1, hio1, hw⟩ :=
    ioDoWpkt_logs hemit ⟨io, some []⟩ [] hio rfl (by simpa using hroom)
  change wlog1 = some ws at hw
  subst hw
  obtain ⟨io', h2, hio'⟩ := writeComplete_ok hio1 hfits
  refine ⟨io', ?_, hio'⟩
  rw [wpktDo, run_bind_ok (wlogStart_ok io), run_bind_ok h1, h2]

/-- Starting the log, running any packet and dropping the log leaves the file as it was. -/
theorem doInst_drop {mode : Mode} {tbl : ι → Wpkt ι} {depth : ℕ} {inst : WpktInst ι}
    {args : List UInt64} {rt rt' : Rt} (hc : rt.io.Coherent)
    (h : (do wlogStart; doInst mode tbl depth inst args; wlogInit) rt = .ok ((), rt')) :
    rt'.io.disk = rt.io.disk ∧ rt'.wlog = none := by
  obtain ⟨io, wlog⟩ := rt
  cases wlog with
  | some l => cases h
  | none =>
    have hstart : (do wlogStart; doInst mode tbl depth inst args; wlogInit) (⟨io, none⟩ : Rt) =
        (do doInst mode tbl depth inst args; wlogInit) ⟨io, some []⟩ :=
      run_bind_ok (wlogStart_ok io)
    rw [hstart] at h
    obtain ⟨⟨_, rt1⟩, h1, h2⟩ := bind_eq_ok
      (show (doInst mode tbl depth inst args ⟨io, some []⟩ >>= fun p => wlogInit p.2) = _ from h)
    have hkeeps : KeepsDisk (doInst mode tbl depth inst args) :=
      KeepsDisk.bind (KeepsDisk.prog mode _) fun _ => KeepsDisk.ioDoWpkt mode tbl depth _ _
    have hd := (hkeeps ⟨io, some []⟩ _ rt1 hc h1).1
    cases h2
    exact ⟨hd, rfl⟩

/-- Relocation is sequential: started with a stopped log, the procedure leaves the disk after the
writes of the allocation, the copy, the writes of the relink packet and the writes of the replace
packet, in this order, where the allocation is computed on the initial disk and the other two on the
disk after the copy; the log is stopped again. A log that is dropped leaves no trace. -/
theorem wpktRelocate_sequential {mode : Mode} {tbl : ι → Wpkt ι} {depth : ℕ} {rt : Rt}
    (hr : rt.io.Reachable) (hlog : rt.wlog = none) :
    (∀ rel sel selIdx choiceIdx dst sz alloc relink replace copied,
      Relocation mode tbl depth rel sel selIdx choiceIdx rt.io.disk dst sz alloc relink replace
          copied →
        ∃ rt', wpktRelocate mode tbl depth rel sel selIdx choiceIdx rt = .ok (some (), rt') ∧
          rt'.io.disk = (copied.applyAll relink).applyAll replace ∧ rt'.wlog = none ∧
          rt'.io.Coherent) ∧
    ∀ inst args rt', (do wlogStart; doInst mode tbl depth inst args; wlogInit) rt = .ok ((), rt') →
      rt'.io.disk = rt.io.disk ∧ rt'.wlog = none := by
  refine ⟨?_, fun inst args rt' h => doInst_drop hr.coherent h⟩
  intro rel sel selIdx choiceIdx dst sz alloc relink replace copied h
  obtain ⟨io, wlog⟩ := rt
  change wlog = none at hlog
  subst hlog
  obtain ⟨io', hx, hover⟩ := h.run ⟨rfl, hr.coherent⟩
  exact ⟨⟨io', none⟩, hx, hover.1, rfl, hover.2⟩

/-- Packets that each write one field and call nothing. -/
def oneWrite (we : ℕ → WlogEnt) (w : ℕ) : Wpkt ℕ := ⟨[fun _ => pure [we w]], []⟩

/-- A relocation of byte 8 to byte 16 with the packets 0, 1 and 2. -/
def byteReloc : Reloc ℕ where
  choice := fun _ => pure (some ⟨128, pure 8, false⟩)
  alloc := ⟨pure, 0⟩
  replace := ⟨pure, 1⟩
  relink := ⟨pure, 2⟩

/-- The writes of the three packets: two single bits and a byte. -/
def byteWrites : ℕ → WlogEnt
  | 0 => ⟨0, 1, 1⟩
  | 1 => ⟨1, 0, 1⟩
  | _ => ⟨24, 2, 8⟩

theorem wpktRelocate_sequential_byte :
    ∃ rt', wpktRelocate .little (oneWrite byteWrites) 1 byteReloc ⟨64, pure 8, false⟩ 0 0
        ⟨⟨twoLines, ioCacheInit fun _ _ => 0⟩, none⟩ = .ok (some (), rt') ∧ rt'.wlog = none := by
  have hfits : ∀ w, (byteWrites w).Fits 64 := by
    intro w
    unfold byteWrites WlogEnt.Fits
    split <;> decide
  have hrel : Relocation .little (oneWrite byteWrites) 1 byteReloc ⟨64, pure 8, false⟩ 0 0 twoLines
      ⟨128, pure 8, false⟩ 8 [byteWrites 0] [byteWrites 2] [byteWrites 1]
      ((twoLines.applyAll [byteWrites 0]).copyBlock 8 16 1) :=
    { choice := rfl
      alloc_emits := rfl
      alloc_room := by decide
      alloc_fits := List.forall_mem_singleton.mpr (hfits 0)
      copyable := ⟨rfl, rfl, rfl, rfl, rfl, rfl, rfl, by decide, by decide⟩
      copy_ends := by decide
      copied_eq := rfl
      replace_emits := rfl
      replace_room := by decide
      replace_fits := List.forall_mem_singleton.mpr (hfits 1)
      relink_emits := rfl
      relink_room := by decide
      relink_fits := List.forall_mem_singleton.mpr (hfits 2) }
  have hr : (Rt.mk ⟨twoLines, ioCacheInit fun _ _ => 0⟩ none).io.Reachable :=
    reachable_init twoLines _
  obtain ⟨rt', hx, -, hlog, -⟩ := (wpktRelocate_sequential hr rfl).1 _ _ _ _ _ _ _ _ _ _ hrel
  exact ⟨rt', hx, hlog⟩

/-- Packets that each log a single write of 12 bits, as those of a FAT12 do, stop the process when
the first log is committed. -/
theorem wpktRelocate_stops_on_twelve_bits :
    (∀ inst ∈ [byteReloc.alloc, byteReloc.relink, byteReloc.replace], ∀ d args,
      args.length ≤ 2 →
        (emitInst (oneWrite fun _ => ⟨0, 0, 12⟩) 1 inst args).run .little d =
          .ok [⟨0, 0, 12⟩]) ∧
      wpktRelocate .little (oneWrite fun _ => ⟨0, 0, 12⟩) 1 byteReloc ⟨64, pure 8, false⟩ 0 0
        ⟨⟨twoLines, ioCacheInit fun _ _ => 0⟩, none⟩ = .error .assertion := by
  refine ⟨?_, rfl⟩
  intro inst hinst d args hlen
  have hfit : (paramsFit args : Prog (List UInt64)) = pure args := if_pos (by omega)
  simp only [List.mem_cons, List.not_mem_nil, or_false] at hinst
  rcases hinst with rfl | rfl | rfl
  all_goals
    show ((paramsFit args >>= emit _ 1 _).run .little d) = _
    rw [hfit]
    rfl

end Fsl
