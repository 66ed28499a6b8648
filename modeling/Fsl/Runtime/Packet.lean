import Fsl.Runtime.Log

/-!
# Write packets

A `write` statement of FSL is compiled to a packet: functions that emit the writes of its body, and
conditional calls of other packets, which may be recursive. `fsl_io_do_wpkt` runs the functions and
then the calls; every write goes to the log. What a packet logs is a function of the file alone.
-/

namespace Fsl

open Pread

/-- `struct fsl_rtt_wpkt2wpkt`: a conditional call of the packet `wpkt`. -/
structure WpktCall (ι : Type) where
  cond : List UInt64 → Prog Bool
  params : List UInt64 → Prog (List UInt64)
  wpkt : ι

/-- `struct fsl_rtt_wpkt`. A function returns the writes it hands to `__writeVal`. -/
structure Wpkt (ι : Type) where
  funcs : List (List UInt64 → Prog (List WlogEnt))
  calls : List (WpktCall ι)

/-- A `write` statement with a condition. -/
def writeIf (cond : Bool) (loc : Prog UInt64) (width val : UInt64) : Prog (List WlogEnt) :=
  if cond then do return [writeVal (← loc) width val] else pure []

variable {ι : Type}

/-! ## What a packet emits -/

def emitFuncs (params : List UInt64) : List (List UInt64 → Prog (List WlogEnt)) →
    Prog (List WlogEnt)
  | [] => pure []
  | f :: fs => do
    let ws ← f params
    let rest ← emitFuncs params fs
    return ws ++ rest

def emitCall (emit : ι → List UInt64 → Prog (List WlogEnt)) (params : List UInt64)
    (c : WpktCall ι) : Prog (List WlogEnt) := do
  let b ← c.cond params
  if b then c.params params >>= emit c.wpkt else pure []

def emitCalls (emit : ι → List UInt64 → Prog (List WlogEnt)) (params : List UInt64) :
    List (WpktCall ι) → Prog (List WlogEnt)
  | [] => pure []
  | c :: cs => do
    let ws ← emitCall emit params c
    let rest ← emitCalls emit params cs
    return ws ++ rest

/-- The writes of a packet and of the packets it calls, in the order they reach the log. `depth`
bounds the nesting of calls, as the stack does; a call beyond it faults. -/
def emit (tbl : ι → Wpkt ι) : ℕ → ι → List UInt64 → Prog (List WlogEnt)
  | 0, _, _ => throw Stop.fault
  | depth + 1, w, params => do
    let ws ← emitFuncs params (tbl w).funcs
    let rest ← emitCalls (emit tbl depth) params (tbl w).calls
    return ws ++ rest

theorem emit_no_calls {tbl : ι → Wpkt ι} {w : ι} (h : (tbl w).calls = [])
    (depth : ℕ) (params : List UInt64) :
    emit tbl (depth + 1) w params = emitFuncs params (tbl w).funcs := by
  rw [emit, h]
  simp only [emitCalls, pure_bind, List.append_nil, bind_pure]

/-- A packet that only calls another one. -/
theorem emit_of_call {tbl : ι → Wpkt ι} {w w' : ι} {k : ℕ} {params : List UInt64}
    {f : List UInt64 → Prog (List UInt64)} (hfuncs : (tbl w).funcs = [])
    (hcalls : (tbl w).calls = [⟨fun _ => pure true, f, w'⟩]) :
    emit tbl (k + 1) w params = f params >>= emit tbl k w' := by
  rw [emit, hfuncs, hcalls]
  simp only [emitFuncs, emitCalls, emitCall, pure_bind, if_true, bind_pure, List.append_nil,
    List.nil_append]

section

variable {em : ι → List UInt64 → Prog (List WlogEnt)} {tbl : ι → Wpkt ι} {w : ι} {k : ℕ}
  {params q : List UInt64} {c : WpktCall ι} {cs : List (WpktCall ι)} {ws rest : List WlogEnt}
  {mode : Mode} {d : Disk}

theorem run_emitCall_eq (hcond : (c.cond params).run mode d = .ok true)
    (hparams : (c.params params).run mode d = .ok q) :
    (emitCall em params c).run mode d = (em c.wpkt q).run mode d := by
  rw [emitCall, Prog.run_bind, hcond, ok_bind, if_pos rfl, Prog.run_bind, hparams, ok_bind]

theorem run_emitCall_true (hcond : (c.cond params).run mode d = .ok true)
    (hparams : (c.params params).run mode d = .ok q) (h : (em c.wpkt q).run mode d = .ok ws) :
    (emitCall em params c).run mode d = .ok ws :=
  (run_emitCall_eq hcond hparams).trans h

theorem run_emitCall_false (hcond : (c.cond params).run mode d = .ok false) :
    (emitCall em params c).run mode d = .ok [] := by
  rw [emitCall, Prog.run_bind, hcond, ok_bind, if_neg Bool.false_ne_true]
  rfl

theorem run_emitCalls_cons (hc : (emitCall em params c).run mode d = .ok ws)
    (hcs : (emitCalls em params cs).run mode d = .ok rest) :
    (emitCalls em params (c :: cs)).run mode d = .ok (ws ++ rest) := by
  rw [emitCalls, Prog.run_bind, hc, ok_bind, Prog.run_bind, hcs]
  rfl

/-- A packet that writes nothing itself. -/
theorem run_emit_calls (hfuncs : (tbl w).funcs = [])
    (h : (emitCalls (emit tbl k) params (tbl w).calls).run mode d = .ok ws) :
    (emit tbl (k + 1) w params).run mode d = .ok ws := by
  rw [emit, hfuncs, emitFuncs, pure_bind, Prog.run_bind, h]
  rfl

theorem run_emitCalls_nil_iff : (emitCalls em params []).run mode d = .ok ws ↔ ws = [] := by
  rw [emitCalls, Prog.run_pure, Except.ok.injEq, eq_comm]

theorem run_emitCalls_cons_iff : (emitCalls em params (c :: cs)).run mode d = .ok ws ↔
    ∃ ws₁ ws₂, (emitCall em params c).run mode d = .ok ws₁ ∧
      (emitCalls em params cs).run mode d = .ok ws₂ ∧ ws = ws₁ ++ ws₂ := by
  constructor
  · intro h
    rw [emitCalls, Prog.run_bind] at h
    obtain ⟨ws₁, h₁, h⟩ := bind_eq_ok h
    rw [Prog.run_bind] at h
    obtain ⟨ws₂, h₂, h⟩ := bind_eq_ok h
    exact ⟨ws₁, ws₂, h₁, h₂, (Except.ok.inj h).symm⟩
  · rintro ⟨ws₁, ws₂, h₁, h₂, rfl⟩
    exact run_emitCalls_cons h₁ h₂

theorem run_emitCalls_singleton_iff : (emitCalls em params [c]).run mode d = .ok ws ↔
    (emitCall em params c).run mode d = .ok ws := by
  rw [run_emitCalls_cons_iff]
  constructor
  · rintro ⟨ws₁, ws₂, h₁, h₂, rfl⟩
    rw [run_emitCalls_nil_iff.mp h₂, List.append_nil]
    exact h₁
  · exact fun h => ⟨ws, [], h, rfl, (List.append_nil ws).symm⟩

/-- A call emits what its packet emits if its condition holds, and nothing otherwise. -/
theorem run_emitCall_iff {cond : Bool} (hcond : (c.cond params).run mode d = .ok cond) :
    (emitCall em params c).run mode d = .ok ws ↔
      if cond = true then ∃ q, (c.params params).run mode d = .ok q ∧
        (em c.wpkt q).run mode d = .ok ws
      else ws = [] := by
  cases cond with
  | false =>
    rw [run_emitCall_false hcond, Except.ok.injEq, if_neg Bool.false_ne_true, eq_comm]
  | true =>
    rw [if_pos rfl, emitCall, Prog.run_bind, hcond, ok_bind, if_pos rfl, Prog.run_bind]
    constructor
    · exact bind_eq_ok
    · rintro ⟨q, hps, h⟩
      rw [hps, ok_bind, h]

theorem run_emit_iff (hfuncs : (tbl w).funcs = []) : (emit tbl (k + 1) w params).run mode d = .ok ws ↔
    (emitCalls (emit tbl k) params (tbl w).calls).run mode d = .ok ws := by
  refine ⟨fun h => ?_, run_emit_calls hfuncs⟩
  rw [emit, hfuncs, emitFuncs, pure_bind, Prog.run_bind] at h
  obtain ⟨rest, hrest, h⟩ := bind_eq_ok h
  rw [hrest, ← Except.ok.inj h]
  rfl

theorem run_emitCalls_mono {em' : ι → List UInt64 → Prog (List WlogEnt)}
    (hem : ∀ w q ws, (em w q).run mode d = .ok ws → (em' w q).run mode d = .ok ws)
    (h : (emitCalls em params cs).run mode d = .ok ws) :
    (emitCalls em' params cs).run mode d = .ok ws := by
  induction cs generalizing ws with
  | nil => exact h
  | cons c cs ih =>
    obtain ⟨ws₁, ws₂, h₁, h₂, rfl⟩ := run_emitCalls_cons_iff.mp h
    refine run_emitCalls_cons ?_ (ih h₂)
    rw [emitCall, Prog.run_bind] at h₁
    obtain ⟨cond, hcond, h₁⟩ := bind_eq_ok h₁
    cases cond with
    | false =>
      obtain rfl := Except.ok.inj h₁
      exact run_emitCall_false hcond
    | true =>
      rw [if_pos rfl, Prog.run_bind] at h₁
      obtain ⟨q, hps, h₁⟩ := bind_eq_ok h₁
      exact run_emitCall_true hcond hps (hem _ _ _ h₁)

/-- A deeper stack does not change what a packet emits. -/
theorem run_emit_mono {l : ℕ} (hkl : k ≤ l) (h : (emit tbl k w params).run mode d = .ok ws) :
    (emit tbl l w params).run mode d = .ok ws := by
  induction k generalizing l w params ws with
  | zero => cases h
  | succ k ih =>
    obtain ⟨l, rfl⟩ := Nat.exists_eq_succ_of_ne_zero (show l ≠ 0 by omega)
    rw [emit, Prog.run_bind] at h ⊢
    obtain ⟨a, ha, h⟩ := bind_eq_ok h
    rw [Prog.run_bind] at h
    obtain ⟨rest, hr, h⟩ := bind_eq_ok h
    rw [ha, ok_bind, Prog.run_bind,
      run_emitCalls_mono (fun _ _ _ hrec => ih (Nat.le_of_succ_le_succ hkl) hrec) hr]
    exact h

end

/-! ## The runtime -/

def addAll : List WlogEnt → RtM Unit
  | [] => pure ()
  | we :: ws => do
    wlogAdd we
    addAll ws

def doFuncs (mode : Mode) (params : List UInt64) : List (List UInt64 → Prog (List WlogEnt)) →
    RtM Unit
  | [] => pure ()
  | f :: fs => do
    let ws ← onIo ((f params).exec mode)
    addAll ws
    doFuncs mode params fs

def doCall (mode : Mode) (doWpkt : ι → List UInt64 → RtM Unit) (params : List UInt64)
    (c : WpktCall ι) : RtM Unit := do
  let b ← onIo ((c.cond params).exec mode)
  if b then onIo ((c.params params).exec mode) >>= doWpkt c.wpkt else pure ()

def doCalls (mode : Mode) (doWpkt : ι → List UInt64 → RtM Unit) (params : List UInt64) :
    List (WpktCall ι) → RtM Unit
  | [] => pure ()
  | c :: cs => do
    doCall mode doWpkt params c
    doCalls mode doWpkt params cs

/-- `fsl_io_do_wpkt`. -/
def ioDoWpkt (mode : Mode) (tbl : ι → Wpkt ι) : ℕ → ι → List UInt64 → RtM Unit
  | 0, _, _ => throw Stop.fault
  | depth + 1, w, params => do
    doFuncs mode params (tbl w).funcs
    doCalls mode (ioDoWpkt mode tbl depth) params (tbl w).calls

/-! ## The log after a packet -/

/-- Over the file `d`, `x` adds the writes `ws` to a started log that has room for them and does
nothing else. -/
def Logs (d : Disk) (x : RtM Unit) (ws : List WlogEnt) : Prop :=
  ∀ rt l, Over d rt.io → rt.wlog = some l → l.length + ws.length ≤ 64 →
    ∃ rt', x rt = .ok ((), rt') ∧ Over d rt'.io ∧ rt'.wlog = some (l ++ ws)

namespace Logs

variable {d : Disk} {mode : Mode} {x y : RtM Unit} {ws ws' : List WlogEnt}

theorem nil : Logs d (pure ()) [] := fun rt l hd hl _ =>
  ⟨rt, rfl, hd, by rw [List.append_nil]; exact hl⟩

theorem append (hx : Logs d x ws) (hy : Logs d y ws') :
    Logs d (do x; y) (ws ++ ws') := by
  intro rt l hd hl hlen
  rw [List.length_append] at hlen
  obtain ⟨rt1, h1, hd1, hl1⟩ := hx rt l hd hl (by omega)
  obtain ⟨rt2, h2, hd2, hl2⟩ := hy rt1 _ hd1 hl1 (by rw [List.length_append]; omega)
  refine ⟨rt2, ?_, hd2, ?_⟩
  · rw [← h2]
    show (x rt >>= fun p => y p.2) = y rt1
    rw [h1]
    rfl
  · rw [hl2, List.append_assoc]

/-- Code that is run before a logging step may be run over the file. -/
theorem prog {α : Type} {p : Prog α} {a : α} {k : α → RtM Unit} (hp : p.run mode d = .ok a)
    (hk : Logs d (k a) ws) : Logs d (onIo (p.exec mode) >>= k) ws := by
  intro rt l hd hl hlen
  have href : Refines (Over d) Eq (p.exec mode) (p.run mode d) := Prog.exec_refines p
  rw [hp] at href
  obtain ⟨a', io', hx, rfl, hio⟩ := href rt.io hd
  obtain ⟨rt', hr, hd', hl'⟩ := hk { rt with io := io' } l hio hl hlen
  refine ⟨rt', ?_, hd', hl'⟩
  rw [← hr]
  show (onIo (p.exec mode) rt >>= fun q => k q.1 q.2) = _
  rw [onIo, hx]
  rfl

theorem addAll (ws : List WlogEnt) : Logs d (Fsl.addAll ws) ws := by
  induction ws with
  | nil => exact nil
  | cons we ws ih =>
    show Logs d (do wlogAdd we; Fsl.addAll ws) ([we] ++ ws)
    refine append (fun rt l hd hl hlen => ?_) ih
    have hne : l.length ≠ 64 := by
      rw [List.length_singleton] at hlen
      omega
    refine ⟨{ rt with wlog := some (l ++ [we]) }, ?_, hd, rfl⟩
    simp only [wlogAdd, bind, StateT.bind, get, getThe, MonadStateOf.get, StateT.get, pure,
      Except.pure, Except.bind, hl, fslAssert, hne, ne_eq, not_false_eq_true, if_true, StateT.pure,
      modify, modifyGet, MonadStateOf.modifyGet, StateT.modifyGet]

end Logs

section

variable {mode : Mode} {tbl : ι → Wpkt ι} {d : Disk}

theorem doFuncs_logs {params : List UInt64} {fs : List (List UInt64 → Prog (List WlogEnt))}
    {ws : List WlogEnt} (h : (emitFuncs params fs).run mode d = .ok ws) :
    Logs d (doFuncs mode params fs) ws := by
  induction fs generalizing ws with
  | nil =>
    cases h
    exact Logs.nil
  | cons f fs ih =>
    rw [emitFuncs, Prog.run_bind] at h
    obtain ⟨w, hw, h⟩ := bind_eq_ok h
    rw [Prog.run_bind] at h
    obtain ⟨rest, hr, h⟩ := bind_eq_ok h
    cases h
    exact Logs.prog hw (Logs.append (Logs.addAll w) (ih hr))

theorem doCall_logs {em : ι → List UInt64 → Prog (List WlogEnt)} {dw : ι → List UInt64 → RtM Unit}
    (hrec : ∀ w q ws, (em w q).run mode d = .ok ws → Logs d (dw w q) ws)
    {params : List UInt64} {c : WpktCall ι} {ws : List WlogEnt}
    (h : (emitCall em params c).run mode d = .ok ws) : Logs d (doCall mode dw params c) ws := by
  rw [emitCall, Prog.run_bind] at h
  obtain ⟨b, hb, h⟩ := bind_eq_ok h
  refine Logs.prog hb ?_
  cases b with
  | false =>
    cases h
    exact Logs.nil
  | true =>
    rw [if_pos rfl, Prog.run_bind] at h
    obtain ⟨q, hps, h⟩ := bind_eq_ok h
    exact Logs.prog hps (hrec c.wpkt q ws h)

theorem doCalls_logs {em : ι → List UInt64 → Prog (List WlogEnt)} {dw : ι → List UInt64 → RtM Unit}
    (hrec : ∀ w q ws, (em w q).run mode d = .ok ws → Logs d (dw w q) ws)
    {params : List UInt64} {cs : List (WpktCall ι)} {ws : List WlogEnt}
    (h : (emitCalls em params cs).run mode d = .ok ws) :
    Logs d (doCalls mode dw params cs) ws := by
  induction cs generalizing ws with
  | nil =>
    cases h
    exact Logs.nil
  | cons c cs ih =>
    rw [emitCalls, Prog.run_bind] at h
    obtain ⟨w, hw, h⟩ := bind_eq_ok h
    rw [Prog.run_bind] at h
    obtain ⟨rest, hr, h⟩ := bind_eq_ok h
    cases h
    exact Logs.append (doCall_logs hrec hw) (ih hr)

/-- A packet logs what it emits over the file, whatever nesting of calls it takes. -/
theorem ioDoWpkt_logs {depth : ℕ} {w : ι} {params : List UInt64} {ws : List WlogEnt}
    (h : (emit tbl depth w params).run mode d = .ok ws) :
    Logs d (ioDoWpkt mode tbl depth w params) ws := by
  induction depth generalizing w params ws with
  | zero => cases h
  | succ depth ih =>
    rw [emit, Prog.run_bind] at h
    obtain ⟨a, ha, h⟩ := bind_eq_ok h
    rw [Prog.run_bind] at h
    obtain ⟨b, hb, h⟩ := bind_eq_ok h
    cases h
    exact Logs.append (doFuncs_logs ha) (doCalls_logs (fun _ _ _ hrec => ih hrec) hb)

end

/-! ## A packet does not touch the file -/

/-- `x` leaves the file alone and keeps the cache coherent. -/
def KeepsDisk {α : Type} (x : RtM α) : Prop :=
  ∀ rt a rt', rt.io.Coherent → x rt = .ok (a, rt') → rt'.io.disk = rt.io.disk ∧ rt'.io.Coherent

namespace KeepsDisk

variable {α β : Type}

theorem pure (a : α) : KeepsDisk (Pure.pure a : RtM α) := by
  intro rt b rt' hc h
  cases h
  exact ⟨rfl, hc⟩

theorem bind {x : RtM α} {f : α → RtM β} (hx : KeepsDisk x) (hf : ∀ a, KeepsDisk (f a)) :
    KeepsDisk (x >>= f) := by
  intro rt b rt' hc h
  obtain ⟨⟨a, rt1⟩, h1, h2⟩ := bind_eq_ok (show (x rt >>= fun p => f p.1 p.2) = .ok (b, rt') from h)
  obtain ⟨hd1, hc1⟩ := hx rt a rt1 hc h1
  obtain ⟨hd2, hc2⟩ := hf a rt1 b rt' hc1 h2
  exact ⟨hd2.trans hd1, hc2⟩

theorem prog (mode : Mode) (p : Prog α) : KeepsDisk (onIo (p.exec mode)) := by
  intro rt a rt' hc h
  cases hx : p.exec mode rt.io with
  | error e =>
    rw [onIo, hx] at h
    cases h
  | ok r =>
    rw [onIo, hx] at h
    cases h
    exact (Prog.exec_refines p).run_inv ⟨rfl, hc⟩ hx

theorem wlogAdd (we : WlogEnt) : KeepsDisk (Fsl.wlogAdd we) := by
  intro rt a rt' hc h
  cases hl : rt.wlog with
  | none =>
    simp only [Fsl.wlogAdd, Bind.bind, StateT.bind, get, getThe, MonadStateOf.get, StateT.get,
      Pure.pure, Except.pure, Except.bind, hl] at h
    cases h
  | some l =>
    by_cases hne : l.length = 64
    · simp [Fsl.wlogAdd, Bind.bind, StateT.bind, get, getThe, MonadStateOf.get, StateT.get,
        Pure.pure, Except.pure, Except.bind, hl, fslAssert, hne, throw, throwThe,
        MonadExceptOf.throw, StateT.lift] at h
    · simp only [Fsl.wlogAdd, Bind.bind, StateT.bind, get, getThe, MonadStateOf.get, StateT.get,
        Pure.pure, Except.pure, Except.bind, hl, fslAssert, hne, ne_eq, not_false_eq_true, if_true,
        StateT.pure, modify, modifyGet, MonadStateOf.modifyGet, StateT.modifyGet, Except.ok.injEq,
        Prod.mk.injEq, true_and] at h
      subst h
      exact ⟨rfl, hc⟩

theorem addAll (ws : List WlogEnt) : KeepsDisk (Fsl.addAll ws) := by
  induction ws with
  | nil => exact pure ()
  | cons we ws ih => exact bind (wlogAdd we) fun _ => ih

theorem doFuncs (mode : Mode) (params : List UInt64)
    (fs : List (List UInt64 → Prog (List WlogEnt))) : KeepsDisk (Fsl.doFuncs mode params fs) := by
  induction fs with
  | nil => exact pure ()
  | cons f fs ih => exact bind (prog mode _) fun ws => bind (addAll ws) fun _ => ih

theorem doCalls {mode : Mode} {dw : ι → List UInt64 → RtM Unit} (hrec : ∀ w q, KeepsDisk (dw w q))
    (params : List UInt64) (cs : List (WpktCall ι)) :
    KeepsDisk (Fsl.doCalls mode dw params cs) := by
  induction cs with
  | nil => exact pure ()
  | cons c cs ih =>
    refine bind (bind (prog mode _) fun b => ?_) fun _ => ih
    cases b with
    | false => exact pure ()
    | true => exact bind (prog mode _) fun q => hrec c.wpkt q

theorem ioDoWpkt (mode : Mode) (tbl : ι → Wpkt ι) (depth : ℕ) (w : ι) (params : List UInt64) :
    KeepsDisk (Fsl.ioDoWpkt mode tbl depth w params) := by
  induction depth generalizing w params with
  | zero =>
    intro rt a rt' _ h
    cases h
  | succ depth ih => exact bind (doFuncs mode params _) fun _ => doCalls (fun w q => ih w q) params _

end KeepsDisk

end Fsl
