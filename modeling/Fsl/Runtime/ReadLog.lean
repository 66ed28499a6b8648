import Fsl.Runtime.Prog

/-!
# The read log

`runtime/log.c` with the callbacks of `runtime/io.c`: while the log is started, `__getLocalPhys` reports
the address of every aligned access to `fsl_rlog`, which keeps the 64-bit words of these addresses. The
callback that was hooked before is dropped.
-/

namespace Fsl.ReadLog

open BitNum Pread

/-! ## The log and its callback -/

/-- A callback of `IO_CB_CACHE_ANY`: `fsl_rlog` or one of the user's. -/
inductive Callback (κ : Type)
  | rlog
  | user (c : κ)
  deriving DecidableEq

/-- `io_cb_any` and `struct fsl_rt_rlog`, where `accessed` is `none` for `IO_IDX_STOPPED`. The calls of
the user's callbacks are recorded. -/
structure Log (κ : Type) where
  any : Option (Callback κ)
  accessed : Option (List ℕ)
  nextCb : Option κ
  called : List (κ × ℕ)

variable {κ : Type}

namespace Log

/-- `fsl_rlog_init`, of an `io` that `fsl_io_alloc` has just cleared -/
def init : Log κ := ⟨none, none, none, []⟩

/-- `fsl_rlog_contains` -/
def contains (log : Log κ) (addr : ℕ) : Bool :=
  match log.accessed with
  | none => false
  | some l => l.contains (addr / 64)

/-- `fsl_io_hook`, with the callback it returns -/
def ioHook (log : Log κ) (cb : Option (Callback κ)) : Log κ × Option (Callback κ) :=
  ({ log with any := cb }, log.any)

/-- `fsl_io_unhook` -/
def ioUnhook (log : Log κ) : Except Stop (Log κ) := do
  fslAssert log.any.isSome
  return { log with any := none }

/-- `fsl_rlog_start`. The callback that `fsl_io_hook` returns is not kept. -/
def start (log : Log κ) : Except Stop (Log κ) := do
  fslAssert log.accessed.isNone
  return { (log.ioHook (some .rlog)).1 with accessed := some [] }

/-- `fsl_rlog_stop` -/
def stop (log : Log κ) : Except Stop (Log κ) := do
  fslAssert log.accessed.isSome
  let log ← { log with accessed := none }.ioUnhook
  match log.nextCb with
  | none => return log
  | some c => return { (log.ioHook (some (.user c))).1 with nextCb := none }

/-- A call of a user's callback. -/
def call (log : Log κ) (c : κ) (addr : ℕ) : Log κ := { log with called := log.called ++ [(c, addr)] }

/-- `fsl_rlog` -/
def rlog (log : Log κ) (addr : ℕ) : Except Stop (Log κ) :=
  match log.accessed with
  | none => throw Stop.assertion
  | some l => do
    fslAssert (l.length < 64)
    let log := if log.contains addr then log else { log with accessed := some (l ++ [addr / 64]) }
    match log.nextCb with
    | none => return log
    | some c => return log.call c addr

/-- `io_cb_any` called with an address -/
def callAny (log : Log κ) (addr : ℕ) : Except Stop (Log κ) :=
  match log.any with
  | none => return log
  | some .rlog => log.rlog addr
  | some (.user c) => return log.call c addr

/-- The callback called with one address after the other. -/
def reports (log : Log κ) (addrs : List ℕ) : Except Stop (Log κ) := addrs.foldlM callAny log

end Log

/-! ## Reading -/

/-- The file with the log. -/
structure State (κ : Type) where
  io : Io
  log : Log κ

abbrev LogM (κ : Type) := StateT (State κ) (Except Stop)

/-- An operation on the file. -/
def onFile {α : Type} (x : IoM α) : LogM κ α := fun s =>
  (x s.io).map fun r => (r.1, { s with io := r.2 })

/-- An operation on the log. -/
def onLog (f : Log κ → Except Stop (Log κ)) : LogM κ Unit := fun s =>
  (f s.log).map fun log => ((), { s with log := log })

/-- The common path of `__getLocalPhys`, which reports the first address of the read. -/
def physAligned (mode : Mode) (bitOff numBits : ℕ) : LogM κ ℕ := do
  let ret ← onFile (Pread.physAligned mode bitOff numBits)
  onLog fun log => log.callAny bitOff
  return ret

/-- `__getLocalPhys` -/
def getLocalPhys (mode : Mode) (bitOff numBits : ℕ) : LogM κ ℕ :=
  physWith mode (physAligned mode) bitOff numBits

/-- The arguments of one `__getLocalPhys`. -/
structure Read where
  bitOff : ℕ
  numBits : ℕ

/-- One read after the other. -/
def readAll (mode : Mode) : List Read → LogM κ Unit
  | [] => pure ()
  | r :: reads => do
    let _ ← getLocalPhys mode r.bitOff r.numBits
    readAll mode reads

/-- Start the log and read. -/
def logging (mode : Mode) (reads : List Read) : LogM κ Unit := do
  onLog Log.start
  readAll mode reads

/-- Start the log, read and stop the log. -/
def logged (mode : Mode) (reads : List Read) : LogM κ Unit := do
  logging mode reads
  onLog Log.stop

/-- A read that returns over the file `d`. -/
structure Readable (mode : Mode) (d : Disk) (r : Read) : Prop where
  pos : 1 ≤ r.numBits
  le : r.numBits ≤ 64
  lt : r.bitOff < 2 ^ 64
  returns : ∃ v, diskPhys mode d r.bitOff r.numBits = .ok v

/-- The states of a runtime: callbacks come and go, the log is started and stopped, fields are read,
and other operations change the file and its cache. -/
inductive Reached : State κ → Prop
  | init (d : Disk) (after : Fin 512 → ℕ → UInt8) : Reached ⟨⟨d, ioCacheInit after⟩, Log.init⟩
  | hook {s : State κ} (cb : Option (Callback κ)) : Reached s →
      Reached { s with log := (s.log.ioHook cb).1 }
  | unhook {s : State κ} {log : Log κ} : Reached s → s.log.ioUnhook = .ok log →
      Reached { s with log := log }
  | start {s : State κ} {log : Log κ} : Reached s → s.log.start = .ok log →
      Reached { s with log := log }
  | stop {s : State κ} {log : Log κ} : Reached s → s.log.stop = .ok log →
      Reached { s with log := log }
  | read {s s' : State κ} {mode : Mode} {r : Read} {v : ℕ} : Reached s →
      Readable mode s.io.disk r → getLocalPhys mode r.bitOff r.numBits s = .ok (v, s') → Reached s'
  | file {s : State κ} {io : Io} : Reached s → io.Coherent → Reached { s with io := io }

/-! ## What a read reports -/

/-- The address of a part of a field that may be absent. -/
def partStart (present : Prop) [Decidable present] (addr : ℕ) : List ℕ :=
  if present then [addr] else []

/-- The addresses that a read reports: a misaligned one is put together from its left bits, its full
bytes and the bits on its right. -/
def starts (r : Read) : List ℕ :=
  if r.bitOff % 8 = 0 then [r.bitOff]
  else
    let bitsLeft := min (8 - r.bitOff % 8) r.numBits
    let bytesFull := (r.numBits - bitsLeft) / 8
    let bitsRight := r.numBits - (8 * bytesFull + bitsLeft)
    8 * (r.bitOff / 8) :: (partStart (bytesFull ≠ 0) (8 * (1 + r.bitOff / 8)) ++
      partStart (bitsRight ≠ 0) (8 * (1 + r.bitOff / 8 + bytesFull)))

/-- The addresses that the reads report, in this order. -/
def accesses (reads : List Read) : List ℕ := reads.flatMap starts

/-- Over the file `d` the computation returns `v` and reports `addrs`, or it stops where the callback
stops. -/
def Reports {α : Type} (d : Disk) (x : LogM κ α) (v : α) (addrs : List ℕ) : Prop :=
  ∀ s, Over d s.io → ∃ io, Over d io ∧ x s = (s.log.reports addrs).map fun log => (v, ⟨io, log⟩)

section Reports

variable {α β : Type} {d : Disk} {mode : Mode}

theorem Log.reports_append (log : Log κ) (as bs : List ℕ) :
    log.reports (as ++ bs) = log.reports as >>= fun log => log.reports bs := List.foldlM_append ..

theorem Reports.pure (v : α) : Reports d (Pure.pure v : LogM κ α) v [] :=
  fun s hs => ⟨s.io, hs, rfl⟩

theorem Reports.bind {x : LogM κ α} {v : α} {f : α → LogM κ β} {w : β} {as bs : List ℕ}
    (hx : Reports d x v as) (hf : Reports d (f v) w bs) : Reports d (x >>= f) w (as ++ bs) := by
  intro s hs
  obtain ⟨io, hio, hrun⟩ := hx s hs
  have hstep : (x >>= f) s = x s >>= fun p => f p.1 p.2 := rfl
  rw [hstep, hrun, Log.reports_append]
  cases hlog : s.log.reports as with
  | error e => exact ⟨io, hio, rfl⟩
  | ok log => exact hf ⟨io, log⟩ hio

theorem Reports.fslAssert {p : Prop} [Decidable p] (h : p) :
    Reports d (fslAssert p : LogM κ Unit) () [] := by
  rw [Fsl.fslAssert, if_pos h]
  exact Reports.pure ()

theorem Reports.onFile {x : IoM α} {y : Except Stop α} {v : α} (h : Refines (Over d) Eq x y)
    (hv : y = .ok v) : Reports d (onFile x : LogM κ α) v [] := by
  subst hv
  intro s hs
  obtain ⟨_, io, hx, rfl, hio⟩ := h s.io hs
  refine ⟨io, hio, ?_⟩
  rw [ReadLog.onFile, hx]
  rfl

theorem Reports.callAny (addr : ℕ) :
    Reports d (onLog (fun log => log.callAny addr) : LogM κ Unit) () [addr] := by
  intro s hs
  refine ⟨s.io, hs, ?_⟩
  have hone : s.log.reports [addr] = s.log.callAny addr >>= fun log => .ok log := rfl
  rw [hone, onLog]
  cases s.log.callAny addr with
  | error e => rfl
  | ok log => rfl

theorem Reports.readPart {p : Prop} [Decidable p] {x : LogM κ ℕ} {y : Except Stop ℕ} {v a : ℕ}
    (hx : ∀ w, p → y = .ok w → Reports d x w [a]) (hv : readPart p y = .ok v) :
    Reports d (readPart p x) v (partStart p a) := by
  by_cases hp : p
  · rw [Fsl.readPart, if_pos hp] at hv
    rw [Fsl.readPart, if_pos hp, partStart, if_pos hp]
    exact hx v hp hv
  · rw [Fsl.readPart, if_neg hp] at hv
    cases hv
    rw [Fsl.readPart, if_neg hp, partStart, if_neg hp]
    exact Reports.pure 0

theorem physAligned_reports {a k v : ℕ} (h1 : 1 ≤ k) (h64 : k ≤ 64) (ha : a < 2 ^ 66)
    (h : diskAligned mode d a k = .ok v) :
    Reports d (physAligned mode a k : LogM κ ℕ) v [a] := by
  have href : Refines (Over d) Eq (Pread.physAligned mode a k) (diskAligned mode d a k) := by
    refine Refines.bind (ioCacheGet_refines h1 h64 ha) fun ret _ hret => ?_
    subst hret
    refine Refines.ite (fun _ => ?_) fun _ => Refines.pure rfl
    cases mode with
    | big => exact swapBytes_refines ret (k / 8)
    | little => exact Refines.pure rfl
  exact (Reports.onFile href h).bind ((Reports.callAny a).bind (Reports.pure v))

/-- The left bits, the full bytes and the bits on the right of a misaligned read. -/
theorem misalign_reports {b n left full right v : ℕ} (h1 : 1 ≤ n) (h64 : n ≤ 64) (hb : b < 2 ^ 64)
    (hleft : left = min (8 - b % 8) n) (hfull : full = (n - left) / 8)
    (hright : right = n - (8 * full + left)) {f : ℕ → ℕ → ℕ → ℕ}
    (h : (do
      let v₁ ← diskAligned mode d (8 * (b / 8)) 8
      let v₂ ← readPart (full ≠ 0) (diskAligned mode d (8 * (1 + b / 8)) (8 * full))
      let v₃ ← readPart (right ≠ 0) (diskAligned mode d (8 * (1 + b / 8 + full)) 8)
      return f v₁ v₂ v₃) = .ok v) :
    Reports d (do
      let v₁ ← physAligned mode (8 * (b / 8)) 8
      let v₂ ← readPart (full ≠ 0) (physAligned mode (8 * (1 + b / 8)) (8 * full))
      let v₃ ← readPart (right ≠ 0) (physAligned mode (8 * (1 + b / 8 + full)) 8)
      return f v₁ v₂ v₃ : LogM κ ℕ) v
      (8 * (b / 8) :: (partStart (full ≠ 0) (8 * (1 + b / 8)) ++
        partStart (right ≠ 0) (8 * (1 + b / 8 + full)))) := by
  obtain ⟨v₁, h₁, h⟩ := bind_eq_ok h
  obtain ⟨v₂, h₂, h⟩ := bind_eq_ok h
  obtain ⟨v₃, h₃, h⟩ := bind_eq_ok h
  cases h
  have hpart₁ : Reports d (physAligned mode (8 * (b / 8)) 8 : LogM κ ℕ) v₁ [8 * (b / 8)] :=
    physAligned_reports (by omega) (by omega) (by omega) h₁
  have hpart₂ : Reports d (readPart (full ≠ 0)
      (physAligned mode (8 * (1 + b / 8)) (8 * full)) : LogM κ ℕ) v₂
      (partStart (full ≠ 0) (8 * (1 + b / 8))) :=
    Reports.readPart (fun w hp hw => physAligned_reports (by omega) (by omega) (by omega) hw) h₂
  have hpart₃ : Reports d (readPart (right ≠ 0)
      (physAligned mode (8 * (1 + b / 8 + full)) 8) : LogM κ ℕ) v₃
      (partStart (right ≠ 0) (8 * (1 + b / 8 + full))) :=
    Reports.readPart (fun w _ hw => physAligned_reports (by omega) (by omega) (by omega) hw) h₃
  rw [← List.append_nil (partStart (right ≠ 0) _), ← List.singleton_append]
  exact hpart₁.bind (hpart₂.bind (hpart₃.bind (Reports.pure _)))

/-- A read that returns reports the addresses of its aligned accesses. -/
theorem getLocalPhys_reports {r : Read} (h : Readable mode d r) :
    ∃ v, Reports d (getLocalPhys mode r.bitOff r.numBits : LogM κ ℕ) v (starts r) := by
  obtain ⟨h1, h64, hlt, v, hv⟩ := h
  refine ⟨v, ?_⟩
  by_cases hal : r.bitOff % 8 = 0
  · rw [diskPhys, physWith_aligned hal] at hv
    rw [getLocalPhys, physWith_aligned hal, starts, if_pos hal]
    exact physAligned_reports h1 h64 (lt_trans hlt (by norm_num)) hv
  · rw [starts, if_neg hal]
    cases mode with
    | little =>
      rw [diskPhys, physWith_little hal] at hv
      rw [getLocalPhys, physWith_little hal]
      obtain ⟨_, -, hv⟩ := bind_eq_ok hv
      have hleft : 0 < min (8 - r.bitOff % 8) r.numBits ∧ min (8 - r.bitOff % 8) r.numBits < 8 := by
        omega
      exact (Reports.fslAssert hleft).bind (misalign_reports h1 h64 hlt rfl rfl rfl hv)
    | big =>
      rw [diskPhys, physWith_big hal] at hv
      rw [getLocalPhys, physWith_big hal]
      obtain ⟨_, -, hv⟩ := bind_eq_ok hv
      obtain ⟨_, hparts, hv⟩ := bind_eq_ok hv
      have hleft : 0 < min (8 - r.bitOff % 8) r.numBits ∧ min (8 - r.bitOff % 8) r.numBits < 8 := by
        omega
      by_cases hp : ((min (8 - r.bitOff % 8) r.numBits + (r.bitOff + r.numBits) % 8 : ℕ) +
          8 * bytesFullSwp r.numBits (min (8 - r.bitOff % 8) r.numBits +
            (r.bitOff + r.numBits) % 8)) % 0x10000000000000000 = (r.numBits : ℤ)
      · have hend := (swpParts_iff h1 h64).mp hp
        have hbytes := bytesFullSwp_of_le h64 (show min (8 - r.bitOff % 8) r.numBits +
          (r.bitOff + r.numBits) % 8 ≤ r.numBits by omega)
        refine (Reports.fslAssert hleft).bind ((Reports.fslAssert hp).bind ?_)
        simp only [hbytes, Int.toNat_natCast, ne_eq, Nat.cast_eq_zero] at hv ⊢
        have hfull : (r.numBits - (min (8 - r.bitOff % 8) r.numBits +
            (r.bitOff + r.numBits) % 8)) / 8 =
              (r.numBits - min (8 - r.bitOff % 8) r.numBits) / 8 := by omega
        have hright : (r.bitOff + r.numBits) % 8 = r.numBits -
            (8 * ((r.numBits - min (8 - r.bitOff % 8) r.numBits) / 8) +
              min (8 - r.bitOff % 8) r.numBits) := by omega
        rw [hfull] at hv ⊢
        have hrep := misalign_reports (κ := κ) h1 h64 hlt rfl rfl hright hv
        rw [hright] at hrep ⊢
        exact hrep
      · rw [fslAssert_of_not hp] at hparts
        cases hparts

theorem readAll_reports {reads : List Read} (h : ∀ r ∈ reads, Readable mode d r) :
    Reports d (readAll mode reads : LogM κ Unit) () (accesses reads) := by
  induction reads with
  | nil => exact Reports.pure ()
  | cons r reads ih =>
    obtain ⟨hr, hreads⟩ := List.forall_mem_cons.mp h
    obtain ⟨v, hv⟩ := getLocalPhys_reports (κ := κ) hr
    rw [accesses, List.flatMap_cons]
    exact hv.bind (ih hreads)

end Reports

/-! ## What the log keeps -/

/-- The 64-bit words of the addresses. -/
def words (addrs : List ℕ) : Finset ℕ := (addrs.map (· / 64)).toFinset

theorem mem_words {addrs : List ℕ} {w : ℕ} : w ∈ words addrs ↔ ∃ a ∈ addrs, a / 64 = w := by
  rw [words, List.mem_toFinset, List.mem_map]

theorem words_append (as bs : List ℕ) : words (as ++ bs) = words as ∪ words bs := by
  rw [words, List.map_append, List.toFinset_append]
  rfl

/-- `fsl_rlog` asserts that the log is not full before it looks for the word: no access may follow
once 64 words are logged. -/
def Room (addrs : List ℕ) : Prop := (words addrs.dropLast).card < 64

instance (addrs : List ℕ) : Decidable (Room addrs) :=
  inferInstanceAs (Decidable ((words addrs.dropLast).card < 64))

theorem Room.left {as bs : List ℕ} (h : Room (as ++ bs)) : Room as := by
  refine lt_of_le_of_lt (Finset.card_le_card fun w hw => ?_) h
  obtain ⟨a, ha, rfl⟩ := mem_words.mp hw
  refine mem_words.mpr ⟨a, ?_, rfl⟩
  cases bs with
  | nil => rwa [List.append_nil]
  | cons b bs =>
    rw [List.dropLast_append_of_ne_nil (List.cons_ne_nil b bs)]
    exact List.mem_append_left _ (List.mem_of_mem_dropLast ha)

namespace Log

/-- The log when it was just started. -/
def Fresh (log : Log κ) : Prop :=
  log.any = some .rlog ∧ log.accessed = some [] ∧ log.nextCb = none

/-- A log that holds the words `ws`. -/
structure Holds (log fresh : Log κ) (ws : Finset ℕ) (l : List ℕ) : Prop where
  eq : log = { fresh with accessed := some l }
  nodup : l.Nodup
  mem : ∀ w, w ∈ l ↔ w ∈ ws

theorem Holds.length_eq {log fresh : Log κ} {ws : Finset ℕ} {l : List ℕ} (h : Holds log fresh ws l) :
    l.length = ws.card := by
  have hws : l.toFinset = ws := Finset.ext fun w => by rw [List.mem_toFinset, h.mem]
  rw [← hws, List.toFinset_card_of_nodup h.nodup]

variable {fresh : Log κ}

theorem Holds.contains_iff {log : Log κ} {ws : Finset ℕ} {l : List ℕ} (h : Holds log fresh ws l)
    (addr : ℕ) : log.contains addr = true ↔ addr / 64 ∈ ws := by
  obtain ⟨rfl, -, hmem⟩ := h
  rw [contains, List.contains_iff_mem, hmem]

/-- One access: the word is kept unless the log is full. -/
theorem Holds.callAny {log : Log κ} {ws : Finset ℕ} {l : List ℕ} (hfresh : fresh.Fresh)
    (h : Holds log fresh ws l) (addr : ℕ) :
    if ws.card < 64 then
      ∃ log' l', log.callAny addr = .ok log' ∧ Holds log' fresh (insert (addr / 64) ws) l'
    else log.callAny addr = .error .assertion := by
  have hlen := h.length_eq
  have hcontains := h.contains_iff addr
  obtain ⟨any, accessed, nextCb, called⟩ := fresh
  obtain ⟨hany, hempty, hnext⟩ := hfresh
  dsimp only at hany hempty hnext
  subst hany hempty hnext
  obtain ⟨rfl, hnodup, hmem⟩ := h
  have hcall : (⟨some .rlog, some l, none, called⟩ : Log κ).callAny addr = (do
      fslAssert (l.length < 64)
      return if (⟨some .rlog, some l, none, called⟩ : Log κ).contains addr then
        ⟨some .rlog, some l, none, called⟩ else ⟨some .rlog, some (l ++ [addr / 64]), none, called⟩) := by
    show (fslAssert (l.length < 64) >>= fun _ => _ : Except Stop (Log κ)) = _
    refine congrArg _ (funext fun _ => ?_)
    dsimp only
    split_ifs <;> rfl
  rw [hcall]
  by_cases hroom : ws.card < 64
  · rw [if_pos hroom, fslAssert_of (by omega), ok_bind]
    by_cases hin : (⟨some .rlog, some l, none, called⟩ : Log κ).contains addr = true
    · rw [if_pos hin]
      refine ⟨_, l, rfl, rfl, hnodup, fun w => ?_⟩
      rw [hmem, Finset.insert_eq_of_mem (hcontains.mp hin)]
    · rw [if_neg hin]
      have hout : addr / 64 ∉ l := fun hl => hin (hcontains.mpr ((hmem _).mp hl))
      refine ⟨_, l ++ [addr / 64], rfl, rfl, ?_, fun w => ?_⟩
      · exact List.nodup_append.mpr ⟨hnodup, List.nodup_singleton _, fun a ha b hb heq =>
          hout (by rwa [← List.mem_singleton.mp hb, ← heq])⟩
      · rw [List.mem_append, List.mem_singleton, hmem, Finset.mem_insert, or_comm]
  · rw [if_neg hroom, fslAssert_of_not (by omega), error_bind]

/-- A started log keeps the word of every access, until one follows on 64 words. -/
theorem Fresh.reports {log : Log κ} (h : log.Fresh) (addrs : List ℕ) :
    (Room addrs → ∃ log' l, log.reports addrs = .ok log' ∧ Holds log' log (words addrs) l) ∧
      (¬ Room addrs → log.reports addrs = .error .assertion) := by
  induction addrs using List.reverseRecOn with
  | nil =>
    refine ⟨fun _ => ⟨log, [], rfl, ?_, List.nodup_nil, fun w => ?_⟩, fun hroom => ?_⟩
    · rw [← h.2.1]
    · simp [words]
    · exact absurd (show (words []).card < 64 by decide) hroom
  | append_singleton addrs a ih =>
    have hstep : log.reports (addrs ++ [a]) = log.reports addrs >>= fun log => log.callAny a := by
      rw [reports_append]
      refine congrArg _ (funext fun log => ?_)
      show (log.callAny a >>= fun log => .ok log) = log.callAny a
      cases log.callAny a <;> rfl
    have hroom : Room (addrs ++ [a]) ↔ (words addrs).card < 64 := by
      rw [Room, List.dropLast_concat]
    have hwords : words (addrs ++ [a]) = insert (a / 64) (words addrs) := by
      rw [words_append, Finset.insert_eq, Finset.union_comm]
      rfl
    rw [hstep, hwords]
    by_cases hprev : Room addrs
    · obtain ⟨log', l, hx, hl⟩ := ih.1 hprev
      have hone := hl.callAny h a
      rw [hx, ok_bind]
      refine ⟨fun hr => ?_, fun hr => ?_⟩
      · rwa [if_pos (hroom.mp hr)] at hone
      · rwa [if_neg (mt hroom.mpr hr)] at hone
    · rw [ih.2 hprev, error_bind]
      exact ⟨fun hr => absurd hr.left hprev, fun _ => rfl⟩

end Log

/-! ## Reads that span two words -/

/-- The 64-bit word of the last bit of a read. -/
def lastWord (r : Read) : ℕ := (r.bitOff + r.numBits - 1) / 64

/-- The read goes on in a second word where none of its accesses starts: it is aligned, or it ends with
full bytes of which the first lies in the first word. -/
def Spans (r : Read) : Prop :=
  64 < r.bitOff % 64 + r.numBits ∧
    (r.bitOff % 8 = 0 ∨ (r.bitOff + r.numBits) % 8 = 0 ∧ r.bitOff % 64 < 56)

theorem mem_partStart {p : Prop} [Decidable p] {a b : ℕ} : b ∈ partStart p a ↔ p ∧ b = a := by
  unfold partStart
  split_ifs with hp
  · simp [hp]
  · simp [hp]

theorem first_mem_words (r : Read) : r.bitOff / 64 ∈ words (starts r) := by
  unfold starts
  split_ifs
  · exact mem_words.mpr ⟨r.bitOff, List.mem_singleton.mpr rfl, rfl⟩
  · exact mem_words.mpr ⟨8 * (r.bitOff / 8), List.mem_cons_self, by omega⟩

/-- A read reports its last word unless it spans two words. -/
theorem lastWord_mem_words {r : Read} (h1 : 1 ≤ r.numBits) (h64 : r.numBits ≤ 64) (h : ¬ Spans r) :
    lastWord r ∈ words (starts r) := by
  by_cases hone : r.bitOff % 64 + r.numBits ≤ 64
  · have hsame : lastWord r = r.bitOff / 64 := by
      unfold lastWord
      omega
    rw [hsame]
    exact first_mem_words r
  · have hal : ¬ r.bitOff % 8 = 0 := fun hal => h ⟨by omega, Or.inl hal⟩
    rw [starts, if_neg hal]
    by_cases hend : (r.bitOff + r.numBits) % 8 = 0
    · have hfirst : 56 ≤ r.bitOff % 64 := by
        by_contra hlt
        exact h ⟨by omega, Or.inr ⟨hend, by omega⟩⟩
      refine mem_words.mpr ⟨8 * (1 + r.bitOff / 8), ?_, by unfold lastWord; omega⟩
      refine List.mem_cons_of_mem _ (List.mem_append_left _ (mem_partStart.mpr ⟨?_, rfl⟩))
      omega
    · refine mem_words.mpr ⟨8 * (1 + r.bitOff / 8 + (r.numBits - min (8 - r.bitOff % 8) r.numBits) / 8),
        ?_, by unfold lastWord; omega⟩
      refine List.mem_cons_of_mem _ (List.mem_append_right _ (mem_partStart.mpr ⟨?_, rfl⟩))
      omega

/-- A read that spans two words does not report the second. -/
theorem Spans.not_mem {r : Read} (h : Spans r) (h64 : r.numBits ≤ 64) :
    lastWord r ∉ words (starts r) := by
  obtain ⟨hlong, hshape⟩ := h
  have hlast : lastWord r = r.bitOff / 64 + 1 := by
    unfold lastWord
    omega
  rw [hlast]
  intro hmem
  obtain ⟨a, ha, hw⟩ := mem_words.mp hmem
  unfold starts at ha
  split_ifs at ha with hal
  · rw [List.mem_singleton] at ha
    omega
  · rw [List.mem_cons, List.mem_append, mem_partStart, mem_partStart] at ha
    rcases ha with rfl | ⟨-, rfl⟩ | ⟨hne, rfl⟩
    · omega
    · omega
    · omega

/-- Every read that spans two words comes after an access in its second word. -/
def Covered (reads : List Read) : Prop :=
  ∀ done r, done ++ [r] <+: reads → Spans r → lastWord r ∈ words (accesses done)

theorem accesses_append (as bs : List Read) : accesses (as ++ bs) = accesses as ++ accesses bs :=
  List.flatMap_append ..

/-- The reads are covered if and only if, after each of them, every bit read so far lies in a word that
was reported. -/
theorem covered_iff {reads : List Read} (h : ∀ r ∈ reads, 1 ≤ r.numBits ∧ r.numBits ≤ 64) :
    Covered reads ↔ ∀ done, done <+: reads → ∀ r ∈ done, ∀ k, r.bitOff ≤ k →
      k < r.bitOff + r.numBits → k / 64 ∈ words (accesses done) := by
  constructor
  · intro hcov done hdone r hr k hlo hhi
    obtain ⟨before, after, rfl⟩ := List.append_of_mem hr
    obtain ⟨h1, h64⟩ := h r (hdone.subset hr)
    have hbefore : before ++ [r] <+: reads := by
      refine List.IsPrefix.trans ⟨after, ?_⟩ hdone
      rw [List.append_assoc, List.singleton_append]
    have hsub : ∀ w, w ∈ words (accesses before) ∨ w ∈ words (starts r) →
        w ∈ words (accesses (before ++ r :: after)) := by
      intro w hw
      rw [accesses_append, words_append, Finset.mem_union]
      refine hw.imp_right fun hw => ?_
      rw [accesses, List.flatMap_cons, words_append, Finset.mem_union]
      exact Or.inl hw
    have hword : k / 64 = r.bitOff / 64 ∨ k / 64 = lastWord r := by
      unfold lastWord
      omega
    rcases hword with hk | hk
    · rw [hk]
      exact hsub _ (Or.inr (first_mem_words r))
    · rw [hk]
      by_cases hspans : Spans r
      · exact hsub _ (Or.inl (hcov before r hbefore hspans))
      · exact hsub _ (Or.inr (lastWord_mem_words h1 h64 hspans))
  · intro hall done r hdone hspans
    have hr : r ∈ done ++ [r] := List.mem_append_right _ (List.mem_singleton.mpr rfl)
    obtain ⟨h1, h64⟩ := h r (hdone.subset hr)
    have hmem := hall _ hdone r hr (r.bitOff + r.numBits - 1) (by omega) (by omega)
    have hone : accesses [r] = starts r := List.append_nil _
    rw [accesses_append, words_append, Finset.mem_union, hone] at hmem
    exact hmem.resolve_right (hspans.not_mem h64)

/-! ## Runs -/

/-- No callback changes the one that the log is to call next. -/
theorem Log.callAny_nextCb {log log' : Log κ} {addr : ℕ} (h : log.callAny addr = .ok log') :
    log'.nextCb = log.nextCb := by
  unfold Log.callAny at h
  split at h
  · cases h
    rfl
  · unfold Log.rlog at h
    split at h
    · cases h
    · obtain ⟨_, -, h⟩ := bind_eq_ok h
      dsimp only at h
      split_ifs at h
      all_goals
        split at h
        all_goals
          cases h
          rfl
  · cases h
    rfl

theorem Log.reports_nextCb {log log' : Log κ} {addrs : List ℕ} (h : log.reports addrs = .ok log') :
    log'.nextCb = log.nextCb := by
  induction addrs generalizing log with
  | nil =>
    cases h
    rfl
  | cons addr addrs ih =>
    obtain ⟨log₁, h₁, h⟩ := bind_eq_ok (show log.callAny addr >>= (fun log => log.reports addrs) = _ from h)
    rw [ih h, Log.callAny_nextCb h₁]

/-- In every state the cache is coherent, and nothing has ever been put in `log_next_cb`. -/
theorem Reached.inv {s : State κ} (h : Reached s) : s.io.Coherent ∧ s.log.nextCb = none := by
  induction h with
  | init d after => exact ⟨(reachable_init d after).coherent, rfl⟩
  | hook cb _ ih => exact ih
  | unhook _ hx ih =>
    obtain ⟨_, -, hx⟩ := bind_eq_ok hx
    cases hx
    exact ih
  | start _ hx ih =>
    obtain ⟨_, -, hx⟩ := bind_eq_ok hx
    cases hx
    exact ih
  | stop _ hx ih =>
    obtain ⟨_, -, hx⟩ := bind_eq_ok hx
    obtain ⟨log, hunhook, hx⟩ := bind_eq_ok hx
    obtain ⟨_, -, hunhook⟩ := bind_eq_ok hunhook
    cases hunhook
    refine ⟨ih.1, ?_⟩
    dsimp only at hx
    rw [ih.2] at hx
    cases hx
    rfl
  | @read s s' mode r v _ hread hx ih =>
    obtain ⟨w, hw⟩ := getLocalPhys_reports (κ := κ) hread
    obtain ⟨io, hio, hrun⟩ := hw s ⟨rfl, ih.1⟩
    rw [hrun] at hx
    cases hlog : s.log.reports (starts r) with
    | error e =>
      rw [hlog] at hx
      cases hx
    | ok log =>
      rw [hlog] at hx
      cases hx
      exact ⟨hio.2, (Log.reports_nextCb hlog).trans ih.2⟩
  | file _ hc ih => exact ⟨hc, ih.2⟩

/-- What the read log is for: while it is started it contains every bit read so far and the callback of
before is still called for every access, and when it is stopped that callback is hooked again. -/
structure Meets (mode : Mode) (s : State κ) (reads : List Read) : Prop where
  contains : ∀ done, done <+: reads → ∃ s', logging mode done s = .ok ((), s') ∧
    (∀ r ∈ done, ∀ k, r.bitOff ≤ k → k < r.bitOff + r.numBits → s'.log.contains k = true) ∧
    ∀ c, s.log.any = some (.user c) →
      s'.log.called = s.log.called ++ (accesses done).map fun addr => (c, addr)
  restores : ∃ s', logged mode reads s = .ok ((), s') ∧ s'.log.any = s.log.any

section Runs

variable {mode : Mode} {s : State κ} {reads : List Read}

/-- The log that `fsl_rlog_start` leaves behind. -/
def Log.started (log : Log κ) : Log κ := { log with any := some .rlog, accessed := some [] }

theorem Reached.started (hs : Reached s) : s.log.started.Fresh := ⟨rfl, rfl, hs.inv.2⟩

theorem logging_eq (hs : Reached s) (hlog : s.log.accessed = none)
    (hreads : ∀ r ∈ reads, Readable mode s.io.disk r) :
    ∃ io, logging mode reads s =
      (s.log.started.reports (accesses reads)).map fun log => ((), ⟨io, log⟩) := by
  have hstart : s.log.start = .ok s.log.started := by
    rw [Log.start, hlog]
    rfl
  obtain ⟨io, -, hrun⟩ := readAll_reports (κ := κ) hreads ⟨s.io, s.log.started⟩ ⟨rfl, hs.inv.1⟩
  refine ⟨io, ?_⟩
  show (onLog Log.start s >>= fun p => readAll mode reads p.2) = _
  rw [onLog, hstart]
  exact hrun

/-- With room in the log the reads return, and the log holds the words of their accesses. -/
theorem exists_logging (hs : Reached s) (hlog : s.log.accessed = none)
    (hreads : ∀ r ∈ reads, Readable mode s.io.disk r) (hroom : Room (accesses reads)) :
    ∃ s' l, logging mode reads s = .ok ((), s') ∧
      s'.log.Holds s.log.started (words (accesses reads)) l := by
  obtain ⟨io, hrun⟩ := logging_eq hs hlog hreads
  obtain ⟨log', l, hx, hl⟩ := (hs.started.reports (accesses reads)).1 hroom
  rw [hx] at hrun
  exact ⟨⟨io, log'⟩, l, hrun, hl⟩

/-- The process stops at an access after 64 words. -/
theorem room_of_logging (hs : Reached s) (hlog : s.log.accessed = none)
    (hreads : ∀ r ∈ reads, Readable mode s.io.disk r) {s' : State κ}
    (h : logging mode reads s = .ok ((), s')) : Room (accesses reads) := by
  by_contra hroom
  obtain ⟨io, hrun⟩ := logging_eq hs hlog hreads
  rw [(hs.started.reports (accesses reads)).2 hroom, h] at hrun
  cases hrun

/-- `fsl_rlog_stop` leaves no callback. -/
theorem logged_eq (hs : Reached s) {s' : State κ} {l : List ℕ} {ws : Finset ℕ}
    (h : logging mode reads s = .ok ((), s')) (hl : s'.log.Holds s.log.started ws l) :
    logged mode reads s =
      .ok ((), { s' with log := { s'.log with any := none, accessed := none } }) := by
  show (logging mode reads s >>= fun p => onLog Log.stop p.2) = _
  have hstop : s'.log.stop = .ok { s'.log with any := none, accessed := none } := by
    have hnext : s.log.nextCb = none := hs.inv.2
    rw [hl.eq, Log.started, hnext]
    rfl
  rw [h, ok_bind, onLog, hstop]
  rfl

theorem Readable.widths (hreads : ∀ r ∈ reads, Readable mode s.io.disk r) :
    ∀ r ∈ reads, 1 ≤ r.numBits ∧ r.numBits ≤ 64 :=
  fun r hr => ⟨(hreads r hr).pos, (hreads r hr).le⟩

theorem Meets.condition (hs : Reached s) (hlog : s.log.accessed = none)
    (hreads : ∀ r ∈ reads, Readable mode s.io.disk r) (h : Meets mode s reads) :
    s.log.any = none ∧ Covered reads ∧ Room (accesses reads) := by
  obtain ⟨hcontains, s₁, hx₁, hany⟩ := h
  obtain ⟨s', hx, -⟩ := hcontains reads List.prefix_rfl
  have hroom := room_of_logging hs hlog hreads hx
  obtain ⟨s₂, l, hx₂, hl⟩ := exists_logging hs hlog hreads hroom
  rw [logged_eq hs hx₂ hl] at hx₁
  cases hx₁
  refine ⟨hany.symm, ?_, hroom⟩
  refine (covered_iff (Readable.widths hreads)).mpr fun done hdone r hr k hlo hhi => ?_
  obtain ⟨s₃, hx₃, hall, -⟩ := hcontains done hdone
  have hdone' : ∀ r ∈ done, Readable mode s.io.disk r := fun r hr => hreads r (hdone.subset hr)
  obtain ⟨s₄, l₄, hx₄, hl₄⟩ := exists_logging hs hlog hdone' (room_of_logging hs hlog hdone' hx₃)
  rw [hx₃] at hx₄
  cases hx₄
  exact (hl₄.contains_iff k).mp (hall r hr k hlo hhi)

theorem meets_of (hs : Reached s) (hlog : s.log.accessed = none)
    (hreads : ∀ r ∈ reads, Readable mode s.io.disk r) (hany : s.log.any = none)
    (hcov : Covered reads) (hroom : Room (accesses reads)) : Meets mode s reads := by
  refine ⟨fun done hdone => ?_, ?_⟩
  · have hcontains := (covered_iff (Readable.widths hreads)).mp hcov done hdone
    obtain ⟨rest, rfl⟩ := hdone
    rw [accesses_append] at hroom
    obtain ⟨s', l, hx, hl⟩ := exists_logging hs hlog
      (fun r hr => hreads r (List.mem_append_left _ hr)) hroom.left
    refine ⟨s', hx, fun r hr k hlo hhi => ?_, fun c hc => ?_⟩
    · exact (hl.contains_iff k).mpr (hcontains r hr k hlo hhi)
    · rw [hany] at hc
      cases hc
  · obtain ⟨s', l, hx, hl⟩ := exists_logging hs hlog hreads hroom
    exact ⟨_, logged_eq hs hx hl, hany.symm⟩

end Runs

/-- From every state of the runtime in which the log is stopped, the log meets its purpose on reads that
return if and only if no callback was hooked, every read that spans two words comes after an access in
the second, and no access follows on 64 words. -/
theorem meets_iff {mode : Mode} {s : State κ} {reads : List Read} (hs : Reached s)
    (hlog : s.log.accessed = none) (hreads : ∀ r ∈ reads, Readable mode s.io.disk r) :
    Meets mode s reads ↔ s.log.any = none ∧ Covered reads ∧ Room (accesses reads) :=
  ⟨Meets.condition hs hlog hreads,
    fun ⟨hany, hcov, hroom⟩ => meets_of hs hlog hreads hany hcov hroom⟩

/-- The runtime on two lines of zeros, where `cb` is hooked. -/
def twoLinesWith (cb : Option (Callback Unit)) : State Unit :=
  ⟨⟨twoLines, ioCacheInit fun _ _ => 0⟩, (Log.init.ioHook cb).1⟩

theorem reached_twoLinesWith (cb : Option (Callback Unit)) : Reached (twoLinesWith cb) :=
  Reached.hook cb (Reached.init twoLines _)

theorem readable_twoLines {r : Read} (h1 : 1 ≤ r.numBits) (h64 : r.numBits ≤ 64)
    (hin : r.bitOff + r.numBits ≤ 512) : Readable .little twoLines r := by
  have hsize : twoLines.size = 64 := rfl
  have hfull : Full twoLines r.bitOff r.numBits := by
    unfold Full
    omega
  have hval : diskPhys .little twoLines r.bitOff r.numBits = _ := diskPhys_little h1 h64
  rw [if_pos hfull] at hval
  exact ⟨h1, h64, by omega, _, hval⟩

/-- Two bytes that lie in two words, read after a byte of the second word. -/
theorem meets_iff_two_words : Meets .little (twoLinesWith none) [⟨64, 8⟩, ⟨56, 16⟩] := by
  have hread : ∀ r ∈ [(⟨64, 8⟩ : Read), ⟨56, 16⟩],
      Readable .little (twoLinesWith none).io.disk r :=
    List.forall_mem_cons.mpr ⟨readable_twoLines (by decide) (by decide) (by decide),
      List.forall_mem_singleton.mpr (readable_twoLines (by decide) (by decide) (by decide))⟩
  refine (meets_iff (reached_twoLinesWith none) rfl hread).mpr ⟨rfl, ?_, by decide⟩
  intro done r hdone hspans
  cases done with
  | nil =>
    obtain ⟨rfl, -⟩ := List.cons_prefix_cons.mp hdone
    exact absurd hspans.1 (by decide)
  | cons r₁ done =>
    obtain ⟨rfl, hrest⟩ := List.cons_prefix_cons.mp hdone
    cases done with
    | nil =>
      obtain ⟨rfl, -⟩ := List.cons_prefix_cons.mp hrest
      decide
    | cons r₂ done =>
      obtain ⟨-, hnil⟩ := List.cons_prefix_cons.mp hrest
      exact absurd (List.prefix_nil.mp hnil) (by simp)

/-- A callback that was hooked is gone after a byte was read, and of two bytes that lie in two words
the second is not in the log. -/
theorem not_meets_twoLines :
    (Reached (twoLinesWith (some (.user ()))) ∧
      Readable .little (twoLinesWith (some (.user ()))).io.disk ⟨0, 8⟩ ∧
      ¬ Meets .little (twoLinesWith (some (.user ()))) [⟨0, 8⟩]) ∧
    Reached (twoLinesWith none) ∧ Readable .little (twoLinesWith none).io.disk ⟨56, 16⟩ ∧
      ¬ Meets .little (twoLinesWith none) [⟨56, 16⟩] := by
  have hread : Readable .little twoLines ⟨0, 8⟩ :=
    readable_twoLines (by decide) (by decide) (by decide)
  have hread' : Readable .little twoLines ⟨56, 16⟩ :=
    readable_twoLines (by decide) (by decide) (by decide)
  refine ⟨⟨reached_twoLinesWith _, hread, fun h => ?_⟩, reached_twoLinesWith _, hread', fun h => ?_⟩
  · have hcond := h.condition (reached_twoLinesWith _) rfl (List.forall_mem_singleton.mpr hread)
    exact absurd hcond.1 (by simp [twoLinesWith, Log.ioHook])
  · have hcond := h.condition (reached_twoLinesWith _) rfl (List.forall_mem_singleton.mpr hread')
    have hmem := hcond.2.1 [] ⟨56, 16⟩ List.prefix_rfl ⟨by decide, Or.inl (by decide)⟩
    exact absurd hmem (by decide)

end Fsl.ReadLog
