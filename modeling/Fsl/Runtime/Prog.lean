import Fsl.Runtime.LittleEndian

/-!
# Compiled FSL code

The compiler turns an FSL function into code that computes on 64-bit words and reads fields of the
disk through `__getLocalPhys`. Such code is a value of `Prog`: it can be run by the pread runtime,
through its cache, or over a file alone, and both ways end alike.
-/

namespace Fsl

open BitNum

@[simp] theorem ok_bind {ε α β : Type} (a : α) (f : α → Except ε β) :
    (Except.ok a >>= f) = f a := rfl

@[simp] theorem error_bind {ε α β : Type} (e : ε) (f : α → Except ε β) :
    (Except.error e >>= f) = .error e := rfl

theorem bind_eq_ok {ε α β : Type} {x : Except ε α} {f : α → Except ε β} {b : β}
    (h : x >>= f = .ok b) : ∃ a, x = .ok a ∧ f a = .ok b := by
  cases x with
  | error e => cases h
  | ok a => exact ⟨a, rfl, h⟩

/-- The width of a field. -/
abbrev Width := {n : ℕ // 1 ≤ n ∧ n ≤ 64}

theorem Width.of1 : 1 ≤ 1 ∧ 1 ≤ 64 := by decide

theorem Width.of8 : 1 ≤ 8 ∧ 8 ≤ 64 := by decide

theorem Width.of12 : 1 ≤ 12 ∧ 12 ≤ 64 := by decide

theorem Width.of16 : 1 ≤ 16 ∧ 16 ≤ 64 := by decide

theorem Width.of32 : 1 ≤ 32 ∧ 32 ≤ 64 := by decide

/-- Code that reads fields and returns a value, or stops. -/
inductive Prog (α : Type) where
  | done (a : α)
  | read (addr : UInt64) (width : Width) (k : UInt64 → Prog α)
  | stop (e : Stop)

namespace Prog

variable {α β γ : Type}

def bind (p : Prog α) (f : α → Prog β) : Prog β :=
  match p with
  | done a => f a
  | read addr width k => read addr width fun v => (k v).bind f
  | stop e => stop e

instance : Monad Prog where
  pure := done
  bind := bind

theorem bind_assoc (p : Prog α) (f : α → Prog β) (g : β → Prog γ) :
    (p.bind f).bind g = p.bind fun a => (f a).bind g := by
  induction p with
  | done a => rfl
  | stop e => rfl
  | read addr width k ih => exact congrArg (read addr width) (funext ih)

theorem bind_done (p : Prog α) : p.bind done = p := by
  induction p with
  | done a => rfl
  | stop e => rfl
  | read addr width k ih => exact congrArg (read addr width) (funext ih)

instance : LawfulMonad Prog :=
  LawfulMonad.mk' Prog (fun p => bind_done p) (fun _ _ => rfl) fun p f g => bind_assoc p f g

instance : MonadExceptOf Stop Prog where
  throw := stop
  tryCatch p _ := p

/-- The value of a field. -/
def field (addr : UInt64) (width : ℕ)
    (h : 1 ≤ width ∧ width ≤ 64 := by
      first | exact Width.of8 | exact Width.of16 | exact Width.of32 | decide) : Prog UInt64 :=
  read addr ⟨width, h⟩ done

/-- Run by the pread runtime. -/
def exec (mode : Mode) : Prog α → Pread.IoM α
  | done a => pure a
  | read addr width k => do
    let v ← Pread.getLocalPhys mode addr.toNat width
    (k (UInt64.ofNat v)).exec mode
  | stop e => throw e

/-- Run over the file `d`. -/
def run (mode : Mode) (d : Disk) : Prog α → Except Stop α
  | done a => .ok a
  | read addr width k => do
    let v ← Pread.diskPhys mode d addr.toNat width
    (k (UInt64.ofNat v)).run mode d
  | stop e => .error e

variable {mode : Mode} {d : Disk}

/-- From every coherent cache over `d`, the runtime computes what the code computes over `d`. -/
theorem exec_refines (p : Prog α) :
    Refines (Pread.Over d) Eq (p.exec mode) (p.run mode d) := by
  induction p with
  | done a => exact Refines.pure rfl
  | stop e => exact Refines.throw e
  | read addr width k ih =>
    refine Refines.bind (Pread.getLocalPhys_refines width.2.1 width.2.2 addr.toNat_lt) ?_
    rintro v _ rfl
    exact ih (UInt64.ofNat v)

@[simp] theorem run_pure (a : α) : (pure a : Prog α).run mode d = .ok a := rfl

@[simp] theorem run_throw (e : Stop) : (throw e : Prog α).run mode d = .error e := rfl

@[simp] theorem run_bind (p : Prog α) (f : α → Prog β) :
    (p >>= f).run mode d = p.run mode d >>= fun a => (f a).run mode d := by
  induction p with
  | done a => rfl
  | stop e => rfl
  | read addr width k ih =>
    show (Pread.diskPhys mode d addr.toNat width >>= fun v => ((k (UInt64.ofNat v)) >>= f).run mode d)
      = (Pread.diskPhys mode d addr.toNat width >>= fun v => (k (UInt64.ofNat v)).run mode d) >>= _
    cases Pread.diskPhys mode d addr.toNat width with
    | error e => rfl
    | ok v => exact ih (UInt64.ofNat v)

theorem run_field (addr : UInt64) (width : ℕ) (h : 1 ≤ width ∧ width ≤ 64) :
    (field addr width h).run mode d =
      (Pread.diskPhys mode d addr.toNat width).map UInt64.ofNat := by
  show (Pread.diskPhys mode d addr.toNat width >>= fun v => Except.ok (UInt64.ofNat v)) = _
  cases Pread.diskPhys mode d addr.toNat width <;> rfl

end Prog

/-! ## Little-endian fields on a disk of whole lines -/

/-- The number in the bits `[off, off + n)` of the disk. -/
def Disk.num (d : Disk) (off n : ℕ) : ℕ := ofBits (fun i => d.bit (off + i)) n

theorem Disk.num_lt (d : Disk) (off n : ℕ) : d.num off n < 2 ^ n := ofBits_lt _ _

/-- A single bit, or whole bytes at a byte boundary, reads as its number wherever the last line of
the field is complete. -/
theorem Pread.diskPhys_num {d : Disk} {off n : ℕ} (hw : Pread.WriteWidth off n) :
    Pread.diskPhys .little d off n =
      if Pread.Full d off n then .ok (d.num off n) else .error .assertion := by
  have h64 : n ≤ 64 := by
    rcases hw with h | ⟨-, -, -, h⟩ <;> omega
  rw [Pread.diskPhys_little hw.pos h64]
  refine if_congr Iff.rfl (congrArg Except.ok (ofBits_congr fun i hi => ?_)) rfl
  have hkeep : Pread.keepsBit off n i = true := by
    unfold Pread.keepsBit
    rcases hw with h | ⟨hal, hn, -, -⟩
    · split
      · exact decide_eq_true (Or.inl (by omega))
      · exact decide_eq_true (Or.inl (by omega))
    · rw [if_pos hal]
      exact decide_eq_true (Or.inr (by omega))
  rw [hkeep, Bool.and_true]

/-- On a disk of whole lines such a field reads as its number wherever it lies on the disk. -/
theorem Prog.run_field_num {d : Disk} (h32 : 32 ∣ d.size) {addr : UInt64} {n : ℕ}
    (h : 1 ≤ n ∧ n ≤ 64) (hw : Pread.WriteWidth addr.toNat n) :
    (Prog.field addr n h).run .little d =
      if addr.toNat + n ≤ 8 * d.size then .ok (UInt64.ofNat (d.num addr.toNat n))
      else .error .assertion := by
  have hiff : Pread.Full d addr.toNat n ↔ addr.toNat + n ≤ 8 * d.size := by
    obtain ⟨q, hq⟩ := h32
    unfold Pread.Full
    omega
  rw [Prog.run_field, Pread.diskPhys_num hw]
  by_cases hin : addr.toNat + n ≤ 8 * d.size
  · rw [if_pos hin, if_pos (hiff.mpr hin)]
    rfl
  · rw [if_neg hin, if_neg (mt hiff.mp hin)]
    rfl

end Fsl
