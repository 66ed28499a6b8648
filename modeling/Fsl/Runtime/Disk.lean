import Fsl.Lib.BitNum
import Fsl.Lib.Refines

/-!
# The backing file

The image a runtime works on, as `pread64` and `pwrite64` see it. Bit addresses are 64-bit
words, so a disk has fewer than `2 ^ 61` bytes; a write past the end extends the file and the gap
reads as zeros.
-/

namespace Fsl

/-- How a run ends early: a failed `FSL_ASSERT`, `assert` or read (all of them abort the
process), or an access to memory that is not mapped. -/
inductive Stop
  | assertion
  | fault
  deriving DecidableEq, Repr

/-- `FSL_ASSERT (p)`. -/
def fslAssert {m : Type → Type} [Monad m] [MonadExceptOf Stop m] (p : Prop) [Decidable p] :
    m Unit :=
  if p then pure () else throw Stop.assertion

theorem fslAssert_of {p : Prop} [Decidable p] (h : p) :
    (fslAssert p : Except Stop Unit) = .ok () := if_pos h

theorem fslAssert_of_not {p : Prop} [Decidable p] (h : ¬ p) :
    (fslAssert p : Except Stop Unit) = .error .assertion := if_neg h

/-- The computation after an assertion may rely on it. -/
theorem fslAssert_bind_refines {p : Prop} [Decidable p] {σ α β : Type} {I : σ → Prop}
    {R : α → β → Prop} {x : StateT σ (Except Stop) α} {v : Except Stop β}
    (h : p → Refines I R x v) :
    Refines I R (fslAssert p >>= fun _ => x) (fslAssert p >>= fun _ => v) := by
  unfold fslAssert
  by_cases hp : p
  · rw [if_pos hp, if_pos hp]
    exact Refines.bind (Refines.pure (R := Eq) rfl) fun _ _ _ => h hp
  · rw [if_neg hp, if_neg hp]
    exact fun _ _ => rfl

/-- A computation that cannot fault stops on an assertion when its continuation does. -/
theorem bind_stops {α β : Type} {x : Except Stop α} {f : α → Except Stop β}
    (hx : x ≠ .error .fault) (hf : ∀ a, x = .ok a → f a = .error .assertion) :
    x >>= f = .error .assertion := by
  cases x with
  | ok a => exact hf a rfl
  | error e =>
    cases e with
    | assertion => rfl
    | fault => exact absurd rfl hx

/-- A disk image: its size in bytes and its content, zero past the end. -/
structure Disk where
  size : ℕ
  byte : ℕ → UInt8
  size_lt : size < 2 ^ 61
  byte_eq_zero : ∀ i, size ≤ i → byte i = 0

namespace Disk

@[ext] theorem ext {d e : Disk} (hs : d.size = e.size) (hb : ∀ i, d.byte i = e.byte i) :
    d = e := by
  cases d
  cases e
  simp only [mk.injEq] at hs ⊢
  exact ⟨hs, funext hb⟩

/-- Bit `k` of the disk: bit `k % 8` of byte `k / 8`. -/
def bit (d : Disk) (k : ℕ) : Bool := BitNum.bitOf d.byte k

/-- The disk of `size` bytes with the given content. -/
def ofFn (size : ℕ) (f : ℕ → UInt8) (h : size < 2 ^ 61) : Disk where
  size := size
  byte := fun i => if i < size then f i else 0
  size_lt := h
  byte_eq_zero := fun i hi => if_neg (by omega)

@[simp] theorem ofFn_size (size : ℕ) (f : ℕ → UInt8) (h : size < 2 ^ 61) :
    (ofFn size f h).size = size := rfl

theorem ofFn_byte (size : ℕ) (f : ℕ → UInt8) (h : size < 2 ^ 61) {i : ℕ} (hi : i < size) :
    (ofFn size f h).byte i = f i := if_pos hi

/-- There is a disk of every size with any content. -/
theorem exists_of_fn {size : ℕ} (f : ℕ → UInt8) (h : size < 2 ^ 61) :
    ∃ d : Disk, d.size = size ∧ ∀ j, j < size → d.byte j = f j :=
  ⟨ofFn size f h, rfl, fun _ hj => ofFn_byte size f h hj⟩

/-- `pread64` of `len` bytes at `off`: the number of bytes it returns. -/
def preadCount (d : Disk) (len off : ℕ) : ℕ := min len (d.size - off)

/-- `pwrite64` of `buf` at `off`, refused where the file would pass the largest size. -/
def pwrite (d : Disk) (buf : List UInt8) (off : ℕ) : Except Stop Disk :=
  if h : off + buf.length < 2 ^ 61 then
    .ok {
      size := if buf = [] then d.size else max d.size (off + buf.length)
      byte := fun i =>
        if off ≤ i ∧ i < off + buf.length then buf.getD (i - off) 0 else d.byte i
      size_lt := by
        have := d.size_lt
        split
        · exact this
        · exact max_lt this h
      byte_eq_zero := by
        intro i hi
        have hlen : ¬ (off ≤ i ∧ i < off + buf.length) := by
          split at hi
          · next he => subst he; simp
          · have := le_max_right d.size (off + buf.length); omega
        rw [if_neg hlen]
        refine d.byte_eq_zero i ?_
        split at hi
        · exact hi
        · exact le_trans (le_max_left _ _) hi }
  else .error .assertion

variable {d d' : Disk} {buf : List UInt8} {off : ℕ}

theorem byte_pwrite (h : d.pwrite buf off = .ok d') (i : ℕ) :
    d'.byte i =
      if off ≤ i ∧ i < off + buf.length then buf.getD (i - off) 0 else d.byte i := by
  unfold pwrite at h
  split at h
  · simp only [Except.ok.injEq] at h
    rw [← h]
  · simp at h

theorem size_pwrite (h : d.pwrite buf off = .ok d') :
    d'.size = if buf = [] then d.size else max d.size (off + buf.length) := by
  unfold pwrite at h
  split at h
  · simp only [Except.ok.injEq] at h
    rw [← h]
  · simp at h

theorem size_le_pwrite (h : d.pwrite buf off = .ok d') : d.size ≤ d'.size := by
  rw [size_pwrite h]
  split
  · exact le_rfl
  · exact le_max_left _ _

/-- A write inside the disk succeeds and keeps its size. -/
theorem pwrite_of_le (d : Disk) (buf : List UInt8) (off : ℕ) (h : off + buf.length ≤ d.size) :
    ∃ d', d.pwrite buf off = .ok d' ∧ d'.size = d.size := by
  have hle : off + buf.length < 2 ^ 61 := lt_of_le_of_lt h d.size_lt
  have hok : ∃ d', d.pwrite buf off = .ok d' := by
    unfold pwrite
    rw [dif_pos hle]
    exact ⟨_, rfl⟩
  obtain ⟨d', hd⟩ := hok
  refine ⟨d', hd, ?_⟩
  rw [size_pwrite hd]
  split
  · rfl
  · exact max_eq_left h

end Disk

end Fsl
