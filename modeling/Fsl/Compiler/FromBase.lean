import Fsl.Compiler.LayoutAgrees

/-!
# The meaning of `from_base_bits()`

In the arguments of a layout function `from_base_bits()` is replaced by the offset of the next field
less that of the instance, in the length of an array by the offset of the next field alone. The two
are the same only for an instance at the beginning of the disk.
-/

namespace Fsl.Layout

open OptionLim

/-- The value of an expression depends on what replaces `from_base_bits()` only through its value. -/
theorem Expr.eval_subst_congr {c : Calls} {d : Disk} {clo : Clo} {idx : UInt64} {new new' : Expr}
    (h : new.eval c d clo idx = new'.eval c d clo idx) (e : Expr) :
    (e.subst new).eval c d clo idx = (e.subst new').eval c d clo idx := by
  induction e with
  | num n => rfl
  | argOff => rfl
  | argIdx => rfl
  | param i => rfl
  | fromBase => exact h
  | thunk p f => rfl
  | arrayBits f n ih =>
    show ((n.subst new).eval c d clo idx).bind _ = ((n.subst new').eval c d clo idx).bind _
    rw [ih]
  | fail => rfl
  | add a b iha ihb =>
    simp only [Expr.subst, Expr.eval]
    rw [iha, ihb]
  | sub a b iha ihb =>
    simp only [Expr.subst, Expr.eval]
    rw [iha, ihb]
  | mul a b iha ihb =>
    simp only [Expr.subst, Expr.eval]
    rw [iha, ihb]
  | call g args ih =>
    simp only [Expr.subst, Expr.eval]
    rw [funext ih]

section Meaning

variable (typesize : String → Clo → Option UInt64) (us : List (String × ThunkType)) (d : Disk)
variable (t : ThunkType) (clo : Clo)

/-- The expression returns the value, with enough calls nested. -/
def Returns (e : Expr) (v : UInt64) : Prop :=
  ∃ n, e.eval (calls typesize (unionSize typesize d us) d t clo n) d clo 0 = some v

/-- Two expressions return the same. -/
def Same (e e' : Expr) : Prop :=
  ∀ v, Returns typesize us d t clo e v ↔ Returns typesize us d t clo e' v

/-- Wherever an expression may stand at this point of the block, as the length of an array, of an
array of unions, or as an argument of a layout function, `from_base_bits()` means `bits` in it. -/
structure OneMeaning (s : Builder) (bits : UInt64) : Prop where
  decl : ∀ dl len, dl.array = some len →
    Same typesize us d t clo (s.addToCurrentSymTab dl).last.elems (len.subst (.num bits))
  union : ∀ name members len s', s.addUnion name members (some len) = some s' →
    Same typesize us d t clo s'.last.elems (len.subst (.num bits))
  args : ∀ args, List.Forall₂ (Same typesize us d t clo) (LayoutFn.setupArgs s args)
    (args.map (·.subst (.num bits)))

end Meaning

variable {typesize : String → Clo → Option UInt64} {us : List (String × ThunkType)} {d : Disk}
variable {t : ThunkType} {clo : Clo} {s : Builder}

/-- What an expression returns is its value for the calls that return in the end. -/
theorem returns_iff (e : Expr) (v : UInt64) :
    Returns typesize us d t clo e v ↔
      e.eval (result typesize (unionSize typesize d us) d t clo) d clo 0 = some v := by
  have hle : ∀ n, (calls typesize (unionSize typesize d us) d t clo n).Le
      (calls typesize (unionSize typesize d us) d t clo (n + 1)) :=
    calls_le (stable_unionSize typesize d us)
  rw [result, ← lim_eval hle 0 e]
  exact (stable_eval hle 0 e).lim_eq_some.symm

theorem Returns.unique {e : Expr} {v w : UInt64} (hv : Returns typesize us d t clo e v)
    (hw : Returns typesize us d t clo e w) : v = w :=
  Option.some.inj (((returns_iff e v).mp hv).symm.trans ((returns_iff e w).mp hw))

/-- Replacing `from_base_bits()` by an expression is replacing it by its value. -/
theorem same_subst {new : Expr} {v : UInt64} (h : Returns typesize us d t clo new v) (e : Expr) :
    Same typesize us d t clo (e.subst new) (e.subst (.num v)) := by
  intro x
  have hnew : new.eval (result typesize (unionSize typesize d us) d t clo) d clo 0 =
      (Expr.num v).eval (result typesize (unionSize typesize d us) d t clo) d clo 0 :=
    (returns_iff new v).mp h
  rw [returns_iff, returns_iff, Expr.eval_subst_congr hnew e]

theorem returns_copyFromBase {p : UInt64} (h : Returns typesize us d t clo s.copyCurrentOffset p) :
    Returns typesize us d t clo s.copyFromBase (p - clo.offset) := by
  obtain ⟨n, hn⟩ := h
  refine ⟨n, ?_⟩
  show (Expr.eval _ d clo 0 s.copyCurrentOffset).bind _ = _
  rw [hn]
  rfl

/-- In the arguments of layout functions the meaning is the intended one, for every instance. -/
theorem same_setupArgs {p : UInt64} (h : Returns typesize us d t clo s.copyCurrentOffset p)
    (args : List Expr) :
    List.Forall₂ (Same typesize us d t clo) (LayoutFn.setupArgs s args)
      (args.map (·.subst (.num (p - clo.offset)))) := by
  rw [LayoutFn.setupArgs, List.forall₂_map_left_iff, List.forall₂_map_right_iff, List.forall₂_same]
  exact fun e _ => same_subst (returns_copyFromBase h) e

/-- A declaration of an array of `from_base_bits()` elements. -/
def fromBaseArray (name : String) : Decl := ⟨name, .prim 8, [], some .fromBase, false⟩

/-- `from_base_bits()` is the number of bits from the beginning of the instance, in lengths and in
arguments, exactly for the instances at offset zero. -/
theorem oneMeaning_iff {p : UInt64} (hp : Returns typesize us d t clo s.copyCurrentOffset p) :
    OneMeaning typesize us d t clo s (p - clo.offset) ↔ clo.offset = 0 := by
  constructor
  · intro h
    -- the length of an array that consists of `from_base_bits()` alone
    have hlen := h.decl (fromBaseArray "a") .fromBase rfl p
    have hp' : Returns typesize us d t clo (.num (p - clo.offset)) p := hlen.mp hp
    obtain ⟨n, hn⟩ := hp'
    have hsub : p - clo.offset = p := Option.some.inj hn
    grind
  · intro hzero
    have hlen : ∀ len : Expr, Same typesize us d t clo (len.subst s.copyCurrentOffset)
        (len.subst (.num (p - clo.offset))) := by
      intro len
      rw [hzero, UInt64.sub_zero]
      exact same_subst hp len
    constructor
    · intro dl len hdl
      have helems : (s.addToCurrentSymTab dl).last.elems = len.subst s.copyCurrentOffset := by
        show Builder.elemsOf s.copyCurrentOffset dl.array = _
        rw [hdl]
        rfl
      rw [helems]
      exact hlen len
    · intro name members len s' hs'
      obtain ⟨s₁, u, -, -, -, rfl⟩ := Builder.addUnion_eq_some hs'
      exact hlen len
    · exact same_setupArgs hp

/-- A byte, and an array of as many bytes as there are bits before it. -/
def fromBaseBlock : Stmt :=
  .seq (.decl ⟨"a", .prim 8, [], none, false⟩) (.decl (fromBaseArray "b"))

/-- The builder between the two. -/
def afterByte : Builder := (Builder.init 0).addToCurrentSymTab ⟨"a", .prim 8, [], none, false⟩

/-- The functions of the block. -/
def fromBaseType : ThunkType :=
  let s := afterByte.addToCurrentSymTab (fromBaseArray "b")
  ⟨s.fields, .sub s.copyCurrentOffset .argOff⟩

theorem oneMeaning_atZero :
    getSymTab (fun _ x => some x) 0 fromBaseBlock = some (fromBaseType, []) ∧
    Returns (fun _ _ => none) [] (Disk.ofFn 64 (fun _ => 0) (by norm_num)) fromBaseType ⟨0, []⟩
      afterByte.copyCurrentOffset 8 ∧
    OneMeaning (fun _ _ => none) [] (Disk.ofFn 64 (fun _ => 0) (by norm_num)) fromBaseType ⟨0, []⟩
      afterByte 8 := by
  have hp : Returns (fun _ _ => none) [] (Disk.ofFn 64 (fun _ => 0) (by norm_num)) fromBaseType
      ⟨0, []⟩ afterByte.copyCurrentOffset 8 := ⟨4, rfl⟩
  exact ⟨rfl, hp, (oneMeaning_iff hp).mpr rfl⟩

/-- One byte further on the array has eight more elements, and the type another size. -/
theorem not_oneMeaning_atByte :
    getSymTab (fun _ x => some x) 0 fromBaseBlock = some (fromBaseType, []) ∧
    Returns (fun _ _ => none) [] (Disk.ofFn 64 (fun _ => 0) (by norm_num)) fromBaseType ⟨8, []⟩
      afterByte.copyCurrentOffset 16 ∧
    ¬ OneMeaning (fun _ _ => none) [] (Disk.ofFn 64 (fun _ => 0) (by norm_num)) fromBaseType ⟨8, []⟩
      afterByte (16 - 8) ∧
    Returns (fun _ _ => none) [] (Disk.ofFn 64 (fun _ => 0) (by norm_num)) fromBaseType ⟨0, []⟩
      fromBaseType.size 72 ∧
    Returns (fun _ _ => none) [] (Disk.ofFn 64 (fun _ => 0) (by norm_num)) fromBaseType ⟨8, []⟩
      fromBaseType.size 136 := by
  refine ⟨rfl, ⟨4, rfl⟩, fun h => ?_, ⟨8, rfl⟩, ⟨8, rfl⟩⟩
  obtain ⟨n, hn⟩ := (h.decl (fromBaseArray "c") .fromBase rfl 16).mp ⟨4, rfl⟩
  exact absurd (Option.some.inj hn) (by decide)

end Fsl.Layout
