import Fsl.Runtime.Virt

/-!
# Mappings inside of mappings

The source elements of a mapping may lie in the address space that the parent itself lives in;
`it_range` then reports that space along with the offset. `fsl_virt_xlate_miss` keeps the offset only.
-/

namespace Fsl.Virt

open DirectMapped

/-- A mapping; its source elements are on the disk or in the address space around it. -/
structure Level where
  geom : Geom
  range : UInt64 → Source

/-- The physical address of an offset in an address space, the innermost mapping first. -/
def phys : List Level → UInt64 → Option UInt64
  | [], a => some a
  | l :: ls, a =>
    if a < l.geom.totalBits then
      let src := l.range (l.geom.index a)
      if src.xlate then phys ls (src.off + a % l.geom.srcsz)
      else some (src.off + a % l.geom.srcsz)
    else none

/-- `struct fsl_rt_closure`, with the cache of the mapping it refers to. -/
structure Closure where
  offset : UInt64
  xlate : Option (Level × Cache)

/-- `ti_phys_offset`, also `__toPhys`. -/
def tiPhysOffset (clo : Closure) (off : UInt64) : Except Stop (UInt64 × Closure) :=
  match clo.xlate with
  | none => return (off, clo)
  | some (l, c) => do
    let (a, c) ← xlate l.range l.geom c off
    return (a, { clo with xlate := some (l, c) })

/-- The bytes between the first and the last one of a field. -/
def spread (numBits : UInt64) : UInt64 := 8 * ((numBits - 1) / 8)

/-- `__getLocal`, over `__getLocalPhys`. -/
def getLocal (getLocalPhys : UInt64 → UInt64 → Except Stop UInt64) (clo : Closure)
    (bitOff numBits : UInt64) : Except Stop (UInt64 × Closure) := do
  fslAssert (numBits ≤ 64)
  fslAssert (0 < numBits)
  let (a, clo) ← match clo.xlate with
    | none => pure (bitOff, clo)
    | some _ => do
      let (a, clo) ← tiPhysOffset clo bitOff
      let (last, clo) ← tiPhysOffset clo (bitOff + spread numBits)
      fslAssert (a + spread numBits = last)
      pure (a, clo)
  let ret ← getLocalPhys a numBits
  fslAssert (numBits = 1 → ret < 2)
  return (ret, clo)

/-- The caches that translations lead to. -/
inductive Reached (range : UInt64 → Source) (g : Geom) : Cache → Prop
  | init (c : Cache) : Reached range g (initCache c)
  | next {c c' : Cache} {v a : UInt64} : Reached range g c → xlate range g c v = .ok (a, c') →
      Reached range g c'

variable {range : UInt64 → Source} {g : Geom} {c : Cache} {v a : UInt64}

/-- A translation that returns was one of a byte-aligned offset in the mapping. -/
theorem valid_of_xlate {c' : Cache} (h : xlate range g c v = .ok (a, c')) : g.Valid v := by
  have hpast : ¬ (g.totalBits ≤ v ∧ false = true) := by simp
  by_cases halign : v % 8 = 0
  · by_cases hlt : v < g.totalBits
    · exact ⟨halign, hlt⟩
    · simp [xlate, xlateRtm, fslAssert_of halign, fslAssert_of_not hlt, bind, Except.bind] at h
  · simp [xlate, xlateRtm, fslAssert_of_not halign, bind, Except.bind] at h

/-- A translation fills at most one slot. -/
theorem cache_of_xlate {c' : Cache} (h : xlate range g c v = .ok (a, c')) :
    c' = c ∨ ∃ b, c' = put c b (bases range b) := by
  obtain ⟨halign, hlt⟩ := valid_of_xlate h
  have hpast : ¬ (g.totalBits ≤ v ∧ false = true) := by simp
  simp only [xlate, xlateRtm, fslAssert_of halign, if_neg hpast, fslAssert_of hlt, bind,
    Except.bind] at h
  cases hbase : xlateBase range c (toInt (g.index v)) with
  | error e =>
    rw [hbase] at h
    cases h
  | ok p =>
    rw [hbase] at h
    have hc' : p.2 = c' := by
      by_cases hzero : p.1 + v % g.srcsz ≠ 0
      · simp only [fslAssert_of hzero] at h
        cases h
        rfl
      · simp only [fslAssert_of_not hzero] at h
        cases h
    rw [← hc']
    exact cache_of_xlateBase hbase

/-- What a translation returns, and the cache it leaves. -/
theorem homed_of_xlate {c' : Cache} (hc : Homed (bases range) c)
    (h : xlate range g c v = .ok (a, c')) :
    Homed (bases range) c' ∧ addressInt range g v = .ok a := by
  rcases xlate_eq hc (valid_of_xlate h) (bases_ofInt range _) with ⟨-, hx⟩ | ⟨hslot, c'', hc'', hx⟩
  · rw [hx] at h
    cases h
  · rw [hx] at h
    rw [addressInt, if_pos hslot]
    cases haddr : address range g (narrow (g.index v)) v with
    | error e =>
      rw [haddr] at h
      cases h
    | ok b =>
      rw [haddr] at h
      cases h
      exact ⟨hc'', rfl⟩

theorem Reached.homed (h : Reached range g c) : Homed (bases range) c := by
  induction h with
  | init c => exact homed_initCache c
  | next _ hx ih => exact (homed_of_xlate ih hx).1

/-- A translation in a reached state. -/
theorem Reached.xlate_of_address (h : Reached range g c) (hv : g.Valid v)
    (ha : addressInt range g v = .ok a) : ∃ c', xlate range g c v = .ok (a, c') := by
  rcases xlate_eq h.homed hv (bases_ofInt range _) with ⟨hslot, hx⟩ | ⟨hslot, c', hc', hx⟩
  · rw [addressInt, if_neg hslot] at ha
    cases ha
  · rw [addressInt, if_pos hslot] at ha
    refine ⟨c', ?_⟩
    rw [hx, ha]
    rfl

/-- For every place of the source elements, translations compose: `fsl_virt_xlate`, `ti_phys_offset`
and `__getLocal` use the physical address. An element at the origin of the disk is refused by an
assertion, and so is a field whose bytes are not next to each other. -/
def Composes (g : Geom) (handles : UInt64 → Bool) (ls : List Level) : Prop :=
  ∀ (offs : UInt64 → UInt64) (l : Level), l = ⟨g, fun i => ⟨offs i, handles i⟩⟩ →
    ∀ c v a, Reached l.range g c → g.Valid v → phys (l :: ls) v = some a → a ≠ 0 →
      (∃ c', xlate l.range g c v = .ok (a, c')) ∧
        (∃ clo, tiPhysOffset ⟨v, some (l, c)⟩ v = .ok (a, clo)) ∧
        ∀ rd n, 0 < n → n ≤ 64 → g.Valid (v + spread n) →
          phys (l :: ls) (v + spread n) = some (a + spread n) → a + spread n ≠ 0 →
          (getLocal rd ⟨v, some (l, c)⟩ v n).map Prod.fst = do
            let ret ← rd a n
            fslAssert (n = 1 → ret < 2)
            return ret

/-- The physical address of an offset of the space that the source elements are in. -/
def enclosing (handle : Bool) (ls : List Level) (x : UInt64) : Option UInt64 :=
  if handle then phys ls x else some x

theorem phys_cons {offs : UInt64 → UInt64} {handles : UInt64 → Bool} {ls : List Level}
    (hv : g.Valid v) :
    phys (⟨g, fun i => ⟨offs i, handles i⟩⟩ :: ls) v =
      enclosing (handles (g.index v)) ls (offs (g.index v) + v % g.srcsz) := by
  rw [phys]
  exact if_pos hv.2

theorem address_of_ne_zero {idx : UInt64} (h : (range idx).off + v % g.srcsz = a) (ha : a ≠ 0) :
    address range g idx v = .ok a := by
  subst h
  rw [address, fslAssert_of ha]
  rfl

theorem eq_of_address {idx : UInt64} (h : address range g idx v = .ok a) :
    a = (range idx).off + v % g.srcsz := by
  by_cases hzero : (range idx).off + v % g.srcsz ≠ 0
  · rw [address, fslAssert_of hzero] at h
    exact (Except.ok.inj h).symm
  · rw [address, fslAssert_of_not hzero] at h
    cases h

section Composes

variable {handles : UInt64 → Bool} {ls : List Level}

/-- An offset that is looked up under its own index, in a space that leaves it where it is. -/
theorem address_of_enclosing {offs : UInt64 → UInt64}
    (h : ∀ v, g.Valid v → ∀ x y, enclosing (handles (g.index v)) ls x = some y → y ≠ 0 →
      FitsInt (g.index v) ∧ y = x)
    (hv : g.Valid v) (hphys : phys (⟨g, fun i => ⟨offs i, handles i⟩⟩ :: ls) v = some a)
    (ha : a ≠ 0) : addressInt (fun i => ⟨offs i, handles i⟩) g v = .ok a := by
  rw [phys_cons hv] at hphys
  obtain ⟨hfits, heq⟩ := h v hv _ a hphys ha
  rw [addressInt_of_fits hfits]
  exact address_of_ne_zero heq.symm ha

theorem composes_of_enclosing
    (h : ∀ v, g.Valid v → ∀ x y, enclosing (handles (g.index v)) ls x = some y → y ≠ 0 →
      FitsInt (g.index v) ∧ y = x) : Composes g handles ls := by
  rintro offs l rfl c v a hc hv hphys ha
  have haddr := address_of_enclosing h hv hphys ha
  obtain ⟨c', hx⟩ := hc.xlate_of_address hv haddr
  have hti : tiPhysOffset ⟨v, some (⟨g, fun i => ⟨offs i, handles i⟩⟩, c)⟩ v =
      .ok (a, ⟨v, some (⟨g, fun i => ⟨offs i, handles i⟩⟩, c')⟩) := by
    simp only [tiPhysOffset, hx, bind, Except.bind]
    rfl
  refine ⟨⟨c', hx⟩, ⟨_, hti⟩, ?_⟩
  intro rd n hpos hle hv' hphys' ha'
  have haddr' := address_of_enclosing h hv' hphys' ha'
  obtain ⟨c'', hx'⟩ := (hc.next hx).xlate_of_address hv' haddr'
  have hti' : tiPhysOffset ⟨v, some (⟨g, fun i => ⟨offs i, handles i⟩⟩, c')⟩ (v + spread n) =
      .ok (a + spread n, ⟨v, some (⟨g, fun i => ⟨offs i, handles i⟩⟩, c'')⟩) := by
    simp only [tiPhysOffset, hx', bind, Except.bind]
    rfl
  simp only [getLocal, fslAssert_of hle, fslAssert_of hpos, hti, hti', fslAssert_of trivial, bind,
    Except.bind, pure, Except.pure]
  cases rd a n with
  | error e => rfl
  | ok ret =>
    by_cases hbit : n = 1 → ret < 2
    · simp only [fslAssert_of hbit]
      rfl
    · simp only [fslAssert_of_not hbit]
      rfl

theorem enclosing_of_composes (h : Composes g handles ls) (hv : g.Valid v) {x y : UInt64}
    (hy : enclosing (handles (g.index v)) ls x = some y) (hne : y ≠ 0) :
    FitsInt (g.index v) ∧ y = x := by
  -- the other elements are where the answer would be wrong
  have hxlate := h (fun i => if i = g.index v then x - v % g.srcsz else y - v % g.srcsz + 1) _ rfl
    (initCache fun _ => ⟨0, 0⟩) v y (.init _) hv
  rw [phys_cons hv, if_pos rfl, UInt64.sub_add_cancel] at hxlate
  obtain ⟨⟨c', hx⟩, -⟩ := hxlate hy hne
  obtain ⟨-, haddr⟩ := homed_of_xlate (homed_initCache _) hx
  rw [addressInt] at haddr
  split at haddr
  next hslot =>
    have heq : y = (if narrow (g.index v) = g.index v then x - v % g.srcsz
        else y - v % g.srcsz + 1) + v % g.srcsz := eq_of_address haddr
    by_cases hnarrow : narrow (g.index v) = g.index v
    · refine ⟨(fitsInt_iff _).mpr ⟨hnarrow, hslot⟩, ?_⟩
      rw [if_pos hnarrow, UInt64.sub_add_cancel] at heq
      exact heq
    · rw [if_neg hnarrow] at heq
      grind
  next => cases haddr

/-- Translations compose, wherever the source elements are, exactly if the index of each element fits
the `int` it is passed as and each element that `it_range` reports with a translation handle lies in an
address space that leaves it where it is. -/
theorem composes_iff (g : Geom) (handles : UInt64 → Bool) (ls : List Level) :
    Composes g handles ls ↔
      ∀ v, g.Valid v → ∀ x y, enclosing (handles (g.index v)) ls x = some y → y ≠ 0 →
        FitsInt (g.index v) ∧ y = x := by
  constructor
  · intro h v hv x y hy hne
    exact enclosing_of_composes h hv hy hne
  · exact composes_of_enclosing

end Composes

/-- A file inside of a file: the inner mapping has one element, at offset 0 of the outer one, whose
first block is at `2 ^ 16`. -/
theorem not_composes_nested :
    let inner : Geom := ⟨0, 0, 64⟩
    let outer : Level := ⟨⟨0, 0, 4096⟩, fun _ => ⟨2 ^ 16, false⟩⟩
    ¬ Composes inner (fun _ => true) [outer] := by
  intro inner outer h
  have henc := enclosing_of_composes h (v := 0) (x := 8) (y := 2 ^ 16 + 8) (by constructor <;> decide)
    (by decide) (by decide)
  exact absurd henc.2 (by decide)

end Fsl.Virt
