import Fsl.Runtime.BigEndian
import Fsl.Runtime.Log
import Fsl.Runtime.VirtNest

/-!
# Files of the FUSE browser

`fuse-browser.c` offers primitive fields and arrays of them as files. A byte is read with
`__getLocal`, in the address space that the field lives in, and written with `__writeVal`, through
the write log and at the same offset of the disk itself.
-/

namespace Fsl.Fuse

open BitNum Pread Virt

/-- The mapping that the type info of an open file refers to. Its geometry is computed when it is
allocated; the sources are those that `it_range` finds on the disk as it is (through the mappings around
it, whose caches are right). -/
structure Mapping where
  geom : Geom
  range : Disk → UInt64 → Source

/-- A file that `fslfuse_open` opened, a primitive field or an array of them. Its size and the offset of
its type info (of an array, the one that `typeinfo_follow_field_idx` returns for element 0; `none` is
`NULL`) are computed over the disk as it is at a request. -/
structure Node where
  bits : Disk → Except Stop UInt64
  offset : Disk → Except Stop (Option UInt64)
  mapping : Option Mapping

/-- `fbn_bytes` -/
def Node.bytes (fbn : Node) (d : Disk) : Except Stop UInt64 := do
  return (← fbn.bits d) / 8

/-- `ti_clo` of the type info over the disk `d`, with the cache of its mapping. -/
def Node.clo (fbn : Node) (d : Disk) (c : Cache) (cloOff : UInt64) : Closure :=
  ⟨cloOff, fbn.mapping.map fun m => (⟨m.geom, m.range d⟩, c)⟩

/-- `fslfuse_prep_io` on an open file, over the disk `d`: `clo_off` and `len_out`. There is nothing to do
past the end; the offset is read without a test for `NULL`. -/
def prepIo (fbn : Node) (d : Disk) (offset : UInt64) : Except Stop (Option (UInt64 × UInt64)) := do
  let len ← fbn.bytes d
  if len ≤ offset then return none
  match ← fbn.offset d with
  | none => throw Stop.fault
  | some cloOff => return some (cloOff, len)

/-- The part of a request that lies in a file of `len` bytes. -/
def clip (len size offset : UInt64) : UInt64 :=
  if len < size + offset then len - offset else size

/-- `clo_off + (offset + i) * 8` -/
def byteAddr (cloOff offset : UInt64) (i : ℕ) : UInt64 := cloOff + (offset + UInt64.ofNat i) * 8

/-- A `char` that is passed as a 64-bit word. -/
def charVal (c : UInt8) : UInt64 := c.toInt8.toInt64.toUInt64

/-- The loop of `fslfuse_write`. -/
def writeLoop (cloOff offset : UInt64) (buf : ℕ → UInt8) : List ℕ → RtM Unit
  | [] => return ()
  | i :: is => do
    wlogAdd (writeVal (byteAddr cloOff offset i) 8 (charVal (buf i)))
    writeLoop cloOff offset buf is

/-- `fslfuse_write` -/
def fuseWrite (fbn : Node) (buf : ℕ → UInt8) (size offset : UInt64) : RtM UInt64 := do
  match ← prepIo fbn (← get).io.disk offset with
  | none => return 0
  | some (cloOff, len) =>
    let size := clip len size offset
    wlogStart
    writeLoop cloOff offset buf (List.range size.toNat)
    writeComplete
    return size

/-- `__getLocal` over the pread runtime. -/
def getLocalIo (mode : Mode) (clo : Closure) (bitOff numBits : UInt64) :
    RtM (UInt64 × Closure) := do
  fslAssert (numBits ≤ 64)
  fslAssert (0 < numBits)
  let (a, clo) ← match clo.xlate with
    | none => pure (bitOff, clo)
    | some _ => do
      let (a, clo) ← tiPhysOffset clo bitOff
      let (last, clo) ← tiPhysOffset clo (bitOff + spread numBits)
      fslAssert (a + spread numBits = last)
      pure (a, clo)
  let ret ← onIo (getLocalPhys mode a.toNat numBits.toNat)
  fslAssert (numBits = 1 → ret < 2)
  return (UInt64.ofNat ret, clo)

/-- The loop of `fslfuse_read`. -/
def readLoop (mode : Mode) (cloOff offset : UInt64) : Closure → List ℕ → RtM (List UInt8)
  | _, [] => return []
  | clo, i :: is => do
    let (v, clo) ← getLocalIo mode clo (byteAddr cloOff offset i) 8
    let buf ← readLoop mode cloOff offset clo is
    return v.toUInt8 :: buf

/-- `fslfuse_read`: the result, and what is in the buffer. -/
def fuseRead (mode : Mode) (fbn : Node) (c : Cache) (size offset : UInt64) :
    RtM (UInt64 × List UInt8) := do
  let d := (← get).io.disk
  match ← prepIo fbn d offset with
  | none => return (0, [])
  | some (cloOff, len) =>
    let size := clip len size offset
    let buf ← readLoop mode cloOff offset (fbn.clo d c cloOff) (List.range size.toNat)
    return (size, buf)

/-! ## Translation -/

/-- `__toPhys` -/
def toPhys (clo : Closure) (v : UInt64) : Except Stop UInt64 := (tiPhysOffset clo v).map Prod.fst

/-- The closure's mapping has a cache that translations led to. -/
def CacheReached (clo : Closure) : Prop :=
  ∀ l c, clo.xlate = some (l, c) → Reached l.range l.geom c

/-- A translation that looks the source up, without a cache. -/
def lookup (l : Level) (v : UInt64) : Except Stop UInt64 := do
  fslAssert (v % 8 = 0)
  fslAssert (v < l.geom.totalBits)
  addressInt l.range l.geom v

/-- `__toPhys`, without a cache. -/
def direct (clo : Closure) (v : UInt64) : Except Stop UInt64 :=
  match clo.xlate with
  | none => .ok v
  | some (l, _) => lookup l v

/-- What the cache of the closure's mapping has for the sources of the offsets `V` is what `it_range`
reports. -/
def CacheRight (clo : Closure) (V : Set UInt64) : Prop :=
  ∀ l c, clo.xlate = some (l, c) → ∃ backing, c.Homed backing ∧
    ∀ v ∈ V, backing (narrow (l.geom.index v)).toNat = (l.range (narrow (l.geom.index v))).off

theorem CacheReached.right {clo : Closure} (hc : CacheReached clo) (V : Set UInt64) :
    CacheRight clo V :=
  fun l c h => ⟨bases l.range, (hc l c h).homed, fun _ _ => bases_ofInt l.range _⟩

theorem toPhys_of_none {clo : Closure} (h : clo.xlate = none) (v : UInt64) :
    toPhys clo v = .ok v := by
  rw [toPhys, tiPhysOffset, h]
  rfl

section Xlate

variable {clo : Closure} {l : Level} {c : Cache} {v : UInt64} {V : Set UInt64}

theorem tiPhysOffset_of_some (h : clo.xlate = some (l, c)) :
    tiPhysOffset clo v =
      (xlate l.range l.geom c v).map fun p => (p.1, { clo with xlate := some (l, p.2) }) := by
  rw [tiPhysOffset, h]
  show (xlate l.range l.geom c v >>= _) = _
  cases xlate l.range l.geom c v <;> rfl

/-- A translation, and the cache that it leaves. -/
theorem xlate_cases {backing : ℕ → UInt64} (hc : c.Homed backing)
    (hv : backing (narrow (l.geom.index v)).toNat = (l.range (narrow (l.geom.index v))).off) :
    (∃ e, xlate l.range l.geom c v = .error e ∧ lookup l v = .error e) ∨
      ∃ a c', xlate l.range l.geom c v = .ok (a, c') ∧ lookup l v = .ok a ∧
        c'.Homed backing := by
  by_cases halign : v % 8 = 0
  · by_cases hlt : v < l.geom.totalBits
    · have hlookup : lookup l v = addressInt l.range l.geom v := by
        rw [lookup, fslAssert_of halign, fslAssert_of hlt]
        rfl
      rw [hlookup]
      rcases xlate_eq hc ⟨halign, hlt⟩ hv with ⟨hslot, hx⟩ | ⟨hslot, c', hc', hx⟩
      · exact .inl ⟨_, hx, if_neg hslot⟩
      · rw [hx, addressInt, if_pos hslot]
        cases address l.range l.geom (narrow (l.geom.index v)) v with
        | error e => exact .inl ⟨e, rfl, rfl⟩
        | ok a => exact .inr ⟨a, c', rfl, rfl, hc'⟩
    · refine .inl ⟨.assertion, ?_, ?_⟩
      · simp [xlate, xlateRtm, fslAssert_of halign, fslAssert_of_not hlt, bind, Except.bind]
      · rw [lookup, fslAssert_of halign, fslAssert_of_not hlt]
        rfl
  · refine .inl ⟨.assertion, ?_, ?_⟩
    · simp [xlate, xlateRtm, fslAssert_of_not halign, bind, Except.bind]
    · rw [lookup, fslAssert_of_not halign]
      rfl

/-- A translation of an offset that the cache is right for returns what a lookup does, and leaves the
cache right. -/
theorem CacheRight.tiPhysOffset_cases (hc : CacheRight clo V) (hv : v ∈ V) :
    (∃ e, tiPhysOffset clo v = .error e ∧ direct clo v = .error e) ∨
      ∃ a clo', tiPhysOffset clo v = .ok (a, clo') ∧ direct clo v = .ok a ∧
        CacheRight clo' V ∧ direct clo' = direct clo := by
  cases hx : clo.xlate with
  | none =>
    refine .inr ⟨v, clo, ?_, ?_, hc, rfl⟩
    · rw [tiPhysOffset, hx]
      rfl
    · rw [direct, hx]
  | some p =>
    obtain ⟨l, c⟩ := p
    obtain ⟨backing, hhomed, hright⟩ := hc l c hx
    have hdirect : direct clo = lookup l := by
      funext w
      rw [direct, hx]
    rw [tiPhysOffset_of_some hx, hdirect]
    rcases xlate_cases hhomed (hright v hv) with ⟨e, hxl, hl⟩ | ⟨a, c', hxl, hl, hc'⟩
    · refine .inl ⟨e, ?_, hl⟩
      rw [hxl]
      rfl
    · refine .inr ⟨a, { clo with xlate := some (l, c') }, ?_, hl, ?_, ?_⟩
      · rw [hxl]
        rfl
      · rintro l' c'' heq
        cases heq
        exact ⟨backing, hc', hright⟩
      · funext w
        rw [direct]

theorem CacheRight.toPhys_eq (hc : CacheRight clo V) (hv : v ∈ V) : toPhys clo v = direct clo v := by
  rw [toPhys]
  rcases hc.tiPhysOffset_cases hv with ⟨e, ht, hd⟩ | ⟨a, clo', ht, hd, -⟩
  · rw [ht, hd]
    rfl
  · rw [ht, hd]
    rfl

/-- Whatever the cache holds, a translation returns what a lookup without a cache does. -/
theorem toPhys_of_some (h : clo.xlate = some (l, c)) (hc : Reached l.range l.geom c) :
    toPhys clo v = lookup l v := by
  have hreached : CacheReached clo := by
    intro l' c' h'
    rw [h] at h'
    cases h'
    exact hc
  rw [(hreached.right Set.univ).toPhys_eq (Set.mem_univ v), direct, h]

end Xlate

theorem exists_of_toPhys {clo : Closure} {v a : UInt64} (h : toPhys clo v = .ok a) :
    ∃ clo', tiPhysOffset clo v = .ok (a, clo') := by
  rw [toPhys] at h
  cases hx : tiPhysOffset clo v with
  | error e =>
    rw [hx] at h
    cases h
  | ok r =>
    rw [hx] at h
    cases h
    exact ⟨r.2, rfl⟩

/-! ## Reading -/

/-- The byte at an offset of an address space, over the file `d`. -/
def byteAt (mode : Mode) (d : Disk) (phys : UInt64 → Except Stop UInt64) (v : UInt64) :
    Except Stop UInt8 := do
  let a ← phys v
  let b ← diskPhys mode d a.toNat 8
  return (UInt64.ofNat b).toUInt8

theorem fslAssert_bind_of {α : Type} {p : Prop} [Decidable p] (h : p) (x : RtM α) :
    (fslAssert p >>= fun _ => x) = x := by
  rw [fslAssert, if_pos h]
  rfl

theorem lift_ok_bind {α β : Type} (a : α) (f : α → RtM β) :
    ((liftM (Except.ok a : Except Stop α) : RtM α) >>= f) = f a := rfl

section Reading

variable {mode : Mode} {clo : Closure} {v : UInt64} {V : Set UInt64}

/-- A byte is read where the offset is translated to. -/
theorem getLocalIo_cases (mode : Mode) (hc : CacheRight clo V) (hv : v ∈ V) :
    (∃ e, direct clo v = .error e ∧ ∀ rt, getLocalIo mode clo v 8 rt = .error e) ∨
      ∃ a clo', direct clo v = .ok a ∧ CacheRight clo' V ∧ direct clo' = direct clo ∧ ∀ rt,
        getLocalIo mode clo v 8 rt =
          (onIo (getLocalPhys mode a.toNat 8) rt).map fun p => ((UInt64.ofNat p.1, clo'), p.2) := by
  have hfin : ∀ (a : UInt64) (clo' : Closure) (rt : Rt), (do
      let ret ← onIo (getLocalPhys mode a.toNat 8)
      fslAssert ((8 : UInt64) = 1 → ret < 2)
      return (UInt64.ofNat ret, clo') : RtM _) rt =
        (onIo (getLocalPhys mode a.toNat 8) rt).map fun p => ((UInt64.ofNat p.1, clo'), p.2) := by
    intro a clo' rt
    show (onIo (getLocalPhys mode a.toNat 8) rt >>= _) = _
    cases onIo (getLocalPhys mode a.toNat 8) rt <;> rfl
  cases hx : clo.xlate with
  | none =>
    refine .inr ⟨v, clo, by rw [direct, hx], hc, rfl, fun rt => ?_⟩
    rw [← hfin]
    simp only [getLocalIo, hx]
    rfl
  | some p =>
    have hsame : v + spread 8 = v := by simp [spread]
    rcases hc.tiPhysOffset_cases hv with ⟨e, h1, hd⟩ | ⟨a, clo1, h1, hd, hc1, heq1⟩
    · refine .inl ⟨e, hd, fun rt => ?_⟩
      simp only [getLocalIo, hx, h1]
      rfl
    · rcases hc1.tiPhysOffset_cases hv with ⟨e, -, hd2⟩ | ⟨a2, clo2, h2, hd2, hc2, heq2⟩
      · rw [heq1, hd] at hd2
        cases hd2
      · rw [heq1, hd] at hd2
        cases hd2
        refine .inr ⟨a, clo2, hd, hc2, heq2.trans heq1, fun rt => ?_⟩
        have ha : a + spread 8 = a := by simp [spread]
        rw [← hfin]
        simp only [getLocalIo, hx, h1, hsame, lift_ok_bind]
        rw [fslAssert_bind_of (by decide), fslAssert_bind_of (by decide), h2, lift_ok_bind,
          fslAssert_bind_of ha]
        rfl

/-- From every coherent cache over the file `d`, a byte is read as it is over `d`. -/
theorem getLocalIo_refines {d : Disk} (hc : CacheRight clo V) (hv : v ∈ V) :
    Refines (fun rt : Rt => Over d rt.io)
      (fun p b => p.1.toUInt8 = b ∧ CacheRight p.2 V ∧ direct p.2 = direct clo)
      (getLocalIo mode clo v 8) (byteAt mode d (direct clo) v) := by
  intro rt hrt
  rcases getLocalIo_cases mode hc hv with ⟨e, ha, hrun⟩ | ⟨a, clo', ha, hc', heq, hrun⟩
  · rw [byteAt, ha]
    exact hrun rt
  · have href : Refines (Over d) Eq (getLocalPhys mode a.toNat 8) (diskPhys mode d a.toNat 8) :=
      getLocalPhys_refines (by decide) (by decide) a.toNat_lt
    have hread := href rt.io hrt
    rw [byteAt, ha, hrun, ok_bind]
    cases hd : diskPhys mode d a.toNat 8 with
    | error e =>
      rw [hd] at hread
      change getLocalPhys mode a.toNat 8 rt.io = .error e at hread
      rw [error_bind]
      show ((getLocalPhys mode a.toNat 8 rt.io).map _).map _ = _
      rw [hread]
      rfl
    | ok b =>
      rw [hd] at hread
      obtain ⟨ret, io', hx, rfl, hio'⟩ := hread
      rw [ok_bind]
      refine ⟨(UInt64.ofNat ret, clo'), { rt with io := io' }, ?_, ⟨rfl, hc', heq⟩, hio'⟩
      show ((getLocalPhys mode a.toNat 8 rt.io).map _).map _ = _
      rw [hx]
      rfl

/-- The loop reads one byte after the other. -/
theorem readLoop_refines (mode : Mode) {d : Disk} (cloOff offset : UInt64) (is : List ℕ)
    (hc : CacheRight clo V) (hV : ∀ i ∈ is, byteAddr cloOff offset i ∈ V) :
    Refines (fun rt : Rt => Over d rt.io) Eq (readLoop mode cloOff offset clo is)
      (is.mapM fun i => byteAt mode d (direct clo) (byteAddr cloOff offset i)) := by
  induction is generalizing clo with
  | nil => exact Refines.pure rfl
  | cons i is ih =>
    obtain ⟨hi, his⟩ := List.forall_mem_cons.mp hV
    rw [List.mapM_cons]
    refine Refines.bind (getLocalIo_refines hc hi) ?_
    rintro ⟨x, clo'⟩ b ⟨rfl, hc', heq⟩
    have hrest := ih hc' his
    rw [heq] at hrest
    refine Refines.bind hrest ?_
    rintro buf _ rfl
    exact Refines.pure rfl

end Reading

/-! ## Eight bits -/

/-- The bit of the file that is the lowest one of a byte-wide field. -/
def lowBit : Mode → ℕ → ℕ
  | .little, off => off
  | .big, off => 8 * ((off + 7) / 8) + (7 - (off + 7) % 8)

theorem eq_of_lowBit {mode : Mode} {off a : ℕ} (ha : a % 8 = 0) (h : lowBit mode off = a) :
    off = a := by
  cases mode with
  | little => exact h
  | big =>
    change 8 * ((off + 7) / 8) + (7 - (off + 7) % 8) = a at h
    omega

theorem diskPhys_byte (mode : Mode) {d : Disk} {off : ℕ} (hal : off % 8 = 0)
    (hfull : Full d off 8) : diskPhys mode d off 8 = .ok (d.num off 8) := by
  cases mode with
  | little =>
    rw [diskPhys_num (.inr ⟨hal, by decide, by decide, by decide⟩), if_pos hfull]
  | big =>
    have hshape : BeShape off 8 := by
      rw [BeShape, if_pos hal]
      decide
    rw [diskPhys_big (by decide) hfull hshape]
    refine congrArg Except.ok (ofBits_congr fun i hi => ?_)
    rw [Disk.beBit]
    congr 1
    omega

/-- A byte-wide field that can be read, wherever it starts. -/
theorem full_of_diskPhys {mode : Mode} {d : Disk} {off b : ℕ}
    (h : diskPhys mode d off 8 = .ok b) :
    Full d off 8 ∧ b.testBit 0 = d.bit (lowBit mode off) := by
  cases mode with
  | little =>
    rw [diskPhys_little (by decide) (by decide)] at h
    by_cases hfull : Full d off 8
    · rw [if_pos hfull] at h
      cases h
      refine ⟨hfull, ?_⟩
      have hkeep : keepsBit off 8 0 = true := by
        unfold keepsBit
        split <;> simp
      rw [testBit_ofBits, hkeep]
      simp [lowBit]
    · rw [if_neg hfull] at h
      cases h
  | big =>
    by_cases hfull : Full d off 8 ∧ BeShape off 8
    · rw [diskPhys_big (by decide) hfull.1 hfull.2] at h
      cases h
      refine ⟨hfull.1, ?_⟩
      rw [beField, testBit_ofBits]
      simp [Disk.beBit, lowBit]
    · rcases diskPhys_big_of_not (by decide) (by decide) hfull with herr | ⟨-, hn, -⟩
      · rw [herr] at h
        cases h
      · exact absurd rfl hn

/-! ## Writing -/

/-- The entry that the loop of `fslfuse_write` logs for a byte. -/
def logged (cloOff offset : UInt64) (buf : ℕ → UInt8) (i : ℕ) : WlogEnt :=
  writeVal (byteAddr cloOff offset i) 8 (charVal (buf i))

theorem testBit_charVal (c : UInt8) {j : ℕ} (hj : j < 8) :
    (charVal c).toNat.testBit j = c.toNat.testBit j := by
  have hall : ∀ c : Fin 256, ∀ j : Fin 8,
      (charVal (UInt8.ofNat c)).toNat.testBit j = c.val.testBit j := by decide +kernel
  have h := hall ⟨c.toNat, c.toNat_lt⟩ ⟨j, hj⟩
  rwa [UInt8.ofNat_toNat] at h

section Addr

variable {cloOff offset : UInt64} {buf : ℕ → UInt8} {n i j : ℕ}

theorem byteAddr_inj (hi : i < 2 ^ 61) (hj : j < 2 ^ 61)
    (h : byteAddr cloOff offset i = byteAddr cloOff offset j) : i = j := by
  have hnat := congrArg UInt64.toNat h
  simp only [byteAddr, UInt64.toNat_add, UInt64.toNat_mul, UInt64.toNat_ofNat'] at hnat
  have h8 : (8 : UInt64).toNat = 8 := rfl
  rw [h8] at hnat
  omega

/-- Bytes at byte boundaries are apart. -/
theorem pairwise_logged (hn : n ≤ 2 ^ 61)
    (hal : ∀ i < n, (byteAddr cloOff offset i).toNat % 8 = 0) :
    ((List.range n).map (logged cloOff offset buf)).Pairwise WlogEnt.Apart := by
  rw [List.pairwise_map]
  refine List.pairwise_lt_range.imp_of_mem ?_
  intro i j hi hj hlt k hk
  rw [List.mem_range] at hi hj
  have hne : (byteAddr cloOff offset i).toNat ≠ (byteAddr cloOff offset j).toNat := by
    intro heq
    exact absurd (byteAddr_inj (by omega) (by omega) (UInt64.toNat_inj.mp heq)) (by omega)
  have hi8 := hal i hi
  have hj8 := hal j hj
  change (byteAddr cloOff offset i).toNat ≤ k ∧ k < (byteAddr cloOff offset i).toNat + 8 ∧
    (byteAddr cloOff offset j).toNat ≤ k ∧ k < (byteAddr cloOff offset j).toNat + 8 at hk
  omega

end Addr

theorem wlogAdd_run {io : Io} {l : List WlogEnt} (we : WlogEnt) :
    wlogAdd we ⟨io, some l⟩ =
      if l.length ≠ 64 then .ok ((), ⟨io, some (l ++ [we])⟩) else .error .assertion := by
  show (fslAssert (l.length ≠ 64) >>= fun _ => _ : RtM Unit) _ = _
  by_cases h64 : l.length ≠ 64
  · rw [if_pos h64, fslAssert_bind_of h64]
    rfl
  · rw [if_neg h64, fslAssert, if_neg h64]
    rfl

/-- The log takes 64 entries. -/
theorem writeLoop_run (cloOff offset : UInt64) (buf : ℕ → UInt8) (is : List ℕ) (io : Io)
    {l : List WlogEnt} (hlen : l.length ≤ 64) :
    writeLoop cloOff offset buf is ⟨io, some l⟩ =
      if l.length + is.length ≤ 64
      then .ok ((), ⟨io, some (l ++ is.map (logged cloOff offset buf))⟩)
      else .error .assertion := by
  induction is generalizing l with
  | nil =>
    rw [List.map_nil, List.append_nil, List.length_nil, Nat.add_zero, if_pos hlen]
    rfl
  | cons i is ih =>
    show (wlogAdd (logged cloOff offset buf i) ⟨io, some l⟩ >>= fun p =>
      writeLoop cloOff offset buf is p.2) = _
    rw [wlogAdd_run, List.length_cons]
    by_cases h64 : l.length ≠ 64
    · have hl' : (l ++ [logged cloOff offset buf i]).length = l.length + 1 := by simp
      rw [if_pos h64, ok_bind, ih (by omega), hl', List.map_cons, List.append_assoc,
        List.singleton_append]
      exact if_congr (by omega) rfl rfl
    · rw [if_neg h64, error_bind, if_neg (by omega)]

theorem writeComplete_run (io : Io) (l : List WlogEnt) :
    writeComplete ⟨io, some l⟩ = (commitEnts l io).map fun p => ((), ⟨p.2, none⟩) := by
  have hcommit : wlogCommit ⟨io, some l⟩ =
      (commitEnts l io).map fun p => ((), ⟨p.2, some []⟩) := by
    show ((commitEnts l io).map _ >>= _) = _
    cases commitEnts l io <;> rfl
  show (wlogCommit ⟨io, some l⟩ >>= fun p => wlogStop p.2) = _
  rw [hcommit]
  cases commitEnts l io <;> rfl

/-- The part of a request that lies in the file: `clo_off`, and the number of bytes. -/
def Node.part (fbn : Node) (d : Disk) (size offset : UInt64) :
    Except Stop (Option (UInt64 × UInt64)) :=
  (prepIo fbn d offset).map (Option.map fun p => (p.1, clip p.2 size offset))

theorem run_get_bind {α : Type} (f : Rt → RtM α) (rt : Rt) : (get >>= f) rt = f rt rt := rfl

section Part

variable {fbn : Node} {d : Disk} {cloOff size offset n : UInt64}

theorem prepIo_of_part_none (h : fbn.part d size offset = .ok none) : prepIo fbn d offset = .ok none := by
  cases hprep : prepIo fbn d offset with
  | error e =>
    rw [Node.part, hprep] at h
    cases h
  | ok o =>
    cases o with
    | none => rfl
    | some p =>
      rw [Node.part, hprep] at h
      cases h

theorem prepIo_of_part (h : fbn.part d size offset = .ok (some (cloOff, n))) :
    ∃ len, prepIo fbn d offset = .ok (some (cloOff, len)) ∧ n = clip len size offset := by
  cases hprep : prepIo fbn d offset with
  | error e =>
    rw [Node.part, hprep] at h
    cases h
  | ok o =>
    cases o with
    | none =>
      rw [Node.part, hprep] at h
      cases h
    | some p =>
      rw [Node.part, hprep] at h
      cases h
      exact ⟨p.2, rfl, rfl⟩

theorem prepIo_of_part_error {e : Stop} (h : fbn.part d size offset = .error e) :
    prepIo fbn d offset = .error e := by
  cases hprep : prepIo fbn d offset with
  | error e' =>
    rw [Node.part, hprep] at h
    cases h
    rfl
  | ok o =>
    rw [Node.part, hprep] at h
    cases h

/-- `clo_off` is the offset of the field. -/
theorem offset_of_part (h : fbn.part d size offset = .ok (some (cloOff, n))) :
    fbn.offset d = .ok (some cloOff) := by
  obtain ⟨len, hprep, -⟩ := prepIo_of_part h
  obtain ⟨len', -, hrest⟩ := bind_eq_ok hprep
  split at hrest
  next => cases hrest
  next =>
    obtain ⟨o, ho, hrest⟩ := bind_eq_ok hrest
    cases o with
    | none => cases hrest
    | some off =>
      cases hrest
      exact ho

end Part

section Request

variable {fbn : Node} {cloOff size offset n : UInt64}

/-- A request of at most 64 bytes is logged and committed. -/
theorem fuseWrite_eq {io : Io} (hpart : fbn.part io.disk size offset = .ok (some (cloOff, n)))
    (buf : ℕ → UInt8) :
    fuseWrite fbn buf size offset ⟨io, none⟩ =
      if n.toNat ≤ 64
      then (commitEnts ((List.range n.toNat).map (logged cloOff offset buf)) io).map
        fun p => (n, ⟨p.2, none⟩)
      else .error .assertion := by
  obtain ⟨len, hprep, rfl⟩ := prepIo_of_part hpart
  have hrun : fuseWrite fbn buf size offset ⟨io, none⟩ =
      (writeLoop cloOff offset buf (List.range (clip len size offset).toNat) ⟨io, some []⟩ >>=
        fun p => (do
          writeComplete
          return clip len size offset : RtM UInt64) p.2) := by
    simp only [fuseWrite, run_get_bind, hprep]
    rfl
  have hloop := writeLoop_run cloOff offset buf
    (List.range (clip len size offset).toNat) io (l := []) (by simp)
  rw [List.length_nil, Nat.zero_add, List.length_range, List.nil_append] at hloop
  rw [hrun, hloop]
  by_cases h64 : (clip len size offset).toNat ≤ 64
  · rw [if_pos h64, if_pos h64, ok_bind]
    show (writeComplete ⟨io, some _⟩ >>= _) = _
    rw [writeComplete_run]
    cases commitEnts ((List.range (clip len size offset).toNat).map
      (logged cloOff offset buf)) io <;> rfl
  · rw [if_neg h64, if_neg h64, error_bind]

theorem mapM_eq_ok_map {f : ℕ → Except Stop UInt8} {g : ℕ → UInt8} {l : List ℕ} :
    l.mapM f = .ok (l.map g) ↔ ∀ i ∈ l, f i = .ok (g i) := by
  induction l with
  | nil => simp [pure, Except.pure]
  | cons i l ih =>
    rw [List.mapM_cons, List.map_cons, List.forall_mem_cons, ← ih]
    cases f i with
    | error e => simp [bind, Except.bind]
    | ok b =>
      cases l.mapM f with
      | error e => simp [bind, Except.bind]
      | ok bs => simp [bind, Except.bind, pure, Except.pure]

/-- The offsets that the bytes of a request have in the field's address space. -/
def requested (cloOff offset : UInt64) (n : ℕ) : Set UInt64 :=
  {v | ∃ i < n, v = byteAddr cloOff offset i}

theorem fuseRead_run (mode : Mode) (c : Cache) {rt : Rt}
    (hpart : fbn.part rt.io.disk size offset = .ok (some (cloOff, n))) :
    fuseRead mode fbn c size offset rt =
      (readLoop mode cloOff offset (fbn.clo rt.io.disk c cloOff) (List.range n.toNat) rt).map
        fun p => ((n, p.1), p.2) := by
  obtain ⟨len, hprep, rfl⟩ := prepIo_of_part hpart
  simp only [fuseRead, run_get_bind, hprep]
  show (readLoop mode cloOff offset _ _ rt >>= _) = _
  cases readLoop mode cloOff offset (fbn.clo rt.io.disk c cloOff)
    (List.range (clip len size offset).toNat) rt <;> rfl

theorem fuseRead_iff (mode : Mode) {c : Cache} {rt : Rt}
    (hpart : fbn.part rt.io.disk size offset = .ok (some (cloOff, n)))
    (hc : CacheRight (fbn.clo rt.io.disk c cloOff) (requested cloOff offset n.toNat))
    (hrt : rt.io.Coherent) (s : UInt64) (buf : List UInt8) :
    (∃ rt', fuseRead mode fbn c size offset rt = .ok ((s, buf), rt')) ↔
      s = n ∧ (List.range n.toNat).mapM (fun i => byteAt mode rt.io.disk
        (direct (fbn.clo rt.io.disk c cloOff)) (byteAddr cloOff offset i)) = .ok buf := by
  have hloop := (readLoop_refines mode cloOff offset (List.range n.toNat) hc
    fun i hi => ⟨i, List.mem_range.mp hi, rfl⟩).exists_run_iff (s := rt) ⟨rfl, hrt⟩ buf
  rw [← hloop, fuseRead_run mode c hpart]
  cases readLoop mode cloOff offset (fbn.clo rt.io.disk c cloOff) (List.range n.toNat) rt with
  | error e => simp [Except.map]
  | ok p =>
    constructor
    · rintro ⟨rt', h⟩
      cases h
      exact ⟨rfl, _, rfl⟩
    · rintro ⟨rfl, rt', h⟩
      cases h
      exact ⟨_, rfl⟩

/-- A request past the end. -/
theorem fuseRead_of_part_none (mode : Mode) (c : Cache) (rt : Rt)
    (hpart : fbn.part rt.io.disk size offset = .ok none) :
    fuseRead mode fbn c size offset rt = .ok ((0, []), rt) := by
  simp only [fuseRead, run_get_bind, prepIo_of_part_none hpart]
  rfl

theorem fuseRead_of_part_error (mode : Mode) (c : Cache) (rt : Rt) {e : Stop}
    (hpart : fbn.part rt.io.disk size offset = .error e) :
    fuseRead mode fbn c size offset rt = .error e := by
  simp only [fuseRead, run_get_bind, prepIo_of_part_error hpart]
  rfl

theorem fuseWrite_of_part_none {io : Io} (hpart : fbn.part io.disk size offset = .ok none)
    (buf : ℕ → UInt8) : fuseWrite fbn buf size offset ⟨io, none⟩ = .ok (0, ⟨io, none⟩) := by
  simp only [fuseWrite, run_get_bind, prepIo_of_part_none hpart]
  rfl

theorem fuseWrite_of_part_error {io : Io} {e : Stop}
    (hpart : fbn.part io.disk size offset = .error e) (buf : ℕ → UInt8) :
    fuseWrite fbn buf size offset ⟨io, none⟩ = .error e := by
  simp only [fuseWrite, run_get_bind, prepIo_of_part_error hpart]
  rfl

end Request

theorem diskWrite_byte {d d' : Disk} {off val : ℕ} (h : diskWrite off val 8 d = .ok d') :
    off % 8 = 0 ∧ off + 8 ≤ 8 * d'.size := by
  have h8 : ¬ 8 = 1 := by decide
  rw [diskWrite, if_neg h8] at h
  by_cases hal : off % 8 = 0
  · rw [fslAssert_of hal, fslAssert_of (by decide)] at h
    have hsize := Disk.size_pwrite (show d.pwrite (valBytes val 8) (off / 8) = .ok d' from h)
    have hne : ¬ valBytes val 8 = [] := by
      rw [← List.length_eq_zero_iff, length_valBytes]
      decide
    rw [if_neg hne, length_valBytes] at hsize
    omega
  · rw [fslAssert_of_not hal] at h
    cases h

/-- A log of bytes that was committed had them at byte boundaries, and they are on the disk now. -/
theorem of_commitEnts {io io' : Io} (hc : io.Coherent) {l : List WlogEnt}
    (hl : ∀ we ∈ l, we.bits = 8) (h : commitEnts l io = .ok ((), io')) :
    io.disk.size ≤ io'.disk.size ∧
      ∀ we ∈ l, we.bitAddr.toNat % 8 = 0 ∧ we.bitAddr.toNat + 8 ≤ 8 * io'.disk.size := by
  induction l generalizing io with
  | nil =>
    cases h
    exact ⟨le_rfl, by simp⟩
  | cons we l ih =>
    obtain ⟨hwe, hrest⟩ := List.forall_mem_cons.mp hl
    have hrun : commitEnts (we :: l) io =
        (ioWrite we.bitAddr.toNat we.val.toNat we.bits io >>= fun p => commitEnts l p.2) := rfl
    rw [hrun] at h
    cases hw : ioWrite we.bitAddr.toNat we.val.toNat we.bits io with
    | error e =>
      rw [hw] at h
      cases h
    | ok p =>
      obtain ⟨⟨⟩, io1⟩ := p
      rw [hw] at h
      obtain ⟨_, d1, hd, -, hio1, hc1⟩ :=
        (ioWrite_simulates we.val.toNat we.bitAddr.toNat_lt).run_ok (t := io.disk) ⟨rfl, hc⟩ hw
      have hbyte : diskWrite we.bitAddr.toNat we.val.toNat 8 io.disk = .ok d1 := by
        rw [← hwe]
        unfold update at hd
        cases hdw : diskWrite we.bitAddr.toNat we.val.toNat we.bits io.disk with
        | error e =>
          rw [hdw] at hd
          cases hd
        | ok d2 =>
          rw [hdw] at hd
          cases hd
          rfl
      obtain ⟨hsize, hall⟩ := ih hc1 hrest h
      rw [hio1] at hsize
      obtain ⟨hal, hin⟩ := diskWrite_byte hbyte
      refine ⟨(size_le_diskWrite hbyte).trans hsize, ?_⟩
      exact List.forall_mem_cons.mpr ⟨⟨hal, by omega⟩, hall⟩

/-! ## The cache of the mapping -/

/-- Each source in the cache of the mapping was looked up over one of the disks `past`. -/
def Node.Cached (fbn : Node) (past : Set Disk) (c : Cache) : Prop :=
  ∀ m, fbn.mapping = some m → ∀ a x, c.find a = some x →
    ∃ d ∈ past, x = bases (m.range d) a

theorem cached_initCache (fbn : Node) (past : Set Disk) (c : Cache) :
    fbn.Cached past (initCache c) := by
  intro m _ a x hfind
  have hnone : (initCache c).find a = none :=
    DirectMapped.find_eq_none_of_foreign (foreign_initCache c) a
  rw [hnone] at hfind
  cases hfind

/-- A translation over the disk `d` looks up at most one source, over `d`. -/
theorem Node.Cached.next {fbn : Node} {past : Set Disk} {c : Cache} (h : fbn.Cached past c) {d : Disk}
    {cloOff v a : UInt64} {clo : Closure}
    (hrun : tiPhysOffset (fbn.clo d c cloOff) v = .ok (a, clo)) :
    ∃ c', clo = fbn.clo d c' cloOff ∧ fbn.Cached (insert d past) c' := by
  cases hm : fbn.mapping with
  | none =>
    refine ⟨c, ?_, fun m hm' => by simp [hm] at hm'⟩
    rw [tiPhysOffset, Node.clo, hm] at hrun
    cases hrun
    rw [Node.clo, hm]
  | some m =>
    have hxlate : (fbn.clo d c cloOff).xlate = some (⟨m.geom, m.range d⟩, c) := by
      rw [Node.clo, hm]
      rfl
    rw [tiPhysOffset_of_some hxlate] at hrun
    cases hx : xlate (m.range d) m.geom c v with
    | error e =>
      rw [hx] at hrun
      cases hrun
    | ok p =>
      rw [hx] at hrun
      cases hrun
      refine ⟨p.2, by simp [Node.clo, hm], ?_⟩
      intro m' hm' b x hfind
      rw [hm] at hm'
      cases hm'
      rcases cache_of_xlate (show xlate (m.range d) m.geom c v = .ok (p.1, p.2) from hx) with
        hsame | ⟨b', hput⟩
      · rw [hsame] at hfind
        obtain ⟨d', hd', hx'⟩ := h m hm b x hfind
        exact ⟨d', Set.mem_insert_of_mem d hd', hx'⟩
      · rw [hput] at hfind
        rcases DirectMapped.of_find_put hfind with ⟨rfl, rfl⟩ | hold
        · exact ⟨d, Set.mem_insert d past, rfl⟩
        · obtain ⟨d', hd', hx'⟩ := h m hm b x hold
          exact ⟨d', Set.mem_insert_of_mem d hd', hx'⟩

/-- A translation over the disk `d`, without a cache. -/
def Node.phys (fbn : Node) (d : Disk) (v : UInt64) : Except Stop UInt64 :=
  match fbn.mapping with
  | none => .ok v
  | some m => lookup ⟨m.geom, m.range d⟩ v

theorem Node.direct_clo (fbn : Node) (d : Disk) (c : Cache) (cloOff v : UInt64) :
    direct (fbn.clo d c cloOff) v = fbn.phys d v := by
  cases hm : fbn.mapping <;> simp [direct, Node.clo, Node.phys, hm]

/-- The offset of the source that an offset of the mapping is in, over the disk `d`. -/
def Mapping.source (m : Mapping) (d : Disk) (v : UInt64) : UInt64 :=
  (m.range d (narrow (m.geom.index v))).off

theorem Node.phys_congr {fbn : Node} {d d' : Disk} {v : UInt64}
    (h : ∀ m, fbn.mapping = some m → m.source d' v = m.source d v) : fbn.phys d' v = fbn.phys d v := by
  cases hm : fbn.mapping with
  | none => simp [Node.phys, hm]
  | some m =>
    have hsrc : (m.range d' (narrow (m.geom.index v))).off =
        (m.range d (narrow (m.geom.index v))).off := h m hm
    simp only [Node.phys, hm, lookup, addressInt, address, hsrc]

/-- Where the sources have been the same over all the disks, the cache is right. -/
theorem Node.Cached.right {fbn : Node} {past : Set Disk} {c : Cache} (h : fbn.Cached past c) {d : Disk}
    (cloOff : UInt64) {V : Set UInt64}
    (hsame : ∀ m, fbn.mapping = some m → ∀ d' ∈ past, ∀ v ∈ V, m.source d' v = m.source d v) :
    CacheRight (fbn.clo d c cloOff) V := by
  intro l c' hx
  cases hm : fbn.mapping with
  | none => simp [Node.clo, hm] at hx
  | some m =>
    have hl : l = ⟨m.geom, m.range d⟩ ∧ c' = c := by
      simp only [Node.clo, hm, Option.map_some, Option.some.injEq, Prod.mk.injEq] at hx
      exact ⟨hx.1.symm, hx.2.symm⟩
    obtain ⟨rfl, rfl⟩ := hl
    refine ⟨_, DirectMapped.homed_getD c' (bases (m.range d)), fun v hv => ?_⟩
    have hbase : bases (m.range d) (narrow (m.geom.index v)).toNat = m.source d v := bases_ofInt _ _
    show (c'.find _).getD _ = m.source d v
    cases hfind : c'.find (narrow (m.geom.index v)).toNat with
    | none => exact hbase
    | some x =>
      obtain ⟨d', hd', rfl⟩ := h m hm _ x hfind
      rw [← hsame m hm d' hd' v hv]
      exact bases_ofInt _ _

/-! ## Writing, then reading -/

/-- The disk that a request leaves. -/
def written (d : Disk) (cloOff offset : UInt64) (buf : ℕ → UInt8) (n : ℕ) : Disk :=
  d.applyAll ((List.range n).map (logged cloOff offset buf))

/-- Whatever is written, the same request reads it back, from every cache that the disks since the file
was opened can have led to, and no other bit of the disk changes. -/
def WritesBack (mode : Mode) (fbn : Node) (past : Set Disk) (io : Io) (size offset : UInt64) : Prop :=
  ∀ buf : ℕ → UInt8, ∃ s rt, fuseWrite fbn buf size offset ⟨io, none⟩ = .ok (s, rt) ∧
    (∀ c, fbn.Cached (insert rt.io.disk past) c → ∃ rt',
      fuseRead mode fbn c size offset rt = .ok ((s, (List.range s.toNat).map buf), rt')) ∧
    rt.io.disk.size = io.disk.size ∧
    ∀ k, (∀ cloOff n, fbn.part io.disk size offset = .ok (some (cloOff, n)) →
        ∀ i < n.toNat, ∀ a, fbn.phys io.disk (byteAddr cloOff offset i) = .ok a →
          ¬ (a.toNat ≤ k ∧ k < a.toNat + 8)) →
      rt.io.disk.bit k = io.disk.bit k

/-- Neither the field nor the sources of the request's bytes move: the field is where it was after every
such request, and the sources are those of every disk since the file was opened. -/
structure Node.Unmoved (fbn : Node) (past : Set Disk) (d : Disk) (cloOff offset : UInt64) (n : ℕ) :
    Prop where
  offset_eq : ∀ buf, fbn.offset (written d cloOff offset buf n) = fbn.offset d
  source_eq : ∀ m, fbn.mapping = some m → ∀ d' ∈ past ∪ Set.range (written d cloOff offset · n),
    ∀ i < n, m.source d' (byteAddr cloOff offset i) = m.source d (byteAddr cloOff offset i)

/-- The bytes of a request that reads and writes agree on: there is room for them in the log, writing
them changes nothing of how many of them lie in the file, and each is translated to where it is. -/
structure Agrees (fbn : Node) (d : Disk) (cloOff size offset n : UInt64) : Prop where
  fits : n.toNat ≤ 64
  part_eq : ∀ buf, fbn.part (written d cloOff offset buf n.toNat) size offset =
    .ok (some (cloOff, n))
  aligned : ∀ i < n.toNat, (byteAddr cloOff offset i).toNat % 8 = 0
  phys_eq : ∀ i < n.toNat, fbn.phys d (byteAddr cloOff offset i) = .ok (byteAddr cloOff offset i)
  line : ∀ i < n.toNat, 32 * ((byteAddr cloOff offset i).toNat / 256 + 1) ≤ d.size

section WritesBack

variable {mode : Mode} {fbn : Node} {past : Set Disk} {io : Io} {cloOff size offset n : UInt64}

theorem fits_logged (buf : ℕ → UInt8) {n size : ℕ} {cloOff : UInt64}
    (h : ∀ i < n, (byteAddr cloOff offset i).toNat % 8 = 0 ∧
      (byteAddr cloOff offset i).toNat + 8 ≤ 8 * size) :
    ∀ we ∈ (List.range n).map (logged cloOff offset buf), we.Fits size := by
  intro we hwe
  obtain ⟨i, hi, rfl⟩ := List.mem_map.mp hwe
  obtain ⟨hal, hin⟩ := h i (List.mem_range.mp hi)
  have hbits : (logged cloOff offset buf i).bits = 8 := rfl
  refine ⟨.inr ⟨hal, ?_⟩, hin, ?_⟩
  · rw [hbits]
    decide
  · rw [hbits]
    exact fun h1 => absurd h1 (by decide)

/-- The bits of a byte that was written. -/
theorem bit_written {d : Disk} {buf : ℕ → UInt8} {n i j : ℕ} {cloOff : UInt64} (hn : n ≤ 2 ^ 61)
    (h : ∀ i < n, (byteAddr cloOff offset i).toNat % 8 = 0 ∧
      (byteAddr cloOff offset i).toNat + 8 ≤ 8 * d.size) (hi : i < n) (hj : j < 8) :
    (d.applyAll ((List.range n).map (logged cloOff offset buf))).bit
      ((byteAddr cloOff offset i).toNat + j) = (buf i).toNat.testBit j := by
  have hin := (h i hi).2
  have hmem : logged cloOff offset buf i ∈ (List.range n).map (logged cloOff offset buf) :=
    List.mem_map_of_mem (List.mem_range.mpr hi)
  have hbit := Disk.bit_applyAll_of_mem (d := d) (k := (byteAddr cloOff offset i).toNat + j)
    (pairwise_logged hn fun i hi => (h i hi).1) hmem (by omega) (Nat.le_add_right _ j)
    (Nat.add_lt_add_left hj _)
  have haddr : (logged cloOff offset buf i).bitAddr = byteAddr cloOff offset i := rfl
  rw [hbit, haddr, Nat.add_sub_cancel_left]
  exact testBit_charVal _ hj

theorem bit_not_written {d : Disk} {buf : ℕ → UInt8} {n k : ℕ} {cloOff : UInt64}
    (h : ∀ i < n, ¬ ((byteAddr cloOff offset i).toNat ≤ k ∧
      k < (byteAddr cloOff offset i).toNat + 8)) :
    (d.applyAll ((List.range n).map (logged cloOff offset buf))).bit k = d.bit k := by
  by_cases hk : k < 8 * d.size
  · refine Disk.bit_applyAll_of_not_mem hk fun we hwe => ?_
    obtain ⟨i, hi, rfl⟩ := List.mem_map.mp hwe
    exact h i (List.mem_range.mp hi)
  · rw [Disk.bit, Disk.bit, bitOf, bitOf, d.byte_eq_zero (k / 8) (by omega),
      Disk.byte_eq_zero _ (k / 8) (by rw [Disk.size_applyAll]; omega)]

theorem ofNat_num_toUInt8 {d : Disk} {off : ℕ} {c : UInt8}
    (h : ∀ j < 8, d.bit (off + j) = c.toNat.testBit j) :
    (UInt64.ofNat (d.num off 8)).toUInt8 = c := by
  have hnum : d.num off 8 = c.toNat := by
    symm
    refine eq_ofBits fun j => ?_
    by_cases hj : j < 8
    · simp [hj, h j hj]
    · have hpow : 2 ^ 8 ≤ 2 ^ j := Nat.pow_le_pow_right (by omega) (by omega)
      simp [hj, Nat.testBit_lt_two_pow (lt_of_lt_of_le c.toNat_lt hpow)]
  rw [hnum]
  refine UInt8.toNat_inj.mp ?_
  simp

theorem Node.Unmoved.phys_eq {d : Disk} {m : ℕ} (h : fbn.Unmoved past d cloOff offset m)
    (buf : ℕ → UInt8) {i : ℕ} (hi : i < m) :
    fbn.phys (written d cloOff offset buf m) (byteAddr cloOff offset i) =
      fbn.phys d (byteAddr cloOff offset i) :=
  Node.phys_congr fun mp hm => h.source_eq mp hm _ (.inr ⟨buf, rfl⟩) i hi

/-- At the time of the read the cache is right for the bytes of the request. -/
theorem Node.Unmoved.right {d : Disk} {m : ℕ} (h : fbn.Unmoved past d cloOff offset m)
    (buf : ℕ → UInt8) {c : Cache} (hc : fbn.Cached (insert (written d cloOff offset buf m) past) c) :
    CacheRight (fbn.clo (written d cloOff offset buf m) c cloOff) (requested cloOff offset m) := by
  refine hc.right cloOff fun mp hm d' hd' v hv => ?_
  obtain ⟨i, hi, rfl⟩ := hv
  have hwritten := h.source_eq mp hm _ (.inr ⟨buf, rfl⟩) i hi
  rw [hwritten]
  rcases hd' with rfl | hpast
  · exact hwritten
  · exact h.source_eq mp hm d' (.inl hpast) i hi

/-- What the same request reads afterwards, byte by byte. -/
theorem Node.Unmoved.fuseRead_iff (h : fbn.Unmoved past io.disk cloOff offset n.toNat)
    (buf : ℕ → UInt8) {io' : Io} (hdisk : io'.disk = written io.disk cloOff offset buf n.toNat)
    (hc' : io'.Coherent) {c : Cache} (hc : fbn.Cached (insert io'.disk past) c)
    (hpart : fbn.part io'.disk size offset = .ok (some (cloOff, n))) :
    (∃ rt', fuseRead mode fbn c size offset ⟨io', none⟩ =
        .ok ((n, (List.range n.toNat).map buf), rt')) ↔
      ∀ i < n.toNat, byteAt mode io'.disk (fbn.phys io.disk) (byteAddr cloOff offset i) =
        .ok (buf i) := by
  have hright : CacheRight (fbn.clo io'.disk c cloOff) (requested cloOff offset n.toNat) := by
    rw [hdisk] at hc ⊢
    exact h.right buf hc
  have hbyte : ∀ i < n.toNat,
      byteAt mode io'.disk (direct (fbn.clo io'.disk c cloOff)) (byteAddr cloOff offset i) =
        byteAt mode io'.disk (fbn.phys io.disk) (byteAddr cloOff offset i) := by
    intro i hi
    have hphys := h.phys_eq buf hi
    rw [← hdisk] at hphys
    rw [byteAt, byteAt, Node.direct_clo, hphys]
  rw [Fuse.fuseRead_iff mode hpart hright (show (Rt.mk io' none).io.Coherent from hc'),
    and_iff_right rfl, mapM_eq_ok_map]
  constructor
  · intro hall i hi
    rw [← hbyte i hi]
    exact hall i (List.mem_range.mpr hi)
  · intro hall i hi
    have hi' := List.mem_range.mp hi
    exact (hbyte i hi').trans (hall i hi')

theorem writesBack_of_agrees (hc : io.Coherent)
    (hpart : fbn.part io.disk size offset = .ok (some (cloOff, n)))
    (hun : fbn.Unmoved past io.disk cloOff offset n.toNat)
    (h : Agrees fbn io.disk cloOff size offset n) : WritesBack mode fbn past io size offset := by
  intro buf
  have h64 := h.fits
  have hin : ∀ i < n.toNat, (byteAddr cloOff offset i).toNat % 8 = 0 ∧
      (byteAddr cloOff offset i).toNat + 8 ≤ 8 * io.disk.size := by
    intro i hi
    have hal := h.aligned i hi
    have hline := h.line i hi
    omega
  obtain ⟨io', hcommit, hdisk, hc'⟩ := commitEnts_ok hc (fits_logged buf hin)
  have hsize : io'.disk.size = io.disk.size := by rw [hdisk, Disk.size_applyAll]
  have hread : ∀ i < n.toNat, byteAt mode io'.disk (fbn.phys io.disk) (byteAddr cloOff offset i) =
      .ok (buf i) := by
    intro i hi
    have hal := h.aligned i hi
    have hline := h.line i hi
    have hfull : Full io'.disk (byteAddr cloOff offset i).toNat 8 := by
      unfold Full
      omega
    rw [byteAt, h.phys_eq i hi, ok_bind, diskPhys_byte mode hal hfull, ok_bind]
    refine congrArg Except.ok (ofNat_num_toUInt8 fun j hj => ?_)
    rw [hdisk]
    exact bit_written (by omega) hin hi hj
  refine ⟨n, ⟨io', none⟩, ?_, fun c hcached => ?_, hsize, fun k hk => ?_⟩
  · rw [fuseWrite_eq hpart, if_pos h64, hcommit]
    rfl
  · have hpart' : fbn.part io'.disk size offset = .ok (some (cloOff, n)) := by
      rw [hdisk]
      exact h.part_eq buf
    exact (hun.fuseRead_iff buf hdisk hc' hcached hpart').mpr hread
  · show io'.disk.bit k = io.disk.bit k
    rw [hdisk]
    exact bit_not_written fun i hi => hk cloOff n hpart i hi _ (h.phys_eq i hi)

/-- A request that read as many bytes as it wrote found the file as it was. -/
theorem Node.Unmoved.part_of_read (hun : fbn.Unmoved past io.disk cloOff offset n.toNat)
    (hpart : fbn.part io.disk size offset = .ok (some (cloOff, n))) (buf : ℕ → UInt8) {io' : Io}
    (hdisk : io'.disk = written io.disk cloOff offset buf n.toNat) {c : Cache} {l : List UInt8}
    {rt' : Rt} (hread : fuseRead mode fbn c size offset ⟨io', none⟩ = .ok ((n, l), rt')) :
    fbn.part io'.disk size offset = .ok (some (cloOff, n)) := by
  by_cases hn : n = 0
  · -- nothing was written
    subst hn
    rw [hdisk]
    exact hpart
  cases hp : fbn.part io'.disk size offset with
  | error e =>
    rw [fuseRead_of_part_error mode c ⟨io', none⟩ hp] at hread
    cases hread
  | ok o =>
    cases o with
    | none =>
      rw [fuseRead_of_part_none mode c ⟨io', none⟩ hp] at hread
      cases hread
      exact absurd rfl hn
    | some q =>
      obtain ⟨cloOff', n'⟩ := q
      have hoff : cloOff' = cloOff := by
        have hmoved := hun.offset_eq buf
        rw [← hdisk, offset_of_part hp, offset_of_part hpart] at hmoved
        cases hmoved
        rfl
      rw [fuseRead_run mode c (show fbn.part (Rt.mk io' none).io.disk size offset = _ from hp)]
        at hread
      cases hloop : readLoop mode cloOff' offset (fbn.clo io'.disk c cloOff')
          (List.range n'.toNat) ⟨io', none⟩ with
      | error e =>
        rw [hloop] at hread
        cases hread
      | ok r =>
        rw [hloop] at hread
        cases hread
        rw [hoff]

/-- The bytes are logged and lie on the disk, as many of them lie in the file afterwards, and they are
read back from what the log leaves. -/
theorem WritesBack.committed (h : WritesBack mode fbn past io size offset) (hc : io.Coherent)
    (hpart : fbn.part io.disk size offset = .ok (some (cloOff, n)))
    (hun : fbn.Unmoved past io.disk cloOff offset n.toNat) (buf : ℕ → UInt8) :
    n.toNat ≤ 64 ∧
      (∀ i < n.toNat, (byteAddr cloOff offset i).toNat % 8 = 0 ∧
        (byteAddr cloOff offset i).toNat + 8 ≤ 8 * io.disk.size) ∧
      fbn.part (written io.disk cloOff offset buf n.toNat) size offset = .ok (some (cloOff, n)) ∧
      ∀ i < n.toNat, byteAt mode (written io.disk cloOff offset buf n.toNat) (fbn.phys io.disk)
        (byteAddr cloOff offset i) = .ok (buf i) := by
  obtain ⟨s, rt, hwrite, hread, hsize, -⟩ := h buf
  rw [fuseWrite_eq hpart] at hwrite
  split at hwrite
  next h64 =>
    cases hcommit : commitEnts ((List.range n.toNat).map (logged cloOff offset buf)) io with
    | error e =>
      rw [hcommit] at hwrite
      cases hwrite
    | ok p =>
      obtain ⟨⟨⟩, io'⟩ := p
      rw [hcommit] at hwrite
      cases hwrite
      obtain ⟨-, hents⟩ := of_commitEnts hc (by simp [logged, writeVal]) hcommit
      have hin : ∀ i < n.toNat, (byteAddr cloOff offset i).toNat % 8 = 0 ∧
          (byteAddr cloOff offset i).toNat + 8 ≤ 8 * io.disk.size := by
        intro i hi
        rw [← hsize]
        exact hents _ (List.mem_map_of_mem (List.mem_range.mpr hi))
      obtain ⟨io'', hcommit', hdisk, hc'⟩ := commitEnts_ok hc (fits_logged buf hin)
      rw [hcommit] at hcommit'
      cases hcommit'
      have hcached := cached_initCache fbn (insert io'.disk past) fun _ => ⟨0, 0⟩
      obtain ⟨rt', hread⟩ := hread _ hcached
      have hpart' := hun.part_of_read hpart buf hdisk hread
      have hall := (hun.fuseRead_iff buf hdisk hc' hcached hpart').mp ⟨rt', hread⟩
      rw [hdisk] at hpart' hall
      exact ⟨h64, hin, hpart', hall⟩
  next => cases hwrite

/-- A byte that can be read. -/
theorem of_byteAt {phys : UInt64 → Except Stop UInt64} {d : Disk} {v : UInt64} {c : UInt8}
    (h : byteAt mode d phys v = .ok c) :
    ∃ a, phys v = .ok a ∧ Full d a.toNat 8 ∧
      d.bit (lowBit mode a.toNat) = c.toNat.testBit 0 := by
  obtain ⟨a, ha, hrest⟩ := bind_eq_ok h
  obtain ⟨b, hb, hret⟩ := bind_eq_ok hrest
  cases hret
  obtain ⟨hfull, hbit⟩ := full_of_diskPhys hb
  refine ⟨a, ha, hfull, ?_⟩
  rw [← hbit]
  simp [Nat.testBit_zero]

/-- A bit that changes when the lowest bit of byte `i` is written is this bit. -/
theorem eq_byteAddr_of_written {d : Disk} {i m k : ℕ} (hm : m ≤ 2 ^ 61)
    (hin : ∀ i < m, (byteAddr cloOff offset i).toNat % 8 = 0 ∧
      (byteAddr cloOff offset i).toNat + 8 ≤ 8 * d.size) (hi : i < m)
    (h0 : (written d cloOff offset (fun _ => 0) m).bit k = false)
    (h1 : (written d cloOff offset (fun j => if j = i then 1 else 0) m).bit k = true) :
    k = (byteAddr cloOff offset i).toNat := by
  by_contra hne
  by_cases hcov : ∃ j < m, (byteAddr cloOff offset j).toNat ≤ k ∧
      k < (byteAddr cloOff offset j).toNat + 8
  · obtain ⟨j, hj, hle, hlt⟩ := hcov
    obtain ⟨b, rfl⟩ := Nat.exists_eq_add_of_le hle
    rw [written, bit_written hm hin hj (by omega)] at h1
    by_cases hji : j = i
    · subst hji
      have hb0 : b ≠ 0 := by
        rintro rfl
        exact hne rfl
      rw [if_pos rfl] at h1
      exact hb0 (Nat.testBit_one_eq_true_iff_self_eq_zero.mp h1)
    · simp [hji] at h1
  · have hnot : ∀ j < m, ¬ ((byteAddr cloOff offset j).toNat ≤ k ∧
        k < (byteAddr cloOff offset j).toNat + 8) := fun j hj hcv => hcov ⟨j, hj, hcv⟩
    rw [written, bit_not_written hnot] at h0 h1
    simp [h0] at h1

theorem agrees_of_writesBack (h : WritesBack mode fbn past io size offset) (hc : io.Coherent)
    (hpart : fbn.part io.disk size offset = .ok (some (cloOff, n)))
    (hun : fbn.Unmoved past io.disk cloOff offset n.toNat) :
    Agrees fbn io.disk cloOff size offset n := by
  have hback := fun buf => (h.committed hc hpart hun buf).2.2.2
  obtain ⟨h64, hin, -⟩ := h.committed hc hpart hun fun _ => 0
  have hplace : ∀ i < n.toNat, fbn.phys io.disk (byteAddr cloOff offset i) =
      .ok (byteAddr cloOff offset i) ∧
        32 * ((byteAddr cloOff offset i).toNat / 256 + 1) ≤ io.disk.size := by
    intro i hi
    -- two buffers that differ in one bit of byte `i`
    obtain ⟨a, hphys, hfull, hbit0⟩ := of_byteAt (hback (fun _ => 0) i hi)
    obtain ⟨_, hphys', -, hbit1⟩ := of_byteAt (hback (fun j => if j = i then 1 else 0) i hi)
    rw [hphys] at hphys'
    cases hphys'
    have hlow := eq_byteAddr_of_written (by omega) hin hi (by simpa using hbit0)
      (by simpa using hbit1)
    have ha : a = byteAddr cloOff offset i :=
      UInt64.toNat_inj.mp (eq_of_lowBit (hin i hi).1 hlow)
    subst ha
    refine ⟨hphys, ?_⟩
    unfold Full at hfull
    rw [written, Disk.size_applyAll] at hfull
    have hal := (hin i hi).1
    omega
  exact ⟨h64, fun buf => (h.committed hc hpart hun buf).2.2.1, fun i hi => (hin i hi).1,
    fun i hi => (hplace i hi).1, fun i hi => (hplace i hi).2⟩

/-- Past the end of the file there is nothing to write and nothing to read. -/
theorem writesBack_of_part_none (h : fbn.part io.disk size offset = .ok none) :
    WritesBack mode fbn past io size offset := by
  intro buf
  refine ⟨0, ⟨io, none⟩, fuseWrite_of_part_none h buf, fun c _ => ?_, rfl, fun k _ => rfl⟩
  exact ⟨_, fuseRead_of_part_none mode c ⟨io, none⟩ h⟩

/-- A request that moves neither the field nor the sources of its bytes reads back what it wrote exactly
if it starts past the end of the file, or if the field can be followed, the request has at most 64 bytes
in the file and as many after the write, and each of these lies at a byte boundary of the disk in a line
that the disk has in full, and is translated to where it is. -/
theorem writesBack_iff (mode : Mode) (fbn : Node) (past : Set Disk) (size offset : UInt64)
    (hio : io.Reachable) (hun : ∀ cloOff n, fbn.part io.disk size offset = .ok (some (cloOff, n)) →
      fbn.Unmoved past io.disk cloOff offset n.toNat) :
    WritesBack mode fbn past io size offset ↔
      fbn.part io.disk size offset = .ok none ∨
        ∃ cloOff n, fbn.part io.disk size offset = .ok (some (cloOff, n)) ∧
          Agrees fbn io.disk cloOff size offset n := by
  have hc := hio.coherent
  constructor
  · intro h
    cases hpart : fbn.part io.disk size offset with
    | error e =>
      obtain ⟨s, rt, hwrite, -⟩ := h fun _ => 0
      rw [fuseWrite_of_part_error hpart] at hwrite
      cases hwrite
    | ok o =>
      cases o with
      | none => exact .inl rfl
      | some p => exact .inr ⟨p.1, p.2, rfl, agrees_of_writesBack h hc hpart (hun _ _ hpart)⟩
  · rintro (hpart | ⟨cloOff, n, hpart, hagrees⟩)
    · exact writesBack_of_part_none hpart
    · exact writesBack_of_agrees hc hpart (hun _ _ hpart) hagrees

end WritesBack

/-- A field whose size and place do not depend on the disk. -/
def fixed (bits cloOff : UInt64) (mapping : Option Mapping) : Node :=
  ⟨fun _ => .ok bits, fun _ => .ok (some cloOff), mapping⟩

/-- A field on the disk itself does not move if its size and its place do not depend on the disk. -/
theorem unmoved_fixed (past : Set Disk) (d : Disk) (bits cloOff offset : UInt64) (n : ℕ) :
    (fixed bits cloOff none).Unmoved past d cloOff offset n where
  offset_eq _ := rfl
  source_eq m hm := by cases hm

/-- The runtime after it opened two lines of zeros. -/
def zeros : Io := ⟨twoLines, ioCacheInit fun _ _ => 0⟩

/-- A field of two bytes on the disk itself. -/
theorem writesBack_word : WritesBack .little (fixed 16 256 none) {twoLines} zeros 2 0 := by
  have hpart : ∀ d, (fixed 16 256 none).part d 2 0 = .ok (some (256, 2)) := fun _ => rfl
  refine (writesBack_iff .little _ _ 2 0 (reachable_init _ _) ?_).mpr (.inr ⟨256, 2, hpart _, ?_⟩)
  · intro cloOff n h
    rw [hpart] at h
    cases h
    exact unmoved_fixed _ _ 16 256 0 _
  · constructor
    · decide
    · exact fun buf => hpart _
    all_goals
      intro i hi
      have hi2 : i < 2 := hi
      interval_cases i <;> decide

/-- A byte of a virtual type whose only block is the second line of the disk: it is written to the
first line. -/
theorem not_writesBack_virt :
    ¬ WritesBack .little (fixed 8 0 (some ⟨⟨0, 0, 64⟩, fun _ _ => ⟨256, false⟩⟩)) {twoLines} zeros
      1 0 := by
  intro h
  have hpart : (fixed 8 0 (some ⟨⟨0, 0, 64⟩, fun _ _ => ⟨256, false⟩⟩)).part zeros.disk 1 0 =
      .ok (some (0, 1)) := rfl
  have hagrees := agrees_of_writesBack h (reachable_init _ _).coherent hpart
    ⟨fun _ => rfl, fun m hm _ _ _ _ => by cases hm; rfl⟩
  have hphys : lookup ⟨⟨0, 0, 64⟩, fun _ => ⟨256, false⟩⟩ 0 = .ok 0 := hagrees.phys_eq 0 (by decide)
  rw [lookup, fslAssert_of (by decide), fslAssert_of (by decide), ok_bind, ok_bind,
    addressInt_of_fits (by decide)] at hphys
  exact absurd hphys (by decide)

end Fsl.Fuse
