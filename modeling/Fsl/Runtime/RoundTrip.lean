import Fsl.Runtime.BigEndian
import Fsl.Runtime.Fields

/-!
# Reading what was written

A field is written through the log and read back. Writing puts the bytes of the value least
significant first, in either mode, and takes single bits or whole bytes only; so reading gives the
value back for those, in little-endian mode, and in big-endian mode for few values.
-/

namespace Fsl

open BitNum Pread

/-- Start the log, `__writeVal`, commit, then `__getLocalPhys`. -/
def writeThenRead (mode : Mode) (loc width v : UInt64) : RtM ℕ := do
  wlogStart
  wlogAdd (writeVal loc width v)
  wlogCommit
  onIo (getLocalPhys mode loc.toNat width.toNat)

/-- Nothing stops, the value comes back, and the other bits of the disk are as they were. -/
def ReadsBack (mode : Mode) (rt : Rt) (loc width v : UInt64) : Prop :=
  ∃ rt', writeThenRead mode loc width v rt = .ok (v.toNat % 2 ^ width.toNat, rt') ∧
    rt'.io.disk.size = rt.io.disk.size ∧
    ∀ k, ¬ (loc.toNat ≤ k ∧ k < loc.toNat + width.toNat) → rt'.io.disk.bit k = rt.io.disk.bit k

/-- The field is a single bit or whole bytes, and the file holds its last line. In big-endian mode
it is a bit at a byte boundary, or the last bit of a byte whose first bit has the value already, or
bytes of a width that can be swapped and that read the same from both ends. -/
def Undone (mode : Mode) (d : Disk) (loc n v : ℕ) : Prop :=
  WriteWidth loc n ∧ Full d loc n ∧ (mode = .big →
    n = 1 ∧ loc % 8 = 0 ∨
    n = 1 ∧ loc % 8 = 7 ∧ d.bit (8 * (loc / 8)) = v.testBit 0 ∨
    n ≠ 1 ∧ SwapWidth (n / 8) ∧ bswap (n / 8) (v % 2 ^ n) = v % 2 ^ n)

variable {d : Disk} {loc n v : ℕ}

/-! ## On the file -/

/-- A field on the disk is written exactly when it is a bit in a complete line, or whole bytes. -/
theorem diskWrite_iff {d' : Disk} (h1 : 1 ≤ n) (h64 : n ≤ 64) (hin : loc + n ≤ 8 * d.size) :
    diskWrite loc v n d = .ok d' ↔
      WriteWidth loc n ∧ (n = 1 → Full d loc n) ∧ d' = d.setField loc v n := by
  by_cases hw : WriteWidth loc n
  · by_cases hline : n = 1 → Full d loc n
    · have hline' : n = 1 → 32 * (loc / 256 + 1) ≤ d.size := by
        intro hn
        have hfull := hline hn
        rwa [hn, Full, Nat.add_sub_cancel] at hfull
      obtain ⟨e, he, hsize⟩ := diskWrite_of_le d v hw hin hline'
      have heq : e = d.setField loc v n := by
        refine Disk.ext_bit hsize fun k hk => ?_
        rw [bit_diskWrite hw he, Disk.bit_setField _ _ _ _ (hsize ▸ hk)]
      rw [he, heq]
      constructor
      · intro h
        exact ⟨hw, hline, (Except.ok.inj h).symm⟩
      · rintro ⟨-, -, rfl⟩
        rfl
    · -- the line of the bit is read before it is written
      obtain ⟨hn, hfull⟩ : n = 1 ∧ ¬ Full d loc n := by
        simpa only [Classical.not_imp] using hline
      subst hn
      have hbyte : ¬ Full d (loc - loc % 8) 8 := by
        simp only [Full] at hfull ⊢
        omega
      rw [diskWrite, if_pos rfl, cacheGet_stops hbyte]
      constructor
      · intro h
        cases h
      · rintro ⟨-, hfull', -⟩
        exact absurd (hfull' rfl) hfull
  · have hn : n ≠ 1 := fun h => hw (Or.inl h)
    have hstop : diskWrite loc v n d = .error .assertion := by
      rw [diskWrite, if_neg hn]
      by_cases hal : loc % 8 = 0
      · have hb : ¬ n % 8 = 0 := fun hb => hw (Or.inr ⟨hal, hb, by omega, h64⟩)
        rw [fslAssert_of hal, fslAssert_of_not hb]
        rfl
      · rw [fslAssert_of_not hal]
        rfl
    rw [hstop]
    constructor
    · intro h
      cases h
    · rintro ⟨hw', -, -⟩
      exact absurd hw' hw

theorem full_of_diskPhys_bytes {mode : Mode} (hal : loc % 8 = 0) {a : ℕ}
    (h : diskPhys mode d loc n = .ok a) : Full d loc n := by
  by_contra hfull
  rw [diskPhys, physWith_aligned hal, diskAligned_stops hfull] at h
  cases h

/-- In big-endian mode a bit in the last place of its byte is read from the first. -/
theorem beField_last_bit (d : Disk) (h7 : loc % 8 = 7) :
    beField d loc 1 = (d.bit (8 * (loc / 8))).toNat := by
  have hbit : d.beBit loc = d.bit (8 * (loc / 8)) := by
    rw [Disk.beBit, h7]
    rfl
  rw [beField, ofBits_succ, ofBits_zero, Nat.sub_self, Nat.add_zero, Nat.add_zero, hbit, pow_zero,
    one_mul]

theorem toNat_eq_mod_two_iff (b : Bool) (v : ℕ) : b.toNat = v % 2 ^ 1 ↔ b = v.testBit 0 := by
  have hv : v % 2 ^ 1 = (v.testBit 0).toNat := by
    rw [Nat.toNat_testBit, pow_zero, Nat.div_one, pow_one]
  rw [hv]
  generalize v.testBit 0 = c
  constructor
  · intro h
    cases b <;> cases c <;> first | rfl | cases h
  · exact congrArg Bool.toNat

/-- What big-endian mode reads from a bit that was written. -/
theorem diskPhys_big_bit (hfull : Full d loc 1) (hin : loc + 1 ≤ 8 * d.size) :
    diskPhys .big (d.setField loc v 1) loc 1 = .ok (v % 2 ^ 1) ↔
      loc % 8 = 0 ∨ loc % 8 = 7 ∧ d.bit (8 * (loc / 8)) = v.testBit 0 := by
  have hfull' : Full (d.setField loc v 1) loc 1 := hfull
  by_cases h0 : loc % 8 = 0
  · -- at a byte boundary a part of a byte is never swapped
    have hle : diskPhys .big (d.setField loc v 1) loc 1 =
        diskPhys .little (d.setField loc v 1) loc 1 := by
      rw [diskPhys, physWith_aligned h0, diskAligned_big_part (by decide), ← diskAligned_little,
        diskPhys, physWith_aligned h0]
    rw [hle, diskPhys_num (Or.inl rfl), if_pos hfull', Disk.num_setField_self hin]
    exact iff_of_true rfl (Or.inl h0)
  · by_cases h7 : loc % 8 = 7
    · have hshape : BeShape loc 1 := by
        rw [BeShape, if_neg h0, h7]
        decide
      have hother : (d.setField loc v 1).bit (8 * (loc / 8)) = d.bit (8 * (loc / 8)) := by
        have hout : ¬ (loc ≤ 8 * (loc / 8) ∧ 8 * (loc / 8) < loc + 1) := by omega
        rw [Disk.bit_setField _ _ _ _ (by omega), if_neg hout]
      rw [diskPhys_big (by decide) hfull' hshape, beField_last_bit _ h7, hother, Except.ok.injEq,
        toNat_eq_mod_two_iff]
      constructor
      · intro h
        exact Or.inr ⟨h7, h⟩
      · intro h
        exact (h.resolve_left h0).2
    · have hnot : ¬ (Full (d.setField loc v 1) loc 1 ∧ BeShape loc 1) := by
        rintro ⟨-, hshape⟩
        have hzero : (loc % 8 + 1) / 8 = 0 := by omega
        rw [BeShape, if_neg h0, hzero] at hshape
        exact absurd hshape (by decide)
      constructor
      · intro h
        rcases diskPhys_big_of_not le_rfl (by decide) hnot with hstop | ⟨hal, -⟩
        · rw [hstop] at h
          cases h
        · exact absurd hal h0
      · rintro (h | ⟨h, -⟩)
        · exact absurd h h0
        · exact absurd h h7

/-- What big-endian mode reads from bytes that were written. -/
theorem diskPhys_big_bytes (hw : WriteWidth loc n) (hn : n ≠ 1) (hfull : Full d loc n)
    (hin : loc + n ≤ 8 * d.size) :
    diskPhys .big (d.setField loc v n) loc n = .ok (v % 2 ^ n) ↔
      SwapWidth (n / 8) ∧ bswap (n / 8) (v % 2 ^ n) = v % 2 ^ n := by
  obtain ⟨hal, hb, -, h64⟩ := hw.resolve_left hn
  have hfull' : Full (d.setField loc v n) loc n := hfull
  have hread : beField (d.setField loc v n) loc n = bswap (n / 8) (v % 2 ^ n) := by
    obtain ⟨q, rfl⟩ := Nat.dvd_of_mod_eq_zero hal
    obtain ⟨k, rfl⟩ := Nat.dvd_of_mod_eq_zero hb
    rw [Nat.mul_div_cancel_left k (by omega), ← bswap_ofBits, ← Disk.num_setField_self hin]
    rfl
  by_cases hs : SwapWidth (n / 8)
  · have hshape : BeShape loc n := by
      rw [BeShape, if_pos hal]
      exact ⟨hb, hs⟩
    rw [diskPhys_big h64 hfull' hshape, hread, Except.ok.injEq]
    exact (and_iff_right hs).symm
  · have hnot : ¬ (Full (d.setField loc v n) loc n ∧ BeShape loc n) := by
      rintro ⟨-, hshape⟩
      rw [BeShape, if_pos hal] at hshape
      exact hs hshape.2
    constructor
    · intro h
      rcases diskPhys_big_of_not hw.pos h64 hnot with hstop | ⟨-, hb', -⟩
      · rw [hstop] at h
        cases h
      · exact absurd hb hb'
    · intro h
      exact absurd h.1 hs

/-- Over the file alone, a field on the disk reads as it was written exactly when it is `Undone`. -/
theorem diskPhys_setField_iff (mode : Mode) (hw : WriteWidth loc n) (hfull : Full d loc n)
    (hin : loc + n ≤ 8 * d.size) :
    diskPhys mode (d.setField loc v n) loc n = .ok (v % 2 ^ n) ↔ Undone mode d loc n v := by
  cases mode with
  | little =>
    have hfull' : Full (d.setField loc v n) loc n := hfull
    rw [diskPhys_num hw, if_pos hfull', Disk.num_setField_self hin]
    exact iff_of_true rfl ⟨hw, hfull, fun h => nomatch h⟩
  | big =>
    by_cases hn : n = 1
    · subst hn
      rw [diskPhys_big_bit hfull hin]
      simp [Undone, hw, hfull]
    · rw [diskPhys_big_bytes hw hn hfull hin]
      simp [Undone, hw, hfull, hn]

/-! ## Through the log -/

/-- Committing one write. -/
theorem wlogCommit_single (io : Io) (we : WlogEnt) :
    wlogCommit ⟨io, some [we]⟩ =
      (ioWrite we.bitAddr.toNat we.val.toNat we.bits io).map fun r => ((), ⟨r.2, some []⟩) := by
  have hents : commitEnts [we] io = ioWrite we.bitAddr.toNat we.val.toNat we.bits io := by
    show (ioWrite we.bitAddr.toNat we.val.toNat we.bits io >>= fun r => Except.ok ((), r.2)) = _
    cases ioWrite we.bitAddr.toNat we.val.toNat we.bits io <;> rfl
  simp only [wlogCommit, bind, StateT.bind, get, getThe, MonadStateOf.get, StateT.get, pure,
    Except.pure, Except.bind, onIo, hents]
  cases ioWrite we.bitAddr.toNat we.val.toNat we.bits io <;> rfl

theorem update_eq_ok {f : Disk → Except Stop Disk} {d d' : Disk} :
    update f d = .ok ((), d') ↔ f d = .ok d' := by
  rw [update]
  cases f d <;> simp [Except.map]

theorem map_eq_ok {ε α β : Type} {x : Except ε α} {f : α → β} {b : β} (h : x.map f = .ok b) :
    ∃ a, x = .ok a ∧ f a = b := by
  cases x with
  | error e => cases h
  | ok a => exact ⟨a, rfl, Except.ok.inj h⟩

/-- With no log open, the field is written to the file and then read from it. -/
theorem writeThenRead_eq {mode : Mode} {rt : Rt} (hlog : rt.wlog = none) {loc width v : UInt64}
    (h64 : width.toNat ≤ 64) :
    writeThenRead mode loc width v rt =
      (ioWrite loc.toNat v.toNat width.toNat rt.io >>= fun r =>
        (getLocalPhys mode loc.toNat width.toNat r.2).map fun s => (s.1, ⟨s.2, some []⟩)) := by
  have hbits : width.toNat % 256 = width.toNat := Nat.mod_eq_of_lt (by omega)
  obtain ⟨io, wlog⟩ := rt
  subst hlog
  have hadd : wlogAdd (writeVal loc width v) ⟨io, some []⟩ =
      .ok ((), ⟨io, some [⟨loc, v, width.toNat⟩]⟩) := by
    rw [writeVal, hbits]
    rfl
  rw [writeThenRead, run_bind_ok (wlogStart_ok io), run_bind_ok hadd]
  show (wlogCommit ⟨io, some [⟨loc, v, width.toNat⟩]⟩ >>= fun r => onIo _ r.2) = _
  rw [wlogCommit_single]
  cases ioWrite loc.toNat v.toNat width.toNat io with
  | error e => rfl
  | ok r => rfl

/-- What the runtime reads back, and the disk it leaves, are those of the file alone. -/
theorem writeThenRead_iff (mode : Mode) {rt : Rt} (hc : rt.io.Coherent) (hlog : rt.wlog = none)
    (loc v : UInt64) {width : UInt64} (h1 : 1 ≤ width.toNat) (h64 : width.toNat ≤ 64) (a : ℕ) (d' : Disk) :
    (∃ rt', writeThenRead mode loc width v rt = .ok (a, rt') ∧ rt'.io.disk = d') ↔
      diskWrite loc.toNat v.toNat width.toNat rt.io.disk = .ok d' ∧
        diskPhys mode d' loc.toNat width.toNat = .ok a := by
  rw [writeThenRead_eq hlog h64]
  have hsim : Simulates OverDisk Eq (ioWrite loc.toNat v.toNat width.toNat)
      (update (diskWrite loc.toNat v.toNat width.toNat)) := ioWrite_simulates _ loc.toNat_lt
  have hread : ∀ {e : Disk} {io : Io}, Over e io → ∀ b,
      (∃ io', getLocalPhys mode loc.toNat width.toNat io = .ok (b, io')) ↔
        diskPhys mode e loc.toNat width.toNat = .ok b :=
    fun hio b => (getLocalPhys_refines h1 h64 loc.toNat_lt).exists_run_iff hio b
  constructor
  · rintro ⟨rt', hrun, rfl⟩
    obtain ⟨⟨u, io1⟩, hx, hrun⟩ := bind_eq_ok hrun
    obtain ⟨u', d1, hu, -, hio1⟩ := hsim.run_ok ⟨rfl, hc⟩ hx
    obtain ⟨⟨b, io2⟩, hx2, hrt⟩ := map_eq_ok hrun
    cases hrt
    have hdisk : io2.disk = d1 :=
      ((getLocalPhys_refines h1 h64 loc.toNat_lt).run_inv hio1 hx2).1
    rw [hdisk]
    exact ⟨update_eq_ok.mp hu, (hread hio1 b).mp ⟨io2, hx2⟩⟩
  · rintro ⟨hw, hr⟩
    obtain ⟨u, io1, hx, -, hio1⟩ := hsim.ok_run ⟨rfl, hc⟩ (update_eq_ok.mpr hw)
    obtain ⟨io2, hx2⟩ := (hread hio1 a).mpr hr
    have hdisk : io2.disk = d' :=
      ((getLocalPhys_refines h1 h64 loc.toNat_lt).run_inv hio1 hx2).1
    refine ⟨⟨io2, some []⟩, ?_, hdisk⟩
    rw [hx, ok_bind, hx2]
    rfl

section

variable {mode : Mode} {rt : Rt} {loc width v : UInt64}

theorem ReadsBack.undone (hrt : rt.io.Reachable) (hlog : rt.wlog = none) (h1 : 1 ≤ width.toNat)
    (h64 : width.toNat ≤ 64) (hin : loc.toNat + width.toNat ≤ 8 * rt.io.disk.size)
    (h : ReadsBack mode rt loc width v) :
    Undone mode rt.io.disk loc.toNat width.toNat v.toNat := by
  obtain ⟨rt', hrun, -, -⟩ := h
  obtain ⟨hw, hr⟩ := (writeThenRead_iff mode hrt.coherent hlog loc v h1 h64 _ rt'.io.disk).mp
    ⟨rt', hrun, rfl⟩
  obtain ⟨hw, hline, hd⟩ := (diskWrite_iff h1 h64 hin).mp hw
  rw [hd] at hr
  have hfull : Full rt.io.disk loc.toNat width.toNat := by
    by_cases hn : width.toNat = 1
    · exact hline hn
    · have hfull' := full_of_diskPhys_bytes (hw.resolve_left hn).1 hr
      exact hfull'
  exact (diskPhys_setField_iff mode hw hfull hin).mp hr

theorem Undone.readsBack (hrt : rt.io.Reachable) (hlog : rt.wlog = none) (h1 : 1 ≤ width.toNat)
    (h64 : width.toNat ≤ 64) (hin : loc.toNat + width.toNat ≤ 8 * rt.io.disk.size)
    (h : Undone mode rt.io.disk loc.toNat width.toNat v.toNat) :
    ReadsBack mode rt loc width v := by
  obtain ⟨rt', hrun, hd⟩ := (writeThenRead_iff mode hrt.coherent hlog loc v h1 h64 _ _).mpr
    ⟨(diskWrite_iff h1 h64 hin).mpr ⟨h.1, fun _ => h.2.1, rfl⟩,
      (diskPhys_setField_iff mode h.1 h.2.1 hin).mpr h⟩
  refine ⟨rt', hrun, ?_, fun k hk => ?_⟩
  · rw [hd, Disk.size_setField]
  · rw [hd]
    by_cases hks : k < 8 * rt.io.disk.size
    · rw [Disk.bit_setField _ _ _ _ hks, if_neg hk]
    · have hks' : 8 * (rt.io.disk.setField loc.toNat v.toNat width.toNat).size ≤ k := by
        rw [Disk.size_setField]
        omega
      rw [Disk.bit_eq_false _ hks', Disk.bit_eq_false _ (by omega)]

/-- Reading undoes writing exactly for the fields that are `Undone`, from every state of the
runtime with no log open and for every field on the disk. -/
theorem readsBack_iff (hrt : rt.io.Reachable) (hlog : rt.wlog = none) (h1 : 1 ≤ width.toNat)
    (h64 : width.toNat ≤ 64) (hin : loc.toNat + width.toNat ≤ 8 * rt.io.disk.size) :
    ReadsBack mode rt loc width v ↔
      Undone mode rt.io.disk loc.toNat width.toNat v.toNat :=
  ⟨ReadsBack.undone hrt hlog h1 h64 hin, Undone.readsBack hrt hlog h1 h64 hin⟩

end

/-- The runtime just after it opened a disk of two empty lines. -/
def openedTwoLines : Rt := ⟨⟨twoLines, ioCacheInit fun _ _ => 0⟩, none⟩

theorem readsBack_little_word : ReadsBack .little openedTwoLines 16 32 0xdeadbeef :=
  (readsBack_iff (reachable_init _ _) rfl (by decide) (by decide) (by decide)).mpr
    ⟨by decide, by decide, fun h => nomatch h⟩

/-- In big-endian mode a written 1 is read as 256. -/
theorem not_readsBack_big_word : ¬ ReadsBack .big openedTwoLines 0 16 1 := by
  intro h
  obtain ⟨-, -, hbig⟩ :=
    ReadsBack.undone (reachable_init _ _) rfl (by decide) (by decide) (by decide) h
  rcases hbig rfl with ⟨h1, -⟩ | ⟨h1, -⟩ | ⟨-, -, hswap⟩
  · exact absurd h1 (by decide)
  · exact absurd h1 (by decide)
  · exact absurd hswap (by decide)

end Fsl
