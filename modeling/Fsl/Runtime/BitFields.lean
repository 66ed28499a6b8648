import Fsl.Runtime.BigEndian

/-!
# Consecutive big-endian fields

A record of bit fields, such as an extent of XFS, is read field by field. The values tile the
region of the record exactly when every single field is of a kind that is read right.
-/

namespace Fsl.Pread

open BitNum

/-- Read consecutive fields of the given widths. -/
def readFields (mode : Mode) : ℕ → List ℕ → IoM (List ℕ)
  | _, [] => pure []
  | off, w :: ws => do
    let v ← getLocalPhys mode off w
    let vs ← readFields mode (off + w) ws
    return v :: vs

/-- `readFields` over the file `d`. -/
def diskFields (mode : Mode) (d : Disk) : ℕ → List ℕ → Except Stop (List ℕ)
  | _, [] => .ok []
  | off, w :: ws => do
    let v ← diskPhys mode d off w
    let vs ← diskFields mode d (off + w) ws
    return v :: vs

/-- Every field lies on complete lines of a file of `size` bytes and has a shape that is read most
significant bit first. -/
def FieldsOk (size : ℕ) : ℕ → List ℕ → Prop
  | _, [] => True
  | off, w :: ws =>
    (32 * ((off + w - 1) / 256 + 1) ≤ size ∧ BeShape off w) ∧ FieldsOk size (off + w) ws

/-- The widths a field can have. -/
def Widths (ws : List ℕ) : Prop := ∀ w ∈ ws, 1 ≤ w ∧ w ≤ 64

theorem readFields_refines {d : Disk} {mode : Mode} {ws : List ℕ} (hws : Widths ws) {off : ℕ}
    (hoff : off + ws.sum ≤ 2 ^ 64) :
    Refines (Over d) Eq (readFields mode off ws) (diskFields mode d off ws) := by
  induction ws generalizing off with
  | nil => exact Refines.pure rfl
  | cons w ws ih =>
    obtain ⟨hw, hrest⟩ := List.forall_mem_cons.mp hws
    rw [List.sum_cons] at hoff
    refine Refines.bind (getLocalPhys_refines hw.1 hw.2 (by omega)) fun v _ hv => ?_
    subst hv
    refine Refines.bind (ih hrest (by omega)) fun vs _ hvs => ?_
    subst hvs
    exact Refines.pure rfl

/-- The values of the fields, each read most significant bit first. -/
def beFields (d : Disk) : ℕ → List ℕ → List ℕ
  | _, [] => []
  | off, w :: ws => beField d off w :: beFields d (off + w) ws

theorem concatMsb_beFields (d : Disk) (off : ℕ) (ws : List ℕ) :
    concatMsb ws (beFields d off ws) = beField d off ws.sum := by
  induction ws generalizing off with
  | nil => rfl
  | cons w ws ih => rw [beFields, concatMsb, ih, List.sum_cons, beField_add]

theorem concatMsb_lt {d : Disk} {ws vs : List ℕ} (hws : Widths ws) {off : ℕ}
    (h : diskFields .big d off ws = .ok vs) : concatMsb ws vs < 2 ^ ws.sum := by
  induction ws generalizing off vs with
  | nil => simp [concatMsb]
  | cons w ws ih =>
    obtain ⟨hw, hrest⟩ := List.forall_mem_cons.mp hws
    rw [diskFields] at h
    cases hv : diskPhys .big d off w with
    | error e =>
      rw [hv] at h
      cases h
    | ok v =>
      cases hr : diskFields .big d (off + w) ws with
      | error e =>
        rw [hv, hr] at h
        cases h
      | ok vs' =>
        rw [hv, hr] at h
        cases h
        have h1 := lt_of_diskPhys_big hw.1 hw.2 hv
        have h2 := ih hrest hr
        have h3 : (v + 1) * 2 ^ ws.sum ≤ 2 ^ w * 2 ^ ws.sum := Nat.mul_le_mul_right _ h1
        rw [concatMsb, List.sum_cons, Nat.pow_add]
        rw [Nat.add_mul, Nat.one_mul] at h3
        omega

/-- Values that tile the region are the values of its fields. -/
theorem eq_beFields_of_tile {d : Disk} {ws vs : List ℕ} (hws : Widths ws) {off : ℕ}
    (h : diskFields .big d off ws = .ok vs) (htile : concatMsb ws vs = beField d off ws.sum) :
    vs = beFields d off ws := by
  induction ws generalizing off vs with
  | nil =>
    cases h
    rfl
  | cons w ws ih =>
    obtain ⟨hw, hrest⟩ := List.forall_mem_cons.mp hws
    rw [diskFields] at h
    cases hv : diskPhys .big d off w with
    | error e =>
      rw [hv] at h
      cases h
    | ok v =>
      cases hr : diskFields .big d (off + w) ws with
      | error e =>
        rw [hv, hr] at h
        cases h
      | ok vs' =>
        rw [hv, hr] at h
        cases h
        have hlow := concatMsb_lt hrest hr
        have hbe := beField_lt d (off + w) ws.sum
        rw [concatMsb, List.sum_cons, beField_add, Nat.mul_comm v, Nat.mul_comm (beField d off w)]
          at htile
        have hpos : 0 < 2 ^ ws.sum := Nat.two_pow_pos _
        have hhead : v = beField d off w := by
          have := congrArg (· / 2 ^ ws.sum) htile
          simpa [Nat.mul_add_div hpos, Nat.div_eq_of_lt hlow, Nat.div_eq_of_lt hbe] using this
        subst hhead
        rw [beFields, ih hrest hr (Nat.add_left_cancel htile)]

/-- A field that is read right whatever the file holds has the right shape: a partial field at a
byte boundary goes wrong on a byte whose most significant bit is set. -/
theorem shape_of_exact {size off w : ℕ} (h1 : 1 ≤ w) (h64 : w ≤ 64) (hin : off + w ≤ 8 * size)
    (hsz : size < 2 ^ 61)
    (h : ∀ d : Disk, d.size = size → diskPhys .big d off w = .ok (beField d off w)) :
    32 * ((off + w - 1) / 256 + 1) ≤ size ∧ BeShape off w := by
  by_contra hnot
  obtain ⟨d, hds, hbyte⟩ := Disk.exists_of_fn (fun j => if j = off / 8 then 0x80 else 0) hsz
  have hex := h d hds
  rw [← hds] at hnot
  rcases diskPhys_big_of_not (d := d) h1 h64 hnot with hs | ⟨hal, hn, hv⟩
  · rw [hs] at hex
    cases hex
  · rw [hv] at hex
    -- the most significant bit of the field: the first bit of the byte, or its bit `w - 1`
    have hbit := ofBits_inj (Except.ok.inj hex) (show w - 1 < w by omega)
    have hbe : d.beBit (off + (w - 1 - (w - 1))) = true := by
      have hdiv : (8 * ((off + (w - 1 - (w - 1))) / 8) + (7 - (off + (w - 1 - (w - 1))) % 8)) / 8 =
          off / 8 := by omega
      have hmod : (8 * ((off + (w - 1 - (w - 1))) / 8) + (7 - (off + (w - 1 - (w - 1))) % 8)) % 8 =
          7 := by omega
      rw [Disk.beBit, Disk.bit, bitOf, hdiv, hmod, hbyte _ (by omega), if_pos rfl]
      decide
    have hle : d.bit (off + (w - 1)) = false := by
      rw [Disk.bit, bitOf, hbyte _ (by omega)]
      by_cases hj : (off + (w - 1)) / 8 = off / 8
      · have h7 : (off + (w - 1)) % 8 < 7 := by omega
        rw [if_pos hj]
        generalize (off + (w - 1)) % 8 = m at h7
        interval_cases m <;> decide
      · rw [if_neg hj]
        exact Nat.zero_testBit _
    rw [hbe, hle] at hbit
    cases hbit

theorem fieldsOk_iff {size off : ℕ} {ws : List ℕ} (hws : Widths ws) (hin : off + ws.sum ≤ 8 * size)
    (hsz : size < 2 ^ 61) :
    (∀ d : Disk, d.size = size → diskFields .big d off ws = .ok (beFields d off ws)) ↔
      FieldsOk size off ws := by
  induction ws generalizing off with
  | nil => simp [diskFields, beFields, FieldsOk]
  | cons w ws ih =>
    obtain ⟨hw, hrest⟩ := List.forall_mem_cons.mp hws
    rw [List.sum_cons] at hin
    have ih' := ih hrest (show off + w + ws.sum ≤ 8 * size by omega)
    have hsplit : ∀ d : Disk, diskFields .big d off (w :: ws) = .ok (beFields d off (w :: ws)) ↔
        diskPhys .big d off w = .ok (beField d off w) ∧
          diskFields .big d (off + w) ws = .ok (beFields d (off + w) ws) := by
      intro d
      rw [diskFields, beFields]
      cases diskPhys .big d off w with
      | error e => simp [bind, Except.bind]
      | ok v =>
        cases diskFields .big d (off + w) ws with
        | error e => simp [bind, Except.bind]
        | ok vs => simp [bind, Except.bind, pure, Except.pure]
    rw [FieldsOk, ← ih']
    constructor
    · intro h
      refine ⟨shape_of_exact hw.1 hw.2 (by omega) hsz fun d hd => ((hsplit d).mp (h d hd)).1,
        fun d hd => ((hsplit d).mp (h d hd)).2⟩
    · rintro ⟨⟨hfull, hshape⟩, hok⟩ d rfl
      exact (hsplit d).mpr ⟨diskPhys_big hw.2 hfull hshape, hok d rfl⟩

/-- Consecutive big-endian fields tile a byte-aligned region, whatever the file holds and from
every reachable cache, exactly when each of them lies on complete lines and has a shape that
`__getLocalPhys` reads most significant bit first. -/
theorem readFields_big_tile_iff {p k size : ℕ} {ws : List ℕ} (hws : Widths ws)
    (hsum : ws.sum = 8 * k) (hin : p + k ≤ size) (hsz : size < 2 ^ 61) :
    (∀ io : Io, io.Reachable → io.disk.size = size →
      ∃ vs io', readFields .big (8 * p) ws io = .ok (vs, io') ∧
        concatMsb ws vs = bigEndian io.disk.byte p k) ↔
      FieldsOk size (8 * p) ws := by
  rw [← fieldsOk_iff hws (by omega) hsz]
  have hrun : ∀ io : Io, io.Reachable → io.disk.size = size → ∀ vs,
      (∃ io', readFields .big (8 * p) ws io = .ok (vs, io')) ↔
        diskFields .big io.disk (8 * p) ws = .ok vs := fun io hr _ vs =>
    (readFields_refines hws (by omega)).exists_run_iff ⟨rfl, hr.coherent⟩ vs
  constructor
  · intro h d hd
    have hr := reachable_init d fun _ _ => 0
    obtain ⟨vs, io', hvs, htile⟩ := h _ hr hd
    have hfields := (hrun _ hr hd vs).mp ⟨io', hvs⟩
    rw [← beField_bytes, ← hsum] at htile
    rw [hfields, eq_beFields_of_tile hws hfields htile]
  · intro h io hr hd
    obtain ⟨io', hio⟩ := (hrun io hr hd _).mpr (h io.disk hd)
    refine ⟨_, io', hio, ?_⟩
    rw [concatMsb_beFields, hsum, beField_bytes]

/-- A 16-bit and an 8-bit field tile the first three bytes of a disk of one line. -/
theorem readFields_big_tile_bytes :
    ∃ io : Io, io.Reachable ∧ io.disk.size = 32 ∧
      ∃ vs io', readFields .big (8 * 0) [16, 8] io = .ok (vs, io') ∧
        concatMsb [16, 8] vs = bigEndian io.disk.byte 0 3 := by
  have hall : ∀ io : Io, io.Reachable → io.disk.size = 32 →
      ∃ vs io', readFields .big (8 * 0) [16, 8] io = .ok (vs, io') ∧
        concatMsb [16, 8] vs = bigEndian io.disk.byte 0 3 :=
    (readFields_big_tile_iff (by unfold Widths; decide) rfl (by decide) (by norm_num)).mpr
      ⟨⟨by decide, by unfold BeShape; decide⟩, ⟨by decide, by unfold BeShape; decide⟩, trivial⟩
  have hr := reachable_init (Disk.ofFn 32 (fun i => UInt8.ofNat i) (by norm_num)) fun _ _ => 0
  exact ⟨_, hr, rfl, hall _ hr rfl⟩

/-- The extent record of XFS, 1 + 54 + 52 + 21 bits, does not tile: its first field is one bit at
a byte boundary and comes back as the least significant bit of its byte. -/
theorem readFields_big_not_tile :
    ¬ ∀ (io : Io) (p k : ℕ) (ws : List ℕ), io.Reachable → Widths ws → ws.sum = 8 * k →
      p + k ≤ io.disk.size → ∃ vs io', readFields .big (8 * p) ws io = .ok (vs, io') ∧
        concatMsb ws vs = bigEndian io.disk.byte p k := by
  intro h
  have hws : Widths [1, 54, 52, 21] := by
    unfold Widths
    decide
  have hok : ∀ d : Disk, d.size = 32 →
      diskFields .big d 0 [1, 54, 52, 21] = .ok (beFields d 0 [1, 54, 52, 21]) := by
    intro d hd
    obtain ⟨vs, io', hvs, htile⟩ := h ⟨d, ioCacheInit fun _ _ => 0⟩ 0 16 [1, 54, 52, 21]
      (reachable_init d _) hws rfl (by show 0 + 16 ≤ d.size; omega)
    have href : Refines (Over d) Eq (readFields .big 0 [1, 54, 52, 21])
        (diskFields .big d 0 [1, 54, 52, 21]) := readFields_refines hws (by norm_num)
    have hfields := (href.exists_run_iff ⟨rfl, (reachable_init d _).coherent⟩ vs).mp ⟨io', hvs⟩
    rw [← beField_bytes] at htile
    rw [hfields, eq_beFields_of_tile hws hfields htile]
  have hshape := ((fieldsOk_iff hws (by decide) (by norm_num)).mp hok).1.2
  revert hshape
  unfold BeShape
  decide

end Fsl.Pread
