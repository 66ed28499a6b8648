import Fsl.Runtime.Fields

/-!
# Sectors of a VMDK image

`fs/vmdk_funcs.fsl`: a sector of the virtual disk is found through a grain directory and grain tables.
A grain table begins at any sector, but it is read as an element of `leafs`, an array of `l2` from the
beginning of the image on.
-/

namespace Fsl.Vmdk

open Pread

/-- `VMDK4_MAGIC` -/
def vmdk4Magic : UInt64 := 0x564d444b

/-- `magic` -/
def magic : Prog UInt64 := Prog.field 0 32

/-- `assert_nonzero`; `fsl_fail` ends the process. -/
def assertNonzero (x : UInt64) : Prog UInt64 := if x = 0 then throw Stop.assertion else pure x

/-- `total_sectors`: `hdr.v4.capacity` or `hdr.v3.disk_sectors`. -/
def totalSectors : Prog UInt64 := do
  if (← magic) = vmdk4Magic then Prog.field 96 64 else Prog.field 96 32

/-- `l2_size`: `hdr.v4.num_gtes_per_gte` or `SSZ`. -/
def l2Size : Prog UInt64 := do
  if (← magic) = vmdk4Magic then Prog.field 352 32 else pure 512

/-- `cluster_sectors`: `granularity` of either header. -/
def clusterSectors : Prog UInt64 := do
  if (← magic) = vmdk4Magic then Prog.field 160 64 else Prog.field 128 32

/-- `l1_entry_sectors` -/
def l1EntrySectors : Prog UInt64 := do
  assertNonzero ((← l2Size) * (← clusterSectors))

/-- `l1_size` -/
def l1Size : Prog UInt64 := do
  if (← magic) = vmdk4Magic then
    return ((← totalSectors) + ((← l1EntrySectors) - 1)) / (← l1EntrySectors)
  else return (1 : UInt64) <<< 6

/-- `l1_table_offset`: from `hdr.v4.rgd_offset` or `hdr.v3.l1dir_offset`. -/
def l1TableOffset : Prog UInt64 := do
  if (← magic) = vmdk4Magic then return (← Prog.field 384 64) * 512
  else return (← Prog.field 160 32) * 512

/-- `disk.l1_table.dat[i]` -/
def l1Dat (i : UInt64) : Prog UInt64 := do Prog.field ((← l1TableOffset) * 8 + 32 * i) 32

/-- The bits of an `l2`, which is declared with `l2_size() * 4` entries. -/
def sizeofL2 : Prog UInt64 := do return 32 * ((← l2Size) * 4)

/-- `disk.leafs[i].dat[j]` -/
def leafsDat (i j : UInt64) : Prog UInt64 := do Prog.field (i * (← sizeofL2) + 32 * j) 32

/-- `is_zero` of `disk.sectors[i]`, over the last `k` bytes. -/
def isZero (i : UInt64) : ℕ → Prog Bool
  | 0 => return true
  | k + 1 => do
    if (← Prog.field (i * 4096 + 8 * UInt64.ofNat (511 - k)) 8) ≠ 0 then return false
    else isZero i k

/-- The loop of `zero_sector_idx`, with `k` sectors left. -/
def zeroLoop : ℕ → UInt64 → Prog UInt64
  | 0, _ => assertNonzero 0
  | k + 1, i => do if ← isZero i 512 then return i else zeroLoop k (i + 1)

/-- `zero_sector_idx`; `total_sectors()` is the same in every turn. It has no arguments, so
`fsl_load_memo` has already called it once: on an image without a zero sector the tool stops there. -/
def zeroSectorIdx : Prog UInt64 := do zeroLoop (← totalSectors).toNat 0

/-- `cluster_offset` -/
def clusterOffset (vdiskOffset : UInt64) : Prog UInt64 := do
  let l1Idx := vdiskOffset / 512 / (← l1EntrySectors)
  if l1Idx ≥ (← l1Size) then return 0
  else
    let l2Idx := (← l1Dat l1Idx) * 512 / ((← sizeofL2) / 8)
    if l2Idx = 0 then return 0
    else
      let l2Off := vdiskOffset / 512 / (← clusterSectors) % (← l2Size)
      return (← leafsDat l2Idx l2Off) * 512

/-- `lba_to_sectidx` -/
def lbaToSectidx (lba : UInt64) : Prog UInt64 := do
  let beginCluster ← clusterOffset (lba * 512)
  if beginCluster = 0 then zeroSectorIdx
  else return beginCluster / 512 + lba % (← clusterSectors)

/-- The header fields that the functions use. -/
structure Header where
  v4 : Bool
  capacity : ℕ
  granularity : ℕ
  entries : ℕ
  dirSector : ℕ

/-- The header of an image. -/
def header (d : Disk) : Header :=
  if d.num 0 32 = 0x564d444b then
    ⟨true, d.num 96 64, d.num 160 64, d.num 352 32, d.num 384 64⟩
  else ⟨false, d.num 96 32, d.num 128 32, 512, d.num 160 32⟩

namespace Header

variable (h : Header) (d : Disk) (lba : ℕ)

/-- The directory entry of a sector, and the sector that its grain table begins at. -/
def dirIdx : ℕ := lba / (h.entries * h.granularity)

def table : ℕ := d.num (8 * (h.dirSector * 512 + 4 * h.dirIdx lba)) 32

/-- The place of a sector in its grain table. -/
def slot : ℕ := lba / h.granularity % h.entries

/-- The entry of a sector in its grain table, 0 if there is no table. -/
def grain : ℕ :=
  if h.table d lba = 0 then 0 else d.num (8 * (h.table d lba * 512 + 4 * h.slot lba)) 32

/-- The bytes of an `l2`. -/
def leafBytes : ℕ := 16 * h.entries

/-- The entry at the same place of the last element of `leafs` that begins before or at the grain
table; 0 in the first element, and behind the 64 entries of a directory of version 3. -/
def leafGrain : ℕ :=
  if h.v4 = false ∧ 64 ≤ h.dirIdx lba ∨ h.table d lba * 512 / h.leafBytes = 0 then 0
  else d.num (8 * (h.table d lba * 512 / h.leafBytes * h.leafBytes + 4 * h.slot lba)) 32

end Header

/-- A sparse image and a sector of its virtual disk. The sectors of the virtual disk and those behind
a directory entry are counted in 64 bits, also in bytes; the directory and the grain table of the
sector lie in the image. -/
structure Valid (d : Disk) (lba : UInt64) : Prop where
  sectors : 512 ∣ d.size
  nonempty : 0 < d.size
  known : d.num 0 32 = 0x44574f43 ∨ d.num 0 32 = 0x564d444b
  capacity : (header d).capacity * 512 < 2 ^ 64
  entries : 0 < (header d).entries
  granularity : 0 < (header d).granularity
  coverage : (header d).capacity + (header d).entries * (header d).granularity < 2 ^ 64
  lt : lba.toNat < (header d).capacity
  dir : (header d).dirSector * 512 + 4 * (header d).dirIdx lba.toNat + 4 ≤ d.size
  table : (header d).table d lba.toNat ≠ 0 →
    (header d).table d lba.toNat * 512 + 4 * (header d).slot lba.toNat + 4 ≤ d.size

/-- Sector `i` of the image lies in it and has no byte but zeros. -/
def ZeroSector (d : Disk) (i : ℕ) : Prop :=
  i * 512 + 512 ≤ d.size ∧ ∀ j, j < 512 → d.num (8 * (i * 512 + j)) 8 = 0

/-- The first one. -/
def FirstZero (d : Disk) (i : ℕ) : Prop := ZeroSector d i ∧ ∀ j, j < i → ¬ ZeroSector d j

/-- A sector of the virtual disk is found in its grain, or a sector of zeros if there is no grain. -/
def FindsSector (d : Disk) (lba : UInt64) : Prop :=
  ∃ i, (lbaToSectidx lba).run .little d = .ok i ∧
    ((header d).grain d lba.toNat ≠ 0 →
      i.toNat = (header d).grain d lba.toNat + lba.toNat % (header d).granularity) ∧
    ((header d).grain d lba.toNat = 0 → ZeroSector d i.toNat)

variable {d : Disk} {lba : UInt64}

/-! ## The header -/

/-- Reading whole bytes at a byte boundary of an image of whole sectors. -/
theorem run_read (hsec : 512 ∣ d.size) {a : UInt64} {off n : ℕ} (ha : a.toNat = off)
    (h : 1 ≤ n ∧ n ≤ 64) (hoff : off % 8 = 0) (hn : n % 8 = 0) (hin : off + n ≤ 8 * d.size) :
    (Prog.field a n h).run .little d = .ok (UInt64.ofNat (d.num off n)) := by
  subst ha
  have hw : WriteWidth a.toNat n := Or.inr ⟨hoff, hn, by omega, h.2⟩
  rw [Prog.run_field_num (Dvd.dvd.trans ⟨16, rfl⟩ hsec) h hw, if_pos hin]

theorem header_v4 (hm : d.num 0 32 = 0x564d444b) :
    header d = ⟨true, d.num 96 64, d.num 160 64, d.num 352 32, d.num 384 64⟩ := if_pos hm

theorem header_v3 (hm : d.num 0 32 = 0x44574f43) :
    header d = ⟨false, d.num 96 32, d.num 128 32, 512, d.num 160 32⟩ :=
  if_neg (by rw [hm]; decide)

theorem leafGrain_lt : (header d).leafGrain d lba.toNat < 2 ^ 32 := by
  unfold Header.leafGrain
  split_ifs
  · exact Nat.two_pow_pos 32
  · exact d.num_lt _ _

namespace Valid

variable (h : Valid d lba)
include h

theorem size_ge : 512 ≤ d.size := Nat.le_of_dvd h.nonempty h.sectors

theorem run_header (off : ℕ) {a : UInt64} {n : ℕ} (ha : a.toNat = off) (hn' : 1 ≤ n ∧ n ≤ 64)
    (hoff : off % 8 = 0) (hn : n % 8 = 0) (hin : off + n ≤ 4096) :
    (Prog.field a n hn').run .little d = .ok (UInt64.ofNat (d.num off n)) :=
  run_read h.sectors ha hn' hoff hn (by have := h.size_ge; omega)

/-- A function that tells the versions apart. -/
theorem run_ite {α : Type} (p q : Prog α) :
    (do if (← magic) = vmdk4Magic then p else q : Prog α).run .little d =
      if (header d).v4 = true then p.run .little d else q.run .little d := by
  rw [Prog.run_bind, magic, h.run_header 0 rfl _ rfl rfl (by decide), ok_bind, header]
  rcases h.known with h3 | h4
  · rw [h3]
    rfl
  · rw [h4]
    rfl

/-- What is read off the header. -/
theorem run_field (r : Header → ℕ) (off off' : ℕ) {a a' : UInt64} {n n' : ℕ}
    (ha : a.toNat = off) (ha' : a'.toNat = off') (hn : 1 ≤ n ∧ n ≤ 64) (hn' : 1 ≤ n' ∧ n' ≤ 64)
    (hal : off % 8 = 0 ∧ n % 8 = 0 ∧ off + n ≤ 4096)
    (hal' : off' % 8 = 0 ∧ n' % 8 = 0 ∧ off' + n' ≤ 4096)
    (h4 : d.num 0 32 = 0x564d444b → r (header d) = d.num off n)
    (h3 : d.num 0 32 = 0x44574f43 → r (header d) = d.num off' n') :
    (do if (← magic) = vmdk4Magic then Prog.field a n hn else Prog.field a' n' hn' :
      Prog UInt64).run .little d = .ok (UInt64.ofNat (r (header d))) := by
  rw [h.run_ite, h.run_header off ha _ hal.1 hal.2.1 hal.2.2,
    h.run_header off' ha' _ hal'.1 hal'.2.1 hal'.2.2]
  rcases h.known with hm | hm
  · rw [h3 hm, header_v3 hm, if_neg Bool.false_ne_true]
  · rw [h4 hm, header_v4 hm, if_pos rfl]

theorem run_totalSectors :
    totalSectors.run .little d = .ok (UInt64.ofNat (header d).capacity) :=
  h.run_field Header.capacity 96 96 rfl rfl _ _ (by decide) (by decide)
    (fun hm => by rw [header_v4 hm]) (fun hm => by rw [header_v3 hm])

theorem run_clusterSectors :
    clusterSectors.run .little d = .ok (UInt64.ofNat (header d).granularity) :=
  h.run_field Header.granularity 160 128 rfl rfl _ _ (by decide) (by decide)
    (fun hm => by rw [header_v4 hm]) (fun hm => by rw [header_v3 hm])

theorem run_l2Size : l2Size.run .little d = .ok (UInt64.ofNat (header d).entries) := by
  rw [l2Size, h.run_ite, h.run_header 352 rfl _ rfl rfl (by decide)]
  rcases h.known with hm | hm
  · rw [header_v3 hm, if_neg Bool.false_ne_true]
    rfl
  · rw [header_v4 hm, if_pos rfl]

theorem run_l1TableOffset :
    l1TableOffset.run .little d = .ok (UInt64.ofNat (header d).dirSector * 512) := by
  rw [l1TableOffset, h.run_ite, Prog.run_bind, Prog.run_bind, h.run_header 384 rfl _ rfl rfl (by decide),
    h.run_header 160 rfl _ rfl rfl (by decide)]
  rcases h.known with hm | hm
  · rw [header_v3 hm, if_neg Bool.false_ne_true]
    rfl
  · rw [header_v4 hm, if_pos rfl]
    rfl

end Valid

/-! ## Sectors of zeros -/

theorem ofNat_eq_zero_iff {x : ℕ} (hx : x < 2 ^ 64) : UInt64.ofNat x = 0 ↔ x = 0 := by
  rw [← UInt64.toNat_inj, UInt64.toNat_ofNat_of_lt' hx]
  rfl

/-- A sector of the image is read byte by byte. -/
theorem run_isZero (hsec : 512 ∣ d.size) {i : UInt64} (hi : i.toNat * 512 + 512 ≤ d.size) {k : ℕ}
    (hk : k ≤ 512) : ∃ b, (isZero i k).run .little d = .ok b ∧
      (b = true ↔ ∀ j, 512 - k ≤ j → j < 512 → d.num (8 * (i.toNat * 512 + j)) 8 = 0) := by
  have hsize := d.size_lt
  induction k with
  | zero => exact ⟨true, rfl, iff_of_true rfl fun j hj hlt => by omega⟩
  | succ k ih =>
    obtain ⟨b, hb, hiff⟩ := ih (by omega)
    have haddr : (i * 4096 + 8 * UInt64.ofNat (511 - k)).toNat = 8 * (i.toNat * 512 + (511 - k)) := by
      rw [UInt64.toNat_add, UInt64.toNat_mul, UInt64.toNat_mul, UInt64.toNat_ofNat']
      show (i.toNat * 4096 % 2 ^ 64 + 8 * ((511 - k) % 2 ^ 64) % 2 ^ 64) % 2 ^ 64 = _
      omega
    have hbyte := d.num_lt (8 * (i.toNat * 512 + (511 - k))) 8
    have hzero := ofNat_eq_zero_iff (hbyte.trans (by decide : 2 ^ 8 < 2 ^ 64))
    have hfirst : 512 - (k + 1) = 511 - k := by omega
    rw [isZero, Prog.run_bind, run_read hsec haddr _ (by omega) rfl (by omega), ok_bind, hfirst]
    by_cases hnum : d.num (8 * (i.toNat * 512 + (511 - k))) 8 = 0
    · rw [if_neg (not_not.mpr (hzero.mpr hnum))]
      refine ⟨b, hb, hiff.trans ⟨fun hall j hj hlt => ?_, fun hall j hj hlt => hall j (by omega) hlt⟩⟩
      rcases hj.eq_or_lt with rfl | hgt
      · exact hnum
      · exact hall j (by omega) hlt
    · rw [if_pos (mt hzero.mp hnum)]
      exact ⟨false, rfl, iff_of_false Bool.false_ne_true fun hall =>
        hnum (hall _ le_rfl (by omega))⟩

theorem run_isZero_sector (hsec : 512 ∣ d.size) {i : UInt64} (hi : i.toNat * 512 + 512 ≤ d.size) :
    ∃ b, (isZero i 512).run .little d = .ok b ∧ (b = true ↔ ZeroSector d i.toNat) := by
  obtain ⟨b, hb, hiff⟩ := run_isZero hsec hi le_rfl
  refine ⟨b, hb, hiff.trans ⟨fun hall => ⟨hi, fun j hj => hall j (by omega) hj⟩,
    fun hz j _ hj => hz.2 j hj⟩⟩

/-- Behind the image nothing can be read. -/
theorem run_isZero_end (hsec : 512 ∣ d.size) {i : UInt64} (hi : i.toNat * 512 = d.size) :
    (isZero i 512).run .little d = .error .assertion := by
  have hsize := d.size_lt
  have haddr : (i * 4096 + 8 * UInt64.ofNat (511 - 511)).toNat = 8 * (i.toNat * 512) := by
    rw [UInt64.toNat_add, UInt64.toNat_mul, UInt64.toNat_mul]
    show (i.toNat * 4096 % 2 ^ 64 + 8 * 0 % 2 ^ 64) % 2 ^ 64 = _
    omega
  rw [isZero, Prog.run_bind, Prog.run_field_num (Dvd.dvd.trans ⟨16, rfl⟩ hsec) _
    (Or.inr ⟨by rw [haddr]; omega, rfl, le_rfl, by decide⟩), if_neg (by rw [haddr]; omega)]
  rfl

/-- The search from sector `i` on returns the first sector of zeros, and nothing else. -/
theorem run_zeroLoop (hsec : 512 ∣ d.size) {k : ℕ} {i : UInt64} (hi : i.toNat * 512 ≤ d.size)
    (hk : i.toNat + k < 2 ^ 64) (hnone : ∀ j, j < i.toNat → ¬ ZeroSector d j) (res : UInt64) :
    (zeroLoop k i).run .little d = .ok res ↔
      FirstZero d res.toNat ∧ res.toNat < i.toNat + k := by
  induction k generalizing i with
  | zero =>
    refine iff_of_false (fun h => ?_) fun h => hnone _ h.2 h.1.1
    cases h
  | succ k ih =>
    rw [zeroLoop, Prog.run_bind]
    by_cases hin : i.toNat * 512 + 512 ≤ d.size
    · obtain ⟨b, hb, hiff⟩ := run_isZero_sector hsec hin
      rw [hb, ok_bind]
      cases b with
      | true =>
        have hz := hiff.mp rfl
        rw [if_pos rfl, Prog.run_pure]
        refine ⟨fun h => ?_, fun h => ?_⟩
        · obtain rfl : i = res := Except.ok.inj h
          exact ⟨⟨hz, hnone⟩, by omega⟩
        · have heq : res.toNat = i.toNat := by
            refine le_antisymm (not_lt.mp fun hlt => h.1.2 _ hlt hz) (not_lt.mp fun hlt => ?_)
            exact hnone _ hlt h.1.1
          rw [UInt64.toNat_inj.mp heq]
      | false =>
        have hz : ¬ ZeroSector d i.toNat := fun hz => Bool.false_ne_true (hiff.mpr hz)
        have hle : (i.toNat + 1) * 512 ≤ d.size := by rwa [Nat.add_one_mul]
        have hk' : i.toNat + 1 + k < 2 ^ 64 := by omega
        have hnext : (i + 1).toNat = i.toNat + 1 := by
          rw [UInt64.toNat_add]
          exact Nat.mod_eq_of_lt (show i.toNat + 1 < 2 ^ 64 by omega)
        rw [← hnext] at hle hk'
        rw [if_neg Bool.false_ne_true, ih hle hk' (fun j hj => ?_), hnext]
        · rw [Nat.add_assoc, Nat.add_comm 1]
        · rcases Nat.lt_or_eq_of_le (show j ≤ i.toNat by omega) with hlt | rfl
          · exact hnone j hlt
          · exact hz
    · obtain ⟨q, hq⟩ := hsec
      rw [run_isZero_end ⟨q, hq⟩ (by omega)]
      refine iff_of_false (fun h => ?_) fun h => ?_
      · cases h
      · have hlast := h.1.1.1
        exact hnone _ (by omega) h.1.1

/-! ## The translation -/

namespace Valid

variable (h : Valid d lba)
include h

theorem run_zeroSectorIdx (res : UInt64) :
    zeroSectorIdx.run .little d = .ok res ↔
      FirstZero d res.toNat ∧ res.toNat < (header d).capacity := by
  have hcap := h.capacity
  have hnat : (UInt64.ofNat (header d).capacity).toNat = (header d).capacity :=
    UInt64.toNat_ofNat_of_lt' (by norm_num [UInt64.size]; omega)
  have h0 : (0 : UInt64).toNat = 0 := rfl
  have hlt : (0 : UInt64).toNat + (header d).capacity < 2 ^ 64 := by
    rw [h0]
    omega
  rw [zeroSectorIdx, Prog.run_bind, h.run_totalSectors, ok_bind, hnat,
    run_zeroLoop h.sectors (by rw [h0]; omega) hlt (fun j hj => absurd hj (Nat.not_lt_zero j)), h0,
    Nat.zero_add]

theorem run_l1EntrySectors : l1EntrySectors.run .little d =
    .ok (UInt64.ofNat ((header d).entries * (header d).granularity)) := by
  have hcov := h.coverage
  have hpos := Nat.mul_pos h.entries h.granularity
  have hne : ¬ UInt64.ofNat (header d).entries * UInt64.ofNat (header d).granularity = 0 := by
    rw [← UInt64.ofNat_mul, ofNat_eq_zero_iff (by omega)]
    omega
  rw [l1EntrySectors, Prog.run_bind, h.run_l2Size, ok_bind, Prog.run_bind, h.run_clusterSectors,
    ok_bind, assertNonzero, if_neg hne, ← UInt64.ofNat_mul]
  rfl

/-- The size of the directory only matters in version 3. -/
theorem run_l1Size : ∃ m, l1Size.run .little d = .ok m ∧
    ((header d).dirIdx lba.toNat ≥ m.toNat ↔
      (header d).v4 = false ∧ 64 ≤ (header d).dirIdx lba.toNat) := by
  have hcov := h.coverage
  have hlt := h.lt
  have hpos := Nat.mul_pos h.entries h.granularity
  generalize hs : (header d).entries * (header d).granularity = s at hcov hpos
  have hsub : (UInt64.ofNat s - 1).toNat = s - 1 :=
    toNat_sub (UInt64.toNat_ofNat_of_lt' (by norm_num [UInt64.size]; omega)) (j := 1) rfl hpos
  rcases h.known with hm | hm
  · refine ⟨64, ?_, ?_⟩
    · rw [l1Size, h.run_ite, header_v3 hm, if_neg Bool.false_ne_true]
      rfl
    · rw [header_v3 hm]
      exact ⟨fun hge => ⟨rfl, hge⟩, fun hge => hge.2⟩
  · refine ⟨(UInt64.ofNat (header d).capacity + (UInt64.ofNat s - 1)) / UInt64.ofNat s, ?_, ?_⟩
    · rw [l1Size, h.run_ite, if_pos (by rw [header_v4 hm]), Prog.run_bind, h.run_totalSectors, ok_bind,
        Prog.run_bind, h.run_l1EntrySectors, ok_bind, Prog.run_bind, h.run_l1EntrySectors, hs]
      rfl
    · refine iff_of_false (fun hge => ?_) fun hv => ?_
      · have hadd : (UInt64.ofNat (header d).capacity + (UInt64.ofNat s - 1)).toNat =
            (header d).capacity + (s - 1) := by
          rw [UInt64.toNat_add, hsub,
            UInt64.toNat_ofNat_of_lt' (by norm_num [UInt64.size]; omega : (header d).capacity < _)]
          exact Nat.mod_eq_of_lt (by omega)
        have hdiv : (UInt64.ofNat s).toNat = s :=
          UInt64.toNat_ofNat_of_lt' (by norm_num [UInt64.size]; omega)
        rw [UInt64.toNat_div, hadd, hdiv, Header.dirIdx, hs] at hge
        have hle : lba.toNat / s + 1 ≤ ((header d).capacity + (s - 1)) / s := by
          rw [← Nat.add_div_right _ hpos]
          exact Nat.div_le_div_right (by omega)
        omega
      · rw [header_v4 hm] at hv
        exact Bool.false_ne_true hv.1.symm

/-- The directory entry of the sector. -/
theorem run_l1Dat : (l1Dat (UInt64.ofNat ((header d).dirIdx lba.toNat))).run .little d =
    .ok (UInt64.ofNat ((header d).table d lba.toNat)) := by
  have hdir := h.dir
  have hsize := d.size_lt
  have haddr : (UInt64.ofNat (header d).dirSector * 512 * 8 +
      32 * UInt64.ofNat ((header d).dirIdx lba.toNat)).toNat =
        8 * ((header d).dirSector * 512 + 4 * (header d).dirIdx lba.toNat) := by
    rw [UInt64.toNat_add, UInt64.toNat_mul, UInt64.toNat_mul, UInt64.toNat_mul,
      UInt64.toNat_ofNat', UInt64.toNat_ofNat']
    show ((header d).dirSector % 2 ^ 64 * 512 % 2 ^ 64 * 8 % 2 ^ 64 +
      32 * ((header d).dirIdx lba.toNat % 2 ^ 64) % 2 ^ 64) % 2 ^ 64 = _
    omega
  rw [l1Dat, Prog.run_bind, h.run_l1TableOffset, ok_bind,
    run_read h.sectors haddr _ (Nat.mul_mod_right _ _) rfl (by omega)]
  rfl

theorem entries_lt : (header d).entries < 2 ^ 32 := by
  rcases h.known with hm | hm
  · rw [header_v3 hm]
    show 512 < 2 ^ 32
    decide
  · rw [header_v4 hm]
    exact d.num_lt _ _

theorem run_sizeofL2 :
    sizeofL2.run .little d = .ok (UInt64.ofNat (8 * (header d).leafBytes)) := by
  have hmul : 32 * (UInt64.ofNat (header d).entries * 4) =
      UInt64.ofNat (8 * (header d).leafBytes) := by
    refine UInt64.toNat_inj.mp ?_
    rw [UInt64.toNat_mul, UInt64.toNat_mul, UInt64.toNat_ofNat', UInt64.toNat_ofNat', Header.leafBytes]
    show 32 * ((header d).entries % 2 ^ 64 * 4 % 2 ^ 64) % 2 ^ 64 = _
    omega
  rw [sizeofL2, Prog.run_bind, h.run_l2Size, ok_bind, hmul]
  rfl

/-- The index in `leafs`, of the element that holds the beginning of the grain table. -/
theorem leafIdx_eq : UInt64.ofNat ((header d).table d lba.toNat) * 512 /
      (UInt64.ofNat (8 * (header d).leafBytes) / 8) =
    UInt64.ofNat ((header d).table d lba.toNat * 512 / (header d).leafBytes) := by
  have htab : (header d).table d lba.toNat < 2 ^ 32 := d.num_lt _ _
  have hent := h.entries_lt
  have hbytes : (UInt64.ofNat (8 * (header d).leafBytes) / 8).toNat = (header d).leafBytes := by
    rw [UInt64.toNat_div, UInt64.toNat_ofNat', Header.leafBytes]
    show 8 * (16 * (header d).entries) % 2 ^ 64 / 8 = _
    omega
  have hmul : (UInt64.ofNat ((header d).table d lba.toNat) * 512).toNat =
      (header d).table d lba.toNat * 512 := by
    rw [UInt64.toNat_mul, UInt64.toNat_ofNat']
    show (header d).table d lba.toNat % 2 ^ 64 * 512 % 2 ^ 64 = _
    omega
  have hle : (header d).table d lba.toNat * 512 / (header d).leafBytes ≤
      (header d).table d lba.toNat * 512 := Nat.div_le_self _ _
  refine UInt64.toNat_inj.mp ?_
  rw [UInt64.toNat_div, hbytes, hmul, UInt64.toNat_ofNat_of_lt' (by norm_num [UInt64.size]; omega)]

theorem slot_lt : (header d).slot lba.toNat < (header d).entries := Nat.mod_lt _ h.entries

/-- The element of `leafs` begins before or at the grain table. -/
theorem run_leafsDat (htable : (header d).table d lba.toNat ≠ 0) :
    (leafsDat (UInt64.ofNat ((header d).table d lba.toNat * 512 / (header d).leafBytes))
      (UInt64.ofNat ((header d).slot lba.toNat))).run .little d =
    .ok (UInt64.ofNat (d.num (8 * ((header d).table d lba.toNat * 512 / (header d).leafBytes *
      (header d).leafBytes + 4 * (header d).slot lba.toNat)) 32)) := by
  have htab := h.table htable
  have hsize := d.size_lt
  have hent := h.entries_lt
  have hslot := h.slot_lt
  have hle : (header d).table d lba.toNat * 512 / (header d).leafBytes * (header d).leafBytes ≤
      (header d).table d lba.toNat * 512 := Nat.div_mul_le_self _ _
  generalize (header d).table d lba.toNat * 512 / (header d).leafBytes = q at hle
  have hmul : UInt64.ofNat q * UInt64.ofNat (8 * (header d).leafBytes) =
      UInt64.ofNat (8 * (q * (header d).leafBytes)) := by
    rw [← UInt64.ofNat_mul, Nat.mul_left_comm]
  have haddr : (UInt64.ofNat q * UInt64.ofNat (8 * (header d).leafBytes) +
      32 * UInt64.ofNat ((header d).slot lba.toNat)).toNat =
        8 * (q * (header d).leafBytes + 4 * (header d).slot lba.toNat) := by
    rw [hmul, UInt64.toNat_add, UInt64.toNat_mul, UInt64.toNat_ofNat', UInt64.toNat_ofNat']
    show (8 * (q * (header d).leafBytes) % 2 ^ 64 +
      32 * ((header d).slot lba.toNat % 2 ^ 64) % 2 ^ 64) % 2 ^ 64 = _
    omega
  rw [leafsDat, Prog.run_bind, h.run_sizeofL2, ok_bind,
    run_read h.sectors haddr _ (Nat.mul_mod_right _ _) rfl (by omega)]

theorem granularity_lt : (header d).granularity < 2 ^ 64 := by
  have hcov := h.coverage
  have hle := Nat.le_mul_of_pos_left (header d).granularity h.entries
  omega

theorem run_clusterOffset : (clusterOffset (lba * 512)).run .little d =
    .ok (UInt64.ofNat ((header d).leafGrain d lba.toNat) * 512) := by
  obtain ⟨m, hm, hiff⟩ := h.run_l1Size
  have hcap := h.capacity
  have hlt := h.lt
  have hcov := h.coverage
  have hback : lba * 512 / 512 = lba := by
    refine UInt64.toNat_inj.mp ?_
    rw [UInt64.toNat_div, UInt64.toNat_mul]
    show lba.toNat * 512 % 2 ^ 64 / 512 = _
    omega
  have hidx : lba / UInt64.ofNat ((header d).entries * (header d).granularity) =
      UInt64.ofNat ((header d).dirIdx lba.toNat) := by
    refine eq_ofNat ?_
    rw [UInt64.toNat_div, UInt64.toNat_ofNat_of_lt' (by norm_num [UInt64.size]; omega), Header.dirIdx]
  have hdirlt : (header d).dirIdx lba.toNat < 2 ^ 64 :=
    (Nat.div_le_self _ _).trans_lt lba.toNat_lt
  have hslot : lba / UInt64.ofNat (header d).granularity % UInt64.ofNat (header d).entries =
      UInt64.ofNat ((header d).slot lba.toNat) := by
    have hgran := h.granularity_lt
    have hent := h.entries_lt
    refine eq_ofNat ?_
    rw [UInt64.toNat_mod, UInt64.toNat_div,
      UInt64.toNat_ofNat_of_lt' (by norm_num [UInt64.size]; omega),
      UInt64.toNat_ofNat_of_lt' (by norm_num [UInt64.size]; omega), Header.slot]
  have hge : UInt64.ofNat ((header d).dirIdx lba.toNat) ≥ m ↔
      (header d).v4 = false ∧ 64 ≤ (header d).dirIdx lba.toNat := by
    rw [← hiff, ge_iff_le, UInt64.le_iff_toNat_le, UInt64.toNat_ofNat_of_lt' hdirlt]
  rw [clusterOffset, Prog.run_bind, h.run_l1EntrySectors, ok_bind, Prog.run_bind, hm, ok_bind, hback,
    hidx]
  by_cases hdir : (header d).v4 = false ∧ 64 ≤ (header d).dirIdx lba.toNat
  · rw [if_pos (hge.mpr hdir), Header.leafGrain, if_pos (Or.inl hdir)]
    rfl
  · rw [if_neg (mt hge.mp hdir), Prog.run_bind, h.run_l1Dat, ok_bind, Prog.run_bind, h.run_sizeofL2,
      ok_bind, h.leafIdx_eq]
    have hq64 : (header d).table d lba.toNat * 512 / (header d).leafBytes < 2 ^ 64 := by
      have htab : (header d).table d lba.toNat < 2 ^ 32 := d.num_lt _ _
      have hle := Nat.div_le_self ((header d).table d lba.toNat * 512) (header d).leafBytes
      omega
    by_cases hq : (header d).table d lba.toNat * 512 / (header d).leafBytes = 0
    · rw [if_pos ((ofNat_eq_zero_iff hq64).mpr hq), Header.leafGrain, if_pos (Or.inr hq)]
      rfl
    · have htable : (header d).table d lba.toNat ≠ 0 := by
        intro hzero
        rw [hzero, Nat.zero_mul, Nat.zero_div] at hq
        exact hq rfl
      rw [if_neg (mt (ofNat_eq_zero_iff hq64).mp hq), Prog.run_bind, h.run_clusterSectors, ok_bind,
        Prog.run_bind, h.run_l2Size, ok_bind, hslot, Prog.run_bind, h.run_leafsDat htable, ok_bind,
        Header.leafGrain, if_neg (not_or.mpr ⟨hdir, hq⟩)]
      rfl

/-- The sector that is found is one of the grain in `leafs`, or one of zeros. -/
theorem run_lbaToSectidx : (lbaToSectidx lba).run .little d =
    if (header d).leafGrain d lba.toNat = 0 then zeroSectorIdx.run .little d
    else .ok (UInt64.ofNat
      ((header d).leafGrain d lba.toNat + lba.toNat % (header d).granularity)) := by
  have hgrain : (header d).leafGrain d lba.toNat < 2 ^ 32 := leafGrain_lt
  have hgran := h.granularity_lt
  have hrun := h.run_clusterOffset
  generalize (header d).leafGrain d lba.toNat = g at hgrain hrun
  have hmul : (UInt64.ofNat g * 512).toNat = g * 512 := by
    rw [UInt64.toNat_mul, UInt64.toNat_ofNat']
    show g % 2 ^ 64 * 512 % 2 ^ 64 = _
    omega
  have hzero : UInt64.ofNat g * 512 = 0 ↔ g = 0 := by
    rw [← UInt64.toNat_inj, hmul]
    show g * 512 = 0 ↔ _
    omega
  have hdiv : UInt64.ofNat g * 512 / 512 = UInt64.ofNat g := by
    refine UInt64.toNat_inj.mp ?_
    rw [UInt64.toNat_div, hmul, UInt64.toNat_ofNat']
    show g * 512 / 512 = g % 2 ^ 64
    omega
  have hmod : lba % UInt64.ofNat (header d).granularity =
      UInt64.ofNat (lba.toNat % (header d).granularity) := by
    refine eq_ofNat ?_
    rw [UInt64.toNat_mod, UInt64.toNat_ofNat_of_lt' hgran]
  rw [lbaToSectidx, Prog.run_bind, hrun, ok_bind]
  by_cases hg : g = 0
  · rw [if_pos (hzero.mpr hg), if_pos hg]
  · rw [if_neg (mt hzero.mp hg), if_neg hg, Prog.run_bind, h.run_clusterSectors, ok_bind, hdiv, hmod,
      ← UInt64.ofNat_add]
    rfl

theorem toNat_found : (UInt64.ofNat ((header d).leafGrain d lba.toNat +
      lba.toNat % (header d).granularity)).toNat =
    (header d).leafGrain d lba.toNat + lba.toNat % (header d).granularity := by
  have hgrain : (header d).leafGrain d lba.toNat < 2 ^ 32 := leafGrain_lt
  have hcap := h.capacity
  have hlt := h.lt
  have hmod := Nat.mod_le lba.toNat (header d).granularity
  exact UInt64.toNat_ofNat_of_lt' (by norm_num [UInt64.size]; omega)

end Valid

/-- What the element of `leafs` has to hold for a sector to be found. -/
structure LeafMeets (d : Disk) (lba : UInt64) : Prop where
  empty : (header d).leafGrain d lba.toNat = 0 →
    ∃ i, FirstZero d i ∧ i < (header d).capacity ∧ ((header d).grain d lba.toNat ≠ 0 →
      i = (header d).grain d lba.toNat + lba.toNat % (header d).granularity)
  used : (header d).leafGrain d lba.toNat ≠ 0 →
    (header d).grain d lba.toNat = (header d).leafGrain d lba.toNat ∨
      (header d).grain d lba.toNat = 0 ∧
        ZeroSector d ((header d).leafGrain d lba.toNat + lba.toNat % (header d).granularity)

theorem Valid.findsSector_of (h : Valid d lba) (hmeets : LeafMeets d lba) : FindsSector d lba := by
  have hrun := h.run_lbaToSectidx
  have hcap := h.capacity
  by_cases hleaf : (header d).leafGrain d lba.toNat = 0
  · obtain ⟨i, hfirst, hlt, hgrain⟩ := hmeets.empty hleaf
    have hi : (UInt64.ofNat i).toNat = i :=
      UInt64.toNat_ofNat_of_lt' (by norm_num [UInt64.size]; omega)
    rw [if_pos hleaf] at hrun
    refine ⟨UInt64.ofNat i, hrun.trans ((h.run_zeroSectorIdx _).mpr (hi.symm ▸ ⟨hfirst, hlt⟩)), ?_⟩
    rw [hi]
    exact ⟨hgrain, fun _ => hfirst.1⟩
  · rw [if_neg hleaf] at hrun
    refine ⟨_, hrun, ?_⟩
    rw [h.toNat_found]
    rcases hmeets.used hleaf with heq | ⟨hzero, hsector⟩
    · exact ⟨fun _ => by rw [heq], fun hzero => absurd (heq.symm.trans hzero) hleaf⟩
    · exact ⟨fun hg => absurd hzero hg, fun _ => hsector⟩

theorem Valid.leafMeets_of (h : Valid d lba) (hfinds : FindsSector d lba) : LeafMeets d lba := by
  obtain ⟨i, hi, hsector, hzeros⟩ := hfinds
  rw [h.run_lbaToSectidx] at hi
  refine ⟨fun hleaf => ?_, fun hleaf => ?_⟩
  · rw [if_pos hleaf] at hi
    obtain ⟨hfirst, hlt⟩ := (h.run_zeroSectorIdx i).mp hi
    exact ⟨i.toNat, hfirst, hlt, hsector⟩
  · rw [if_neg hleaf] at hi
    rw [← Except.ok.inj hi, h.toNat_found] at hsector hzeros
    by_cases hg : (header d).grain d lba.toNat = 0
    · exact Or.inr ⟨hg, hzeros hg⟩
    · exact Or.inl (Nat.add_right_cancel (hsector hg)).symm

/-- A sector is found exactly if the element of `leafs` in which its grain table begins has the entry
of the table at the same place, or has another one that happens to lead to the right sector. -/
theorem findsSector_iff (d : Disk) (lba : UInt64) (h : Valid d lba) :
    FindsSector d lba ↔ LeafMeets d lba :=
  ⟨h.leafMeets_of, h.findsSector_of⟩

/-- In particular where the grain table begins where an element of `leafs` does. -/
theorem leafGrain_eq_grain (hh : Header) {n : ℕ} (hdir : ¬ (hh.v4 = false ∧ 64 ≤ hh.dirIdx n))
    (hpos : 0 < hh.leafBytes) (hdvd : hh.leafBytes ∣ hh.table d n * 512) :
    hh.leafGrain d n = hh.grain d n := by
  rw [Header.leafGrain, Header.grain, Nat.div_mul_cancel hdvd]
  by_cases hzero : hh.table d n = 0
  · rw [if_pos (Or.inr (by rw [hzero, Nat.zero_mul, Nat.zero_div])), if_pos hzero]
  · have hq : hh.table d n * 512 / hh.leafBytes ≠ 0 :=
      (Nat.div_pos (Nat.le_of_dvd (by omega) hdvd) hpos).ne'
    rw [if_neg (not_or.mpr ⟨hdir, hq⟩), if_neg hzero]

/-! ## A grain table in sector 3 -/

/-- The words of an image of version 4 of four sectors with `e` entries in a grain table: the grain
directory is sector 1. -/
def sampleWord (e c : ℕ) : ℕ :=
  if c = 0 then 0x564d444b
  else if c = 3 ∨ c = 5 ∨ c = 12 then 1
  else if c = 11 then e
  else if c = 18 then 0x0d200a00
  else if c = 19 then 0x0a
  else if c = 128 then 3
  else if c = 384 then 9
  else 0

def sample (e : ℕ) : Disk := Disk.ofCells 2048 32 (sampleWord e) (by decide)

theorem cell_sample {e c : ℕ} (he : e < 2 ^ 32) (hc : c < 512) :
    (sample e).cell 32 c = sampleWord e c := by
  refine Disk.cell_ofCells (by decide) (by omega) ?_
  unfold sampleWord
  split_ifs <;> omega

/-- A 64-bit field of two words. -/
theorem num_two_words (d : Disk) (c : ℕ) :
    d.num (32 * c) 64 = d.cell 32 c + 2 ^ 32 * d.cell 32 (c + 1) := by
  have hhigh : (fun i => d.bit (32 * c + (32 + i))) = fun i => d.bit (32 * (c + 1) + i) := by
    funext i
    rw [Nat.mul_add_one, Nat.add_assoc]
  rw [Disk.num, BitNum.ofBits_add _ 32 32, hhigh]
  rfl

theorem header_sample {e : ℕ} (he : e < 2 ^ 32) : header (sample e) = ⟨true, 1, 1, e, 1⟩ := by
  have hword : ∀ c, c < 512 → (sample e).num (32 * c) 32 = sampleWord e c := fun c hc =>
    cell_sample he hc
  have hpair : ∀ c, c < 511 → (sample e).num (32 * c) 64 =
      sampleWord e c + 2 ^ 32 * sampleWord e (c + 1) := fun c hc => by
    rw [num_two_words, cell_sample he (by omega), cell_sample he (by omega)]
  rw [header_v4 (hword 0 (by decide)), hpair 3 (by decide), hpair 5 (by decide),
    hword 11 (by decide), hpair 12 (by decide)]
  rfl

/-- The grain table of sector 0, and its entry. -/
theorem table_sample {e : ℕ} (he : e < 2 ^ 32) :
    (header (sample e)).table (sample e) 0 = 3 ∧ (header (sample e)).grain (sample e) 0 = 9 := by
  have htable : (header (sample e)).table (sample e) 0 = 3 := by
    rw [Header.table, header_sample he, Header.dirIdx, Nat.zero_div]
    show (sample e).num (8 * (1 * 512 + 4 * 0)) 32 = 3
    rw [show 8 * (1 * 512 + 4 * 0) = 32 * 128 from rfl]
    exact cell_sample (c := 128) he (by decide)
  refine ⟨htable, ?_⟩
  rw [Header.grain, htable, header_sample he, Header.slot, Nat.zero_div, Nat.zero_mod,
    if_neg (by decide)]
  exact cell_sample (c := 384) he (by decide)

theorem sample_valid {e : ℕ} (hpos : 0 < e) (he : e < 2 ^ 32) : Valid (sample e) 0 := by
  have htable := (table_sample he).1
  have h0 : (0 : UInt64).toNat = 0 := rfl
  have hmagic : (sample e).num 0 32 = 0x564d444b := cell_sample (c := 0) he (by decide)
  refine ⟨⟨4, rfl⟩, show 0 < 2048 by decide, Or.inr hmagic, ?_, ?_, ?_, ?_, ?_, ?_, fun _ => ?_⟩
  · rw [header_sample he]
    show 1 * 512 < 2 ^ 64
    decide
  · rw [header_sample he]
    exact hpos
  · rw [header_sample he]
    exact Nat.one_pos
  · rw [header_sample he]
    show 1 + e * 1 < 2 ^ 64
    omega
  · rw [header_sample he]
    exact Nat.one_pos
  · rw [header_sample he, h0, Header.dirIdx, Nat.zero_div]
    show 1 * 512 + 4 * 0 + 4 ≤ 2048
    decide
  · rw [h0, htable, header_sample he, Header.slot, Nat.zero_div, Nat.zero_mod]
    show 3 * 512 + 4 * 0 + 4 ≤ 2048
    decide

/-- With 32 entries to a grain table, every sector begins an element of `leafs`. -/
theorem findsSector_iff_aligned : FindsSector (sample 32) 0 := by
  have he : 32 < 2 ^ 32 := by decide
  have hleaf : (header (sample 32)).leafGrain (sample 32) 0 = 9 := by
    rw [leafGrain_eq_grain, (table_sample he).2]
    · rw [header_sample he]
      decide
    · rw [header_sample he]
      decide
    · rw [(table_sample he).1, header_sample he]
      decide
  have hleaf' : (header (sample 32)).leafGrain (sample 32) (0 : UInt64).toNat = 9 := hleaf
  refine (findsSector_iff (sample 32) 0 (sample_valid (by decide) he)).mpr ⟨fun hzero => ?_, fun _ => ?_⟩
  · rw [hleaf'] at hzero
    cases hzero
  · rw [hleaf']
    exact Or.inl (table_sample he).2

/-- With 64 entries the grain table in sector 3 begins in the element of `leafs` that begins in
sector 2, and sector 0 is not found. -/
theorem not_findsSector_odd : Valid (sample 64) 0 ∧ ¬ FindsSector (sample 64) 0 := by
  have he : 64 < 2 ^ 32 := by decide
  have hvalid := sample_valid (e := 64) (by decide) he
  have hgrain : (header (sample 64)).grain (sample 64) (0 : UInt64).toNat = 9 := (table_sample he).2
  have hleaf : (header (sample 64)).leafGrain (sample 64) (0 : UInt64).toNat = 0 := by
    rw [Header.leafGrain, show (0 : UInt64).toNat = 0 from rfl, (table_sample he).1, header_sample he]
    rw [if_neg (by decide), Header.slot, Nat.zero_div, Nat.zero_mod]
    exact cell_sample (c := 256) he (by decide)
  refine ⟨hvalid, fun hfinds => ?_⟩
  obtain ⟨i, -, hlt, hi⟩ := (hvalid.leafMeets_of hfinds).empty hleaf
  have hnine := hi (by rw [hgrain]; decide)
  rw [hgrain] at hnine
  rw [header_sample he] at hlt
  have hone : i < 1 := hlt
  omega

end Fsl.Vmdk
