import Fsl.Fs.MinixLens
import Fsl.Runtime.Virt

/-!
# The order of a minix file

`get_nth_v1` and `get_nth_v2` find a block of a file by adding the number of index zones before it,
which `get_file_meta` computes from a size. The virtual type `vfile` of an inode presents these blocks
as one address space.
-/

namespace Fsl.Minix

open Pread PtrTree PtrTree.Slot

/-- `get_file_blks` -/
def getFileBlks (sz : UInt64) : UInt64 := (sz + (1024 - 1)) / 1024

/-- `get_file_meta`. What follows the `/` of the last sum is grouped with its divisor. -/
def getFileMeta (v : Version) (sz : UInt64) : UInt64 :=
  let perIndir := UInt64.ofNat v.fmt.per
  let numBlocks := getFileBlks sz
  if numBlocks < 7 then 0
  else
    let numBlocks := numBlocks - 7
    if numBlocks ≤ perIndir then 1
    else
      let ret := 1 + (1 + numBlocks / perIndir)
      if numBlocks ≤ perIndir * perIndir then ret
      else
        let numBlocks := numBlocks - perIndir * perIndir
        let ret := ret + (1 + (numBlocks / (perIndir * perIndir + 1) +
          (numBlocks % (perIndir * perIndir)) / (perIndir + 1)))
        if numBlocks ≤ perIndir * perIndir * perIndir then ret else 99999999999

/-- `get_nth_v1` and `get_nth_v2`: the index in `disk.blocks`. -/
def getNth (v : Version) (ino blkoff : UInt64) : Prog UInt64 :=
  v.lookup ino (blkoff + getFileMeta v (blkoff * 1024))

/-- `vfile` of a file of `sz` bytes: the source elements are numbered from 1. -/
def vfileGeom (sz : UInt64) : Virt.Geom := ⟨1, getFileBlks sz, 8192⟩

/-- The address of a bit of `vfile`, as `fsl_virt_xlate_rtm` finds it behind its cache. -/
def vfileXlate (v : Version) (sz ino bitOff : UInt64) : Prog UInt64 := do
  fslAssert (bitOff < (vfileGeom sz).totalBits)
  let blk ← getNth v ino ((vfileGeom sz).index bitOff - 1)
  return blk * 8192 + bitOff % (vfileGeom sz).srcsz

/-- The slot of block `k` of a file, with `p` pointers to a zone. -/
def dataSlot (p k : ℕ) : Slot :=
  if k < 7 then direct k
  else if k < 7 + p then ind (k - 7)
  else leaf ((k - 7 - p) / p) ((k - 7 - p) % p)

/-- Block `k` of every file is found where the format puts it. -/
structure InOrder (v : Version) (k : UInt64) : Prop where
  zone : ∀ d ino, (getNth v ino k).run .little d =
    (readSlot v.fmt ino (dataSlot v.fmt.per k.toNat)).run .little d
  /-- In a file that uses no zone twice, an index zone is not found. -/
  data : ∀ d ino N, FileOn v.fmt d ino N →
    Set.InjOn (slotZone v.fmt d ino) (fileSlots v.fmt.per N) →
    dataSlot v.fmt.per k.toNat ∈ fileSlots v.fmt.per N →
    ∀ t ∈ fileSlots v.fmt.per N, t.isMeta = true →
      (getNth v ino k).run .little d ≠ .ok (UInt64.ofNat (slotZone v.fmt d ino t))
  /-- The bytes of the block are those of `vfile` from `k * BLK_SZ` on. -/
  bytes : ∀ d ino (sz r : UInt64), sz.toNat < 2 ^ 32 → r.toNat < 1024 →
    k.toNat * 1024 + r.toNat < sz.toNat →
    (vfileXlate v sz ino (8 * (k * 1024 + r))).run .little d =
      (readSlot v.fmt ino (dataSlot v.fmt.per k.toNat)).run .little d >>=
        fun blk => .ok (blk * 8192 + 8 * r)

variable {v : Version} {k : UInt64}

/-! ## The numbers of the blocks -/

theorem toNat_mul_of_lt {a b : UInt64} {i j : ℕ} (ha : a.toNat = i) (hb : b.toNat = j)
    (h : i * j < 2 ^ 64) : (a * b).toNat = i * j := by
  rw [UInt64.toNat_mul, ha, hb, Nat.mod_eq_of_lt h]

theorem toNat_add_of_lt {a b : UInt64} {i j : ℕ} (ha : a.toNat = i) (hb : b.toNat = j)
    (h : i + j < 2 ^ 64) : (a + b).toNat = i + j := by
  rw [UInt64.toNat_add, ha, hb, Nat.mod_eq_of_lt h]

theorem toNat_getFileBlks {sz : UInt64} (hsz : sz.toNat < 2 ^ 63) :
    (getFileBlks sz).toNat = (sz.toNat + 1023) / 1024 := by
  have hadd : (sz + (1024 - 1)).toNat = sz.toNat + 1023 := toNat_add_of_lt rfl rfl (by omega)
  rw [getFileBlks, UInt64.toNat_div, hadd]
  rfl

/-- The bytes before block `k`. -/
theorem toNat_blkOff (hk : k.toNat < 2 ^ 32) : (k * 1024).toNat = k.toNat * 1024 :=
  toNat_mul_of_lt (b := 1024) rfl rfl (by omega)

theorem getFileBlks_mul (hk : k.toNat < 2 ^ 32) : getFileBlks (k * 1024) = k := by
  have hmul := toNat_blkOff hk
  refine UInt64.toNat_inj.mp ?_
  rw [toNat_getFileBlks (by omega), hmul]
  omega

/-- What `get_file_meta` counts for the bytes before block `k`. -/
theorem toNat_getFileMeta (hk : k.toNat < 7 + v.fmt.per + v.fmt.per * v.fmt.per) :
    (getFileMeta v (k * 1024)).toNat =
      if k.toNat < 7 then 0
      else if k.toNat ≤ 7 + v.fmt.per then 1
      else if k.toNat ≤ 7 + v.fmt.per * v.fmt.per then 2 + (k.toNat - 7) / v.fmt.per
      else 3 + v.fmt.per := by
  cases v with
  | v1 =>
    have hp : Version.v1.fmt.per = 512 := rfl
    rw [hp] at hk
    have hblks : getFileBlks (k * 1024) = k := getFileBlks_mul (by omega)
    simp only [getFileMeta, hblks, hp, UInt64.lt_iff_toNat_lt, UInt64.le_iff_toNat_le,
      apply_ite UInt64.toNat, UInt64.toNat_sub, UInt64.toNat_add, UInt64.toNat_div,
      UInt64.toNat_mul, UInt64.toNat_mod, UInt64.reduceToNat, UInt64.reduceOfNat, Nat.reducePow,
      Nat.reduceMul, Nat.reduceMod, Nat.reduceAdd, Nat.reduceSub]
    split_ifs <;> omega
  | v2 =>
    have hp : Version.v2.fmt.per = 256 := rfl
    rw [hp] at hk
    have hblks : getFileBlks (k * 1024) = k := getFileBlks_mul (by omega)
    simp only [getFileMeta, hblks, hp, UInt64.lt_iff_toNat_lt, UInt64.le_iff_toNat_le,
      apply_ite UInt64.toNat, UInt64.toNat_sub, UInt64.toNat_add, UInt64.toNat_div,
      UInt64.toNat_mul, UInt64.toNat_mod, UInt64.reduceToNat, UInt64.reduceOfNat, Nat.reducePow,
      Nat.reduceMul, Nat.reduceMod, Nat.reduceAdd, Nat.reduceSub]
    split_ifs <;> omega

theorem Version.per_bounds (v : Version) : 256 ≤ v.fmt.per ∧ v.fmt.per ≤ 512 := by
  cases v <;> decide

/-- `get_file_meta` counts what lies before block `k`, but misses the zones of pointers in front of
the first block in the double-indirect range, and counts one too many behind `per * per` blocks. -/
theorem toNat_index (hk : k.toNat < 7 + v.fmt.per + v.fmt.per * v.fmt.per) :
    (k + getFileMeta v (k * 1024)).toNat =
      if k.toNat = 7 + v.fmt.per then metaIndex v.fmt.per bindir
      else if k.toNat ≤ 7 + v.fmt.per * v.fmt.per then
        metaIndex v.fmt.per (dataSlot v.fmt.per k.toNat)
      else metaIndex v.fmt.per (dataSlot v.fmt.per k.toNat) + 1 := by
  obtain ⟨hlow, hhigh⟩ := v.per_bounds
  have hmeta := toNat_getFileMeta hk
  generalize v.fmt.per = p at *
  have hle : p * 256 ≤ p * p := Nat.mul_le_mul_left _ hlow
  have hsq : p * p ≤ 512 * 512 := Nat.mul_le_mul hhigh hhigh
  rcases lt_or_ge k.toNat (7 + p) with hind | hdouble
  · rw [if_neg hind.ne, if_pos (by omega)]
    by_cases hdirect : k.toNat < 7
    · rw [if_pos hdirect] at hmeta
      rw [toNat_add_of_lt rfl hmeta (by omega), dataSlot, if_pos hdirect]
      rfl
    · rw [if_neg hdirect, if_pos hind.le] at hmeta
      rw [toNat_add_of_lt rfl hmeta (by omega), dataSlot, if_neg hdirect, if_pos hind]
      show k.toNat + 1 = 8 + (k.toNat - 7)
      omega
  rcases hdouble.eq_or_lt with heq | hgt
  · rw [if_neg (by omega), if_pos heq.ge] at hmeta
    rw [toNat_add_of_lt rfl hmeta (by omega), if_pos heq.symm, ← heq]
    show 7 + p + 1 = 8 + p
    omega
  -- block `x` of the double-indirect range is in zone `x / p` of pointers
  obtain ⟨x, hx⟩ : ∃ x, k.toNat = 7 + p + x := Nat.exists_eq_add_of_le hdouble
  have hslot : metaIndex p (dataSlot p k.toNat) = 10 + p + x + x / p := by
    have hsub : k.toNat - 7 - p = x := by omega
    have hdm := Nat.div_add_mod' x p
    rw [dataSlot, if_neg (by omega), if_neg (by omega), hsub, metaIndex, Nat.mul_add_one]
    omega
  rw [hslot, if_neg hgt.ne']
  by_cases hlast : k.toNat ≤ 7 + p * p
  · have hdiv : (k.toNat - 7) / p = 1 + x / p := by
      rw [show k.toNat - 7 = p + x by omega, Nat.add_div_left _ (by omega), Nat.add_comm]
    rw [if_neg (by omega), if_neg (by omega), if_pos hlast, hdiv] at hmeta
    have hxdiv : x / p ≤ x := Nat.div_le_self x p
    rw [if_pos hlast, toNat_add_of_lt rfl hmeta (by omega)]
    omega
  · have hdiv : x / p = p - 1 := by
      refine Nat.div_eq_of_lt_le ?_ ?_
      · rw [Nat.sub_one_mul]
        omega
      · rw [Nat.sub_add_cancel (by omega)]
        omega
    rw [if_neg (by omega), if_neg (by omega), if_neg hlast] at hmeta
    rw [if_neg hlast, toNat_add_of_lt rfl hmeta (by omega), hdiv]
    omega

theorem valid_dataSlot {p : ℕ} (hp : 0 < p) {i : ℕ} (hi : i < 7 + p + p * p) :
    Valid p (dataSlot p i) := by
  unfold dataSlot
  split_ifs with h1 h2
  · exact h1
  · show i - 7 < p
    omega
  · exact ⟨(Nat.div_lt_iff_lt_mul hp).mpr (by omega), Nat.mod_lt _ hp⟩

theorem isMeta_dataSlot (p i : ℕ) : (dataSlot p i).isMeta = false := by
  unfold dataSlot
  split_ifs <;> rfl

theorem metaIndex_lt_total {p : ℕ} {t : Slot} (ht : Valid p t) : metaIndex p t < total p := by
  have hzone : ∀ {q : ℕ}, q < p → q * (p + 1) + (p + 1) ≤ p * (p + 1) := fun hq => by
    rw [← Nat.add_one_mul]
    exact Nat.mul_le_mul_right _ hq
  unfold total
  cases t with
  | direct i =>
    have hi : i < 7 := ht
    show i < _
    omega
  | indir => exact Nat.lt_of_lt_of_le (show 7 < 9 by decide) (by omega)
  | ind i =>
    have hi : i < p := ht
    show 8 + i < _
    omega
  | bindir =>
    show 8 + p < _
    omega
  | bi q =>
    have hle := hzone (show q < p from ht)
    show 9 + p + q * (p + 1) < _
    omega
  | leaf q r =>
    have hle := hzone ht.1
    have hr : r < p := ht.2
    show 9 + p + (q * (p + 1) + (r + 1)) < _
    omega

/-! ## Blocks that are found -/

/-- Where the count agrees with the numbering, `get_nth` reads the pointer to the block. -/
theorem getNth_eq (hk : k.toNat < 7 + v.fmt.per + v.fmt.per * v.fmt.per)
    (hindir : k.toNat ≠ 7 + v.fmt.per) (hlast : k.toNat ≤ 7 + v.fmt.per * v.fmt.per)
    (ino : UInt64) : getNth v ino k = readSlot v.fmt ino (dataSlot v.fmt.per k.toNat) := by
  have hvalid := valid_dataSlot v.fmt.per_pos hk
  have hindex := toNat_index hk
  rw [if_neg hindir, if_pos hlast] at hindex
  have hlt : (k + getFileMeta v (k * 1024)).toNat < total v.fmt.per := by
    rw [hindex]
    exact metaIndex_lt_total hvalid
  rw [getNth, lookup_eq_readSlot v ino hlt, hindex, metaSlot_metaIndex hvalid]

theorem run_dataSlot_ne {d : Disk} {ino : UInt64} {N i : ℕ} (h : FileOn v.fmt d ino N)
    (hi : dataSlot v.fmt.per i ∈ fileSlots v.fmt.per N) (hinj : Set.InjOn (slotZone v.fmt d ino)
      (fileSlots v.fmt.per N)) {t : Slot} (ht : t ∈ fileSlots v.fmt.per N) (hm : t.isMeta = true) :
    (readSlot v.fmt ino (dataSlot v.fmt.per i)).run .little d ≠
      .ok (UInt64.ofNat (slotZone v.fmt d ino t)) := by
  rw [h.run_readSlot hi]
  intro heq
  have hnat : ∀ t', (UInt64.ofNat (slotZone v.fmt d ino t')).toNat = slotZone v.fmt d ino t' :=
    fun t' => toNat_ofNat_cell v.fmt d _
  have hzone := congrArg UInt64.toNat (Except.ok.inj heq)
  rw [hnat, hnat] at hzone
  rw [← hinj hi ht hzone, isMeta_dataSlot] at hm
  cases hm

/-- A bit of block `k` in `vfile`. -/
theorem run_vfileXlate {d : Disk} {ino sz r : UInt64} (hk : k.toNat < 2 ^ 32)
    (hsz : sz.toNat < 2 ^ 32) (hr : r.toNat < 1024) (hlt : k.toNat * 1024 + r.toNat < sz.toNat) :
    (vfileXlate v sz ino (8 * (k * 1024 + r))).run .little d =
      (getNth v ino k).run .little d >>= fun blk => .ok (blk * 8192 + 8 * r) := by
  have hk1024 := toNat_blkOff hk
  have hbyte : (k * 1024 + r).toNat = k.toNat * 1024 + r.toNat :=
    toNat_add_of_lt hk1024 rfl (by omega)
  have hbit : (8 * (k * 1024 + r)).toNat = 8 * (k.toNat * 1024 + r.toNat) :=
    toNat_mul_of_lt (a := 8) rfl hbyte (by omega)
  have hr8 : (8 * r).toNat = 8 * r.toNat := toNat_mul_of_lt (a := 8) rfl rfl (by omega)
  have hblks : (getFileBlks sz).toNat = (sz.toNat + 1023) / 1024 := toNat_getFileBlks (by omega)
  have htotal : (vfileGeom sz).totalBits.toNat = 8192 * ((sz.toNat + 1023) / 1024) := by
    refine toNat_mul_of_lt (a := 8192) rfl ?_ (by omega)
    show (getFileBlks sz - 1 + 1).toNat = _
    rw [UInt64.sub_add_cancel]
    exact hblks
  have hin : 8 * (k * 1024 + r) < (vfileGeom sz).totalBits := by
    rw [UInt64.lt_iff_toNat_lt, hbit, htotal]
    omega
  have hidx : (vfileGeom sz).index (8 * (k * 1024 + r)) - 1 = k := by
    rw [Virt.Geom.index]
    show _ / 8192 + 1 - 1 = k
    rw [UInt64.add_sub_cancel, ← UInt64.toNat_inj, UInt64.toNat_div, hbit]
    show _ / 8192 = _
    omega
  have hoff : 8 * (k * 1024 + r) % (vfileGeom sz).srcsz = 8 * r := by
    rw [← UInt64.toNat_inj, UInt64.toNat_mod, hbit, hr8]
    show _ % 8192 = _
    omega
  rw [vfileXlate, hidx, hoff, fslAssert, if_pos hin, pure_bind]
  exact Prog.run_bind _ _

theorem inOrder_of (hk : k.toNat < 7 + v.fmt.per + v.fmt.per * v.fmt.per)
    (hindir : k.toNat ≠ 7 + v.fmt.per) (hlast : k.toNat ≤ 7 + v.fmt.per * v.fmt.per) :
    InOrder v k := by
  obtain ⟨hlow, hhigh⟩ := v.per_bounds
  have hsq : v.fmt.per * v.fmt.per ≤ 512 * 512 := Nat.mul_le_mul hhigh hhigh
  have hk32 : k.toNat < 2 ^ 32 := by omega
  have hnth := getNth_eq hk hindir hlast
  refine ⟨fun d ino => by rw [hnth], fun d ino N h hinj hmem t ht hm => ?_,
    fun d ino sz r hsz hr hlt => ?_⟩
  · rw [hnth]
    exact run_dataSlot_ne h hmem hinj ht hm
  · rw [run_vfileXlate hk32 hsz hr hlt, hnth]

/-! ## Blocks that are missed -/

/-- The inode in zone 0, the double-indirect zone 1, all pointers of which are to zone 2. -/
def missCell (f : Fmt) (c : ℕ) : ℕ :=
  if c < f.per then (if c = f.first + 8 then 1 else 0)
  else if c < 2 * f.per then 2
  else c - 2 * f.per + 5

/-- A disk of three zones. -/
def missDisk (v : Version) : Disk := Disk.ofCells 3072 v.fmt.width (missCell v.fmt) (by norm_num)

theorem cell_missDisk {c : ℕ} (hc : c < 3 * v.fmt.per) :
    (missDisk v).cell v.fmt.width c = missCell v.fmt c := by
  obtain ⟨-, hhigh⟩ := v.per_bounds
  have hbits : v.fmt.width * (c + 1) ≤ v.fmt.width * (3 * v.fmt.per) := Nat.mul_le_mul_left _ hc
  have hzone : v.fmt.width * (3 * v.fmt.per) = 3 * 8192 := by
    rw [← v.fmt.zone_bits]
    ring
  have hpow : 2 ^ 16 ≤ 2 ^ v.fmt.width :=
    Nat.pow_le_pow_right (by decide) (by cases v <;> decide)
  rw [Nat.mul_add_one] at hbits
  refine Disk.cell_ofCells (by norm_num) (by omega) ?_
  unfold missCell
  split_ifs <;> omega

theorem run_missDisk {a : UInt64} {c : ℕ} (hc : c < 3 * v.fmt.per) (ha : a.toNat = v.fmt.width * c) :
    (v.fmt.read a).run .little (missDisk v) = .ok (UInt64.ofNat (missCell v.fmt c)) := by
  have hbits : v.fmt.width * (c + 1) ≤ v.fmt.width * (3 * v.fmt.per) := Nat.mul_le_mul_left _ hc
  have hzone : v.fmt.width * (3 * v.fmt.per) = 3 * 8192 := by
    rw [← v.fmt.zone_bits]
    ring
  rw [Nat.mul_add_one] at hbits
  have hon : OnDisk v.fmt (missDisk v) c := by
    show v.fmt.width * c + v.fmt.width ≤ 8 * 3072
    omega
  rw [run_cell (show 32 ∣ (missDisk v).size from ⟨96, rfl⟩) ha, if_pos hon, cell_missDisk hc]

theorem run_missDisk_bindir :
    (v.fmt.read (v.fmt.zone 0 8)).run .little (missDisk v) = .ok 1 := by
  cases v with
  | v1 => exact run_missDisk (v := .v1) (c := 15) (by decide) (by decide)
  | v2 => exact run_missDisk (v := .v2) (c := 14) (by decide) (by decide)

theorem run_missDisk_bi {q : ℕ} (hq : q < v.fmt.per) :
    (v.fmt.read (ptr v.fmt.width 1 (UInt64.ofNat q))).run .little (missDisk v) = .ok 2 := by
  rw [run_missDisk (c := entry v.fmt 1 q) (by rw [entry]; omega) (toNat_ptr (z := 1) (by decide) hq),
    missCell, entry, if_neg (by omega), if_pos (by omega)]
  rfl

theorem run_missDisk_leaf {r : ℕ} (hr : r < v.fmt.per) :
    (v.fmt.read (ptr v.fmt.width 2 (UInt64.ofNat r))).run .little (missDisk v) =
      .ok (UInt64.ofNat (r + 5)) := by
  rw [run_missDisk (c := entry v.fmt 2 r) (by rw [entry]; omega) (toNat_ptr (z := 2) (by decide) hr),
    missCell, entry, if_neg (by omega), if_neg (by omega), Nat.add_sub_cancel_left]

theorem run_missDisk_leafSlot {q r : ℕ} (hq : q < v.fmt.per) (hr : r < v.fmt.per) :
    (readSlot v.fmt 0 (leaf q r)).run .little (missDisk v) = .ok (UInt64.ofNat (r + 5)) := by
  simp only [readSlot, slotAddr, Prog.run_bind, run_missDisk_bindir, ok_bind, run_missDisk_bi hq,
    Prog.run_pure, run_missDisk_leaf hr]

/-- The index behind the double-indirect range is looked up behind the double-indirect zone. -/
theorem lookup_total (v : Version) (ino : UInt64) {n : UInt64} (hn : n.toNat = total v.fmt.per) :
    v.lookup ino n = readSlot v.fmt ino (bi v.fmt.per) := by
  cases v with
  | v1 =>
    obtain rfl : n = 263177 := UInt64.toNat_inj.mp hn
    show getNthMeta v1 (fun _ => pure 0) ino 263177 = _
    unfold getNthMeta
    dsimp only
    rw [if_neg (by decide), if_neg (by decide), if_neg (by decide), if_neg (by decide)]
    simp only [if_pos (show (263177 - 7 - 1 - UInt64.ofNat v1.per - 1) % (UInt64.ofNat v1.per + 1) = 0
      by decide), readSlot, slotAddr, bind_assoc, pure_bind, bind_pure]
    rfl
  | v2 =>
    obtain rfl : n = 66057 := UInt64.toNat_inj.mp hn
    show getNthMeta v2 (fun off => if off = 0 then v2.read (v2.zone ino 9) else pure 99999999999) ino
      66057 = _
    unfold getNthMeta
    dsimp only
    rw [if_neg (by decide), if_neg (by decide), if_neg (by decide), if_neg (by decide)]
    simp only [if_pos (show (66057 - 7 - 1 - UInt64.ofNat v2.per - 1) % (UInt64.ofNat v2.per + 1) = 0
      by decide), readSlot, slotAddr, bind_assoc, pure_bind, bind_pure]
    rfl

theorem run_missDisk_total :
    (readSlot v.fmt 0 (bi v.fmt.per)).run .little (missDisk v) = .ok 5 := by
  have hread : (v.fmt.read (ptr v.fmt.width 1 (UInt64.ofNat v.fmt.per))).run .little (missDisk v) =
      .ok 5 := by
    have hnext : ptr v.fmt.width 1 (UInt64.ofNat v.fmt.per) =
        ptr v.fmt.width 2 (UInt64.ofNat 0) := by
      cases v <;> decide
    rw [hnext, run_missDisk_leaf v.fmt.per_pos]
    rfl
  simp only [readSlot, slotAddr, Prog.run_bind, run_missDisk_bindir, ok_bind, Prog.run_pure, hread]

/-- The index behind block `k`, near the end of the range. -/
theorem run_missDisk_next {n : UInt64} {r : ℕ} (hr : r < v.fmt.per)
    (hn : n.toNat = metaIndex v.fmt.per (leaf (v.fmt.per - 1) r) + 1) :
    (v.lookup 0 n).run .little (missDisk v) =
      .ok (if r + 1 < v.fmt.per then UInt64.ofNat (r + 6) else 5) := by
  have hpos := v.fmt.per_pos
  by_cases hlast : r + 1 < v.fmt.per
  · have hvalid : Valid v.fmt.per (leaf (v.fmt.per - 1) (r + 1)) := ⟨by omega, hlast⟩
    have hidx : n.toNat = metaIndex v.fmt.per (leaf (v.fmt.per - 1) (r + 1)) := hn
    rw [lookup_eq_readSlot v 0 (hidx ▸ metaIndex_lt_total hvalid), hidx, metaSlot_metaIndex hvalid,
      run_missDisk_leafSlot (by omega) hlast, if_pos hlast]
  · have htotal : n.toNat = total v.fmt.per := by
      obtain ⟨p, hp⟩ := Nat.exists_eq_add_of_lt hpos
      have hr' : r = p := by omega
      rw [hn, hp, hr', metaIndex, total]
      simp only [Nat.zero_add, Nat.add_sub_cancel]
      ring
    rw [lookup_total v 0 htotal, run_missDisk_total, if_neg hlast]

/-- What is found at the wrong index is another zone. -/
theorem run_missDisk_ne (hk : k.toNat < 7 + v.fmt.per + v.fmt.per * v.fmt.per)
    (hbad : k.toNat = 7 + v.fmt.per ∨ 7 + v.fmt.per * v.fmt.per < k.toNat) :
    (getNth v 0 k).run .little (missDisk v) ≠
      (readSlot v.fmt 0 (dataSlot v.fmt.per k.toNat)).run .little (missDisk v) := by
  obtain ⟨hlow, hhigh⟩ := v.per_bounds
  have hindex := toNat_index hk
  have hle : v.fmt.per * 256 ≤ v.fmt.per * v.fmt.per := Nat.mul_le_mul_left _ hlow
  have hne : ∀ {z i : ℕ}, z < 2 ^ 32 → i < 2 ^ 32 → z ≠ i →
      (Except.ok (UInt64.ofNat z) : Except Stop UInt64) ≠ .ok (UInt64.ofNat i) := by
    intro z i hz hi hzi heq
    have hnat := congrArg UInt64.toNat (Except.ok.inj heq)
    rw [UInt64.toNat_ofNat_of_lt' (by norm_num [UInt64.size]; omega),
      UInt64.toNat_ofNat_of_lt' (by norm_num [UInt64.size]; omega)] at hnat
    exact hzi hnat
  rcases hbad with hindir | hlast
  · -- the double-indirect zone itself
    rw [if_pos hindir] at hindex
    have hlt : (k + getFileMeta v (k * 1024)).toNat < total v.fmt.per := by
      rw [hindex]
      exact metaIndex_lt_total (t := bindir) trivial
    have hslot : dataSlot v.fmt.per k.toNat = leaf 0 0 := by
      rw [dataSlot, if_neg (by omega), if_neg (by omega), hindir, Nat.add_sub_cancel_left, Nat.sub_self,
        Nat.zero_div, Nat.zero_mod]
    rw [getNth, lookup_eq_readSlot v 0 hlt, hindex, metaSlot_metaIndex (t := bindir) trivial, hslot,
      run_missDisk_leafSlot v.fmt.per_pos v.fmt.per_pos]
    show ((v.fmt.read (v.fmt.zone 0 8)).run .little (missDisk v)) ≠ _
    rw [run_missDisk_bindir]
    exact hne (z := 1) (by decide) (by decide) (by decide)
  · -- one index too far
    have hdiv : (k.toNat - 7 - v.fmt.per) / v.fmt.per = v.fmt.per - 1 := by
      refine Nat.div_eq_of_lt_le ?_ ?_
      · rw [Nat.sub_one_mul]
        omega
      · rw [Nat.sub_add_cancel (by omega)]
        omega
    have hr := Nat.mod_lt (k.toNat - 7 - v.fmt.per) v.fmt.per_pos
    have hslot : dataSlot v.fmt.per k.toNat =
        leaf (v.fmt.per - 1) ((k.toNat - 7 - v.fmt.per) % v.fmt.per) := by
      rw [dataSlot, if_neg (by omega), if_neg (by omega), hdiv]
    rw [if_neg (by omega), if_neg (by omega), hslot] at hindex
    rw [getNth, run_missDisk_next hr hindex, hslot, run_missDisk_leafSlot (by omega) hr]
    split_ifs
    · exact hne (by omega) (by omega) (by omega)
    · exact hne (z := 5) (by omega) (by omega) (by omega)

/-- Block `k` of every file is found where the format puts it exactly if it is not the first block in
the double-indirect range nor one of its last `per - 1` blocks. -/
theorem inOrder_iff (v : Version) (k : UInt64)
    (hk : k.toNat < 7 + v.fmt.per + v.fmt.per * v.fmt.per) :
    InOrder v k ↔ k.toNat ≠ 7 + v.fmt.per ∧ k.toNat ≤ 7 + v.fmt.per * v.fmt.per := by
  refine ⟨fun h => ?_, fun ⟨hindir, hlast⟩ => inOrder_of hk hindir hlast⟩
  by_contra hbad
  refine run_missDisk_ne hk ?_ (h.zone (missDisk v) 0)
  omega

/-- A block behind the indirect zone of a V2 file. -/
theorem inOrder_iff_indirect : InOrder .v2 200 :=
  (inOrder_iff .v2 200 (by decide)).mpr (by decide)

/-- Block 519 of a V1 file is the first one of the double-indirect range; its double-indirect zone is
found. -/
theorem not_inOrder_double : ¬ InOrder .v1 519 :=
  fun h => run_missDisk_ne (v := .v1) (k := 519) (by decide) (by decide) (h.zone (missDisk .v1) 0)

end Fsl.Minix
