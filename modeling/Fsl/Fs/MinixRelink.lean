import Fsl.Fs.Minix

/-!
# Relinking a zone of a minix file

The lookups of both formats read the pointer that the numbering gives. The relink packet of V1
writes another one in most of the double-indirect range; that of V2 takes the zones of 32-bit
pointers for zones of 16-bit ones.
-/

namespace Fsl.Minix

open Pread PtrTree PtrTree.Slot

/-! ## The numbering -/

/-- The slot with number `m`, with `p` pointers to a zone. -/
def metaSlot (p m : ℕ) : Slot :=
  if m < 7 then direct m
  else if m = 7 then indir
  else if m < 8 + p then ind (m - 8)
  else if m = 8 + p then bindir
  else if (m - 9 - p) % (p + 1) = 0 then bi ((m - 9 - p) / (p + 1))
  else leaf ((m - 9 - p) / (p + 1)) ((m - 9 - p) % (p + 1) - 1)

/-- The number of a slot. -/
def metaIndex (p : ℕ) : Slot → ℕ
  | direct i => i
  | indir => 7
  | ind i => 8 + i
  | bindir => 8 + p
  | bi q => 9 + p + q * (p + 1)
  | leaf q r => 9 + p + (q * (p + 1) + (r + 1))

/-- The indices of a slot are indices of its arrays. -/
def Valid (p : ℕ) : Slot → Prop
  | direct i => i < 7
  | ind i => i < p
  | bi q => q < p
  | leaf q r => q < p ∧ r < p
  | indir | bindir => True

/-- The slots of a file of `N` zones, data and metadata. -/
def fileSlots (p N : ℕ) : Set Slot := {t | Valid p t ∧ metaIndex p t < N}

/-- All numbers in the direct, indirect and double-indirect range. -/
def total (p : ℕ) : ℕ := 9 + p + p * (p + 1)

theorem metaIndex_metaSlot (p m : ℕ) : metaIndex p (metaSlot p m) = m := by
  have hdm := Nat.div_add_mod' (m - 9 - p) (p + 1)
  unfold metaSlot
  split_ifs <;> simp only [metaIndex] <;> omega

theorem valid_metaSlot {p m : ℕ} (hm : m < total p) : Valid p (metaSlot p m) := by
  unfold total at hm
  have hq : (m - 9 - p) / (p + 1) < p ∨ m < 9 + p := by
    by_cases h : m < 9 + p
    · exact Or.inr h
    · exact Or.inl ((Nat.div_lt_iff_lt_mul (by omega)).mpr (by omega))
  have hr := Nat.mod_lt (m - 9 - p) (show 0 < p + 1 by omega)
  unfold metaSlot
  split_ifs <;> simp only [Valid] <;> omega

theorem metaSlot_mem {p N m : ℕ} (hN : N ≤ total p) (hm : m < N) : metaSlot p m ∈ fileSlots p N :=
  ⟨valid_metaSlot (by omega), by rw [metaIndex_metaSlot]; exact hm⟩

theorem path_mem_fileSlots {p N : ℕ} {t t' : Slot} (ht : t ∈ fileSlots p N) (h : t' ∈ t.path) :
    t' ∈ fileSlots p N := by
  obtain ⟨hv, hlt⟩ := ht
  cases t <;> simp only [path, List.mem_cons, List.not_mem_nil, or_false] at h <;>
    simp only [Valid] at hv <;> simp only [metaIndex] at hlt
  case ind i =>
    rcases h with rfl | rfl
    · exact ⟨trivial, by simp only [metaIndex]; omega⟩
    · exact ⟨hv, hlt⟩
  case bi q =>
    rcases h with rfl | rfl
    · exact ⟨trivial, by simp only [metaIndex]; omega⟩
    · exact ⟨hv, hlt⟩
  case leaf q r =>
    rcases h with rfl | rfl | rfl
    · exact ⟨trivial, by simp only [metaIndex]; omega⟩
    · exact ⟨hv.1, by simp only [metaIndex]; omega⟩
    · exact ⟨hv, hlt⟩
  all_goals
    subst h
    exact ⟨hv, hlt⟩

/-! ## Slots on the disk -/

variable {f : Fmt} {d : Disk} {ino : UInt64} {N : ℕ}

/-- The pointers of an inode, as cells. -/
def inodeRoot (f : Fmt) (ino : UInt64) : Root where
  direct i := ino.toNat / f.width + f.first + i
  indir := ino.toNat / f.width + f.first + 7
  bindir := ino.toNat / f.width + f.first + 8

/-- The cell of pointer `i` of zone `z`. -/
def entry (f : Fmt) (z i : ℕ) : ℕ := z * f.per + i

abbrev slotCell (f : Fmt) (d : Disk) (ino : UInt64) (t : Slot) : ℕ :=
  addr (entry f) (inodeRoot f ino) (d.cell f.width) t

/-- The zone number in a slot. -/
abbrev slotZone (f : Fmt) (d : Disk) (ino : UInt64) (t : Slot) : ℕ :=
  val (entry f) (inodeRoot f ino) (d.cell f.width) t

/-- Code for the address of a slot. -/
def slotAddr (f : Fmt) (ino : UInt64) : Slot → Prog UInt64
  | direct i => pure (f.zone ino (UInt64.ofNat i))
  | indir => pure (f.zone ino 7)
  | bindir => pure (f.zone ino 8)
  | ind i => do return ptr f.width (← f.read (f.zone ino 7)) (UInt64.ofNat i)
  | bi q => do return ptr f.width (← f.read (f.zone ino 8)) (UInt64.ofNat q)
  | leaf q r => do
    let bindir ← f.read (f.zone ino 8)
    let indir ← f.read (ptr f.width bindir (UInt64.ofNat q))
    return ptr f.width indir (UInt64.ofNat r)

def readSlot (f : Fmt) (ino : UInt64) (t : Slot) : Prog UInt64 := slotAddr f ino t >>= f.read

def writeSlot (f : Fmt) (ino : UInt64) (t : Slot) (b : UInt64) : Prog (List WlogEnt) := do
  return [writeVal (← slotAddr f ino t) (UInt64.ofNat f.width) b]

/-- A file of `N` zones whose zones of pointers lie on the disk, are distinct, and do not hold its
inode. -/
structure FileOn (f : Fmt) (d : Disk) (ino : UInt64) (N : ℕ) : Prop where
  lines : 32 ∣ d.size
  aligned : f.width ∣ ino.toNat
  inside : ino.toNat + 16 * f.width ≤ 8 * d.size
  range : N ≤ total f.per
  onDisk : ∀ t ∈ fileSlots f.per N, t.isMeta = true → (slotZone f d ino t + 1) * 1024 ≤ d.size
  inj : Set.InjOn (slotZone f d ino) {t | t ∈ fileSlots f.per N ∧ t.isMeta = true}
  apart : ∀ t ∈ fileSlots f.per N, t.isMeta = true →
    ∀ c, c < 16 → (ino.toNat / f.width + c) / f.per ≠ slotZone f d ino t

/-- Zone `b` lies on the disk and is used neither by the file nor for its inode. -/
structure Unused (f : Fmt) (d : Disk) (ino : UInt64) (N : ℕ) (b : UInt64) : Prop where
  lt : b.toNat < 2 ^ f.width
  onDisk : (b.toNat + 1) * 1024 ≤ d.size
  unused : ∀ t ∈ fileSlots f.per N, slotZone f d ino t ≠ b.toNat
  apart : ∀ c, c < 16 → (ino.toNat / f.width + c) / f.per ≠ b.toNat

/-- Zone `b` holds a copy of the pointers in the zone of an indirect slot. -/
def CopyOf (f : Fmt) (d : Disk) (ino b : UInt64) (t : Slot) : Prop :=
  t.isMeta = true → ∀ i, i < f.per →
    d.cell f.width (entry f b.toNat i) = d.cell f.width (entry f (slotZone f d ino t) i)

theorem Fmt.per_pos (f : Fmt) : 0 < f.per := by
  rcases Nat.eq_zero_or_pos f.per with h | h
  · have := f.zone_bits
    rw [h] at this
    omega
  · exact h

/-- Cell `c` lies on the disk. -/
def OnDisk (f : Fmt) (d : Disk) (c : ℕ) : Prop := f.width * c + f.width ≤ 8 * d.size

instance (f : Fmt) (d : Disk) (c : ℕ) : Decidable (OnDisk f d c) := Nat.decLe _ _

theorem run_cell (h32 : 32 ∣ d.size) {a : UInt64} {c : ℕ} (ha : a.toNat = f.width * c) :
    (f.read a).run .little d =
      if OnDisk f d c then .ok (UInt64.ofNat (d.cell f.width c)) else .error .assertion :=
  Prog.run_field_cell h32 _ f.bytes ha

theorem toNat_ofNat_cell (f : Fmt) (d : Disk) (c : ℕ) :
    (UInt64.ofNat (d.cell f.width c)).toNat = d.cell f.width c := by
  have hpow : 2 ^ f.width ≤ 2 ^ 32 := Nat.pow_le_pow_right (by omega) f.width_ok.2
  have hlt := d.cell_lt f.width c
  exact UInt64.toNat_ofNat_of_lt' (by norm_num [UInt64.size]; omega)

theorem entry_onDisk {z i : ℕ} (hz : (z + 1) * 1024 ≤ d.size) (hi : i < f.per) :
    OnDisk f d (entry f z i) := by
  have hmul : f.width * (entry f z i) + f.width = z * 8192 + f.width * (i + 1) := by
    rw [entry, ← f.zone_bits]
    ring
  have hle : f.width * (i + 1) ≤ 8192 := f.zone_bits ▸ Nat.mul_le_mul_left _ hi
  rw [OnDisk, hmul]
  omega

/-- The address of a pointer of a zone. -/
theorem toNat_ptr {z : UInt64} {i : ℕ} (hz : z.toNat < 2 ^ 32) (hi : i < f.per) :
    (ptr f.width z (UInt64.ofNat i)).toNat = f.width * entry f z.toNat i := by
  have hle : f.width * i ≤ 8192 := f.zone_bits ▸ Nat.mul_le_mul_left _ hi.le
  have hper : f.per ≤ 8192 := f.zone_bits ▸ Nat.le_mul_of_pos_left _ f.width_ok.1
  have hw : (UInt64.ofNat f.width).toNat = f.width :=
    UInt64.toNat_ofNat_of_lt' (by have := f.width_ok.2; norm_num [UInt64.size]; omega)
  have hni : (UInt64.ofNat i).toNat = i := UInt64.toNat_ofNat_of_lt' (by norm_num [UInt64.size]; omega)
  have hmul : f.width * entry f z.toNat i = z.toNat * 8192 + f.width * i := by
    rw [entry, ← f.zone_bits]
    ring
  rw [ptr, UInt64.toNat_add, UInt64.toNat_mul, UInt64.toNat_mul, hw, hni, hmul]
  show (z.toNat * 8192 % 2 ^ 64 + f.width * i % 2 ^ 64) % 2 ^ 64 = _
  omega

namespace FileOn

theorem cell_onDisk (h : FileOn f d ino N) {c : ℕ} (hc : c < 16) :
    OnDisk f d (ino.toNat / f.width + c) := by
  have hin := h.inside
  have hdiv : f.width * (ino.toNat / f.width) = ino.toNat := Nat.mul_div_cancel' h.aligned
  have hle : f.width * (c + 1) ≤ f.width * 16 := Nat.mul_le_mul_left _ hc
  rw [OnDisk, Nat.mul_add, hdiv]
  rw [Nat.mul_add] at hle
  omega

/-- The address of a pointer of the inode. -/
theorem toNat_zone (h : FileOn f d ino N) {i : UInt64} (hi : i.toNat < 9) :
    (f.zone ino i).toNat = f.width * (ino.toNat / f.width + (f.first + i.toNat)) := by
  have hsize := d.size_lt
  have hin := h.inside
  have hfirst := f.first_le
  have hw := f.width_ok
  have hdiv : f.width * (ino.toNat / f.width) = ino.toNat := Nat.mul_div_cancel' h.aligned
  have hle : f.width * (f.first + i.toNat) ≤ f.width * 16 := Nat.mul_le_mul_left _ (by omega)
  have hle1 : f.width * f.first ≤ f.width * 16 := Nat.mul_le_mul_left _ (by omega)
  have hwn : (UInt64.ofNat f.width).toNat = f.width :=
    UInt64.toNat_ofNat_of_lt' (by norm_num [UInt64.size]; omega)
  have hfn : (UInt64.ofNat (f.width * f.first)).toNat = f.width * f.first :=
    UInt64.toNat_ofNat_of_lt' (by norm_num [UInt64.size]; omega)
  rw [Nat.mul_add] at hle
  rw [Fmt.zone, UInt64.toNat_add, UInt64.toNat_add, UInt64.toNat_mul, hwn, hfn, Nat.mul_add, hdiv,
    Nat.mul_add]
  show (ino.toNat + (f.width * f.first + f.width * i.toNat % 2 ^ 64) % 2 ^ 64) % 2 ^ 64 = _
  omega

/-- A pointer of the inode reads as its zone number. -/
theorem run_zone (h : FileOn f d ino N) {i : UInt64} (hi : i.toNat < 9) :
    (f.read (f.zone ino i)).run .little d =
      .ok (UInt64.ofNat (d.cell f.width (ino.toNat / f.width + (f.first + i.toNat)))) := by
  have hfirst := f.first_le
  rw [run_cell h.lines (h.toNat_zone hi), if_pos (h.cell_onDisk (by omega))]

theorem slot_onDisk (h : FileOn f d ino N) {t : Slot} (ht : t ∈ fileSlots f.per N) :
    OnDisk f d (slotCell f d ino t) := by
  have hfirst := f.first_le
  cases hp : t.parent with
  | none =>
    cases t with
    | direct i =>
      have hi : i < 7 := ht.1
      have hd := h.cell_onDisk (c := f.first + i) (by omega)
      rwa [← Nat.add_assoc] at hd
    | indir =>
      have hd := h.cell_onDisk (c := f.first + 7) (by omega)
      rwa [← Nat.add_assoc] at hd
    | bindir =>
      have hd := h.cell_onDisk (c := f.first + 8) (by omega)
      rwa [← Nat.add_assoc] at hd
    | ind i => cases hp
    | bi q => cases hp
    | leaf q r => cases hp
  | some x =>
    obtain ⟨t', i⟩ := x
    have hi : i < f.per := by
      cases t <;> simp only [parent, Option.some.injEq, Prod.mk.injEq, reduceCtorEq] at hp
      case ind j =>
        obtain ⟨rfl, rfl⟩ := hp
        exact ht.1
      case bi q =>
        obtain ⟨rfl, rfl⟩ := hp
        exact ht.1
      case leaf q r =>
        obtain ⟨rfl, rfl⟩ := hp
        exact ht.1.2
    rw [slotCell, addr_of_parent hp]
    exact entry_onDisk (h.onDisk t' (path_mem_fileSlots ht (mem_path_of_parent hp))
      (isMeta_of_parent hp)) hi

end FileOn

/-! ## The reader -/

theorem Fmt.per_le (f : Fmt) : f.per ≤ 8192 := f.zone_bits ▸ Nat.le_mul_of_pos_left _ f.width_ok.1

theorem Fmt.toNat_per (f : Fmt) : (UInt64.ofNat f.per).toNat = f.per :=
  UInt64.toNat_ofNat_of_lt' (by have := f.per_le; norm_num [UInt64.size]; omega)

/-- `get_nth_meta_v1_bnum` and `get_nth_meta_v2_bnum` read the pointer that the numbering gives. -/
theorem getNthMeta_eq (f : Fmt) (rest : UInt64 → Prog UInt64) (ino : UInt64) {n : UInt64}
    (hn : n.toNat < total f.per) :
    getNthMeta f rest ino n = readSlot f ino (metaSlot f.per n.toNat) := by
  have hle := f.per_le
  have hpos := f.per_pos
  have hper := f.toNat_per
  have h7 : 7 ≤ n.toNat → (n - 7).toNat = n.toNat - 7 := toNat_sub rfl rfl
  have h8 : 8 ≤ n.toNat → (n - 7 - 1).toNat = n.toNat - 8 := fun h =>
    (toNat_sub (h7 (by omega)) (show (1 : UInt64).toNat = 1 from rfl) (by omega)).trans (by omega)
  have hp : 8 + f.per ≤ n.toNat →
      (n - 7 - 1 - UInt64.ofNat f.per).toNat = n.toNat - 8 - f.per := fun h =>
    toNat_sub (h8 (by omega)) hper (by omega)
  have hlt7 : n < 7 ↔ n.toNat < 7 := UInt64.lt_iff_toNat_lt
  unfold getNthMeta metaSlot
  dsimp only
  by_cases c1 : n.toNat < 7
  · rw [if_pos (hlt7.mpr c1), if_pos c1, readSlot, slotAddr, pure_bind, UInt64.ofNat_toNat]
  have hz : n - 7 = 0 ↔ n.toNat = 7 := by
    rw [← UInt64.toNat_inj, h7 (by omega)]
    show n.toNat - 7 = 0 ↔ _
    omega
  rw [if_neg (mt hlt7.mp c1), if_neg c1]
  by_cases c2 : n.toNat = 7
  · rw [if_pos (hz.mpr c2), if_pos c2]
    rfl
  have hind : n - 7 - 1 < UInt64.ofNat f.per ↔ n.toNat < 8 + f.per := by
    rw [UInt64.lt_iff_toNat_lt, h8 (by omega), hper]
    omega
  rw [if_neg (mt hz.mp c2), if_neg c2]
  by_cases c3 : n.toNat < 8 + f.per
  · rw [if_pos (hind.mpr c3), if_pos c3, readSlot, slotAddr, eq_ofNat (h8 (by omega)), bind_assoc]
    simp only [pure_bind]
  have hb : n - 7 - 1 - UInt64.ofNat f.per = 0 ↔ n.toNat = 8 + f.per := by
    rw [← UInt64.toNat_inj, hp (by omega)]
    show _ = 0 ↔ _
    omega
  rw [if_neg (mt hind.mp c3), if_neg c3]
  by_cases c4 : n.toNat = 8 + f.per
  · rw [if_pos (hb.mpr c4), if_pos c4]
    rfl
  -- in the double-indirect range
  rw [if_neg (mt hb.mp c4), if_neg c4]
  obtain ⟨x, hx⟩ : ∃ x, n.toNat = 9 + f.per + x := Nat.exists_eq_add_of_le (by omega)
  have hxlt : x < f.per * (f.per + 1) := by
    unfold total at hn
    omega
  have hsub : n.toNat - 9 - f.per = x := by omega
  have hoff : (n - 7 - 1 - UInt64.ofNat f.per - 1).toNat = x :=
    (toNat_sub (hp (by omega)) (show (1 : UInt64).toNat = 1 from rfl) (by omega)).trans (by omega)
  have hp1 : (UInt64.ofNat f.per + 1).toNat = f.per + 1 := by
    rw [UInt64.toNat_add, hper]
    show (f.per + 1) % 2 ^ 64 = _
    omega
  have hq : ((n - 7 - 1 - UInt64.ofNat f.per - 1) / (UInt64.ofNat f.per + 1)).toNat =
      x / (f.per + 1) := by
    rw [UInt64.toNat_div, hoff, hp1]
  have hm : (n - 7 - 1 - UInt64.ofNat f.per - 1) % (UInt64.ofNat f.per + 1) = 0 ↔
      x % (f.per + 1) = 0 := by
    rw [← UInt64.toNat_inj, UInt64.toNat_mod, hoff, hp1]
    rfl
  rw [hsub]
  generalize n - 7 - 1 - UInt64.ofNat f.per - 1 = off at hoff hq hm ⊢
  rw [eq_ofNat hq]
  have hqlt : x / (f.per + 1) < f.per := (Nat.div_lt_iff_lt_mul (by omega)).mpr hxlt
  by_cases c5 : x % (f.per + 1) = 0
  · simp only [if_pos (hm.mpr c5), if_pos c5, readSlot, slotAddr, bind_assoc, pure_bind, bind_pure]
  · have hdm := Nat.div_add_mod' x (f.per + 1)
    have hml := Nat.mod_lt x (show 0 < f.per + 1 by omega)
    have hsq : f.per * f.per ≤ 8192 * 8192 := Nat.mul_le_mul hle hle
    have hqp : x / (f.per + 1) * (f.per + 1) = f.per * (x / (f.per + 1)) + x / (f.per + 1) := by
      ring
    have hq1 : (UInt64.ofNat (x / (f.per + 1)) + 1).toNat = x / (f.per + 1) + 1 := by
      rw [← eq_ofNat hq, UInt64.toNat_add, hq]
      show (_ + 1) % 2 ^ 64 = _
      omega
    have hback : (off - (UInt64.ofNat (x / (f.per + 1)) + 1)).toNat =
        f.per * (x / (f.per + 1)) + (x % (f.per + 1) - 1) :=
      (toNat_sub hoff hq1 (by omega)).trans (by omega)
    have hin : off - (UInt64.ofNat (x / (f.per + 1)) + 1) <
        UInt64.ofNat f.per * UInt64.ofNat f.per := by
      have hmul : f.per * (x / (f.per + 1) + 1) ≤ f.per * f.per := Nat.mul_le_mul_left _ hqlt
      rw [Nat.mul_add, Nat.mul_one] at hmul
      rw [UInt64.lt_iff_toNat_lt, UInt64.toNat_mul, hper, hback,
        Nat.mod_eq_of_lt (hsq.trans_lt (by norm_num))]
      omega
    have hidx : (off - (UInt64.ofNat (x / (f.per + 1)) + 1)) % UInt64.ofNat f.per =
        UInt64.ofNat (x % (f.per + 1) - 1) := by
      refine eq_ofNat ?_
      rw [UInt64.toNat_mod, hback, hper, Nat.mul_add_mod, Nat.mod_eq_of_lt (by omega)]
    simp only [if_neg (mt hm.mp c5), if_neg c5, if_pos hin, hidx, readSlot, slotAddr, bind_assoc,
      pure_bind]

/-! ## The pointer of a slot -/

/-- The address of a pointer in the zone that a slot names. -/
theorem toNat_entry (f : Fmt) (d : Disk) (ino : UInt64) (t : Slot) {i : ℕ} (hi : i < f.per) :
    (ptr f.width (UInt64.ofNat (slotZone f d ino t)) (UInt64.ofNat i)).toNat =
      f.width * entry f (slotZone f d ino t) i := by
  have hz : (UInt64.ofNat (slotZone f d ino t)).toNat = slotZone f d ino t :=
    toNat_ofNat_cell f d (slotCell f d ino t)
  have hpow : 2 ^ f.width ≤ 2 ^ 32 := Nat.pow_le_pow_right (by omega) f.width_ok.2
  have hlt : slotZone f d ino t < 2 ^ 32 := (d.cell_lt f.width _).trans_le hpow
  have hptr := toNat_ptr (f := f) (z := UInt64.ofNat (slotZone f d ino t)) (hz.symm ▸ hlt) hi
  rwa [hz] at hptr

/-- The address of a slot in a zone of pointers. -/
theorem toNat_slot (d : Disk) (ino : UInt64) {t t' : Slot} {i : ℕ}
    (hp : t.parent = some (t', i)) (hi : i < f.per) :
    (ptr f.width (UInt64.ofNat (slotZone f d ino t')) (UInt64.ofNat i)).toNat =
      f.width * slotCell f d ino t := by
  have hcell : slotCell f d ino t = entry f (slotZone f d ino t') i := addr_of_parent hp
  rw [hcell]
  exact toNat_entry f d ino t' hi

namespace FileOn

theorem run_indir (h : FileOn f d ino N) :
    (f.read (f.zone ino 7)).run .little d = .ok (UInt64.ofNat (slotZone f d ino indir)) := by
  rw [h.run_zone (i := 7) (by decide), ← Nat.add_assoc]
  rfl

theorem run_bindir (h : FileOn f d ino N) :
    (f.read (f.zone ino 8)).run .little d = .ok (UInt64.ofNat (slotZone f d ino bindir)) := by
  rw [h.run_zone (i := 8) (by decide), ← Nat.add_assoc]
  rfl

/-- The code for the address of a slot returns it where the slots above belong to the file. -/
theorem run_slotAddr_of_path (h : FileOn f d ino N) {t : Slot} (hv : Valid f.per t)
    (hpath : ∀ t' ∈ t.path, t' ≠ t → t' ∈ fileSlots f.per N) :
    ∃ a, (slotAddr f ino t).run .little d = .ok a ∧ a.toNat = f.width * slotCell f d ino t := by
  cases t with
  | direct i =>
    have hi : i < 7 := hv
    have hin : (UInt64.ofNat i).toNat = i :=
      UInt64.toNat_ofNat_of_lt' (by norm_num [UInt64.size]; omega)
    refine ⟨_, rfl, (h.toNat_zone (by omega)).trans ?_⟩
    rw [hin, ← Nat.add_assoc]
    rfl
  | indir =>
    refine ⟨_, rfl, (h.toNat_zone (i := 7) (by decide)).trans ?_⟩
    rw [← Nat.add_assoc]
    rfl
  | bindir =>
    refine ⟨_, rfl, (h.toNat_zone (i := 8) (by decide)).trans ?_⟩
    rw [← Nat.add_assoc]
    rfl
  | ind i =>
    refine ⟨_, ?_, toNat_slot d ino rfl hv⟩
    rw [slotAddr, Prog.run_bind, h.run_indir]
    rfl
  | bi q =>
    refine ⟨_, ?_, toNat_slot d ino rfl hv⟩
    rw [slotAddr, Prog.run_bind, h.run_bindir]
    rfl
  | leaf q r =>
    have hbi : bi q ∈ fileSlots f.per N := hpath (bi q) (by simp [path]) (by simp)
    refine ⟨_, ?_, toNat_slot d ino rfl hv.2⟩
    rw [slotAddr, Prog.run_bind, h.run_bindir, ok_bind, Prog.run_bind,
      run_cell h.lines (toNat_slot (t := bi q) d ino rfl hbi.1), if_pos (h.slot_onDisk hbi)]
    rfl

theorem run_slotAddr (h : FileOn f d ino N) {t : Slot} (ht : t ∈ fileSlots f.per N) :
    ∃ a, (slotAddr f ino t).run .little d = .ok a ∧ a.toNat = f.width * slotCell f d ino t :=
  h.run_slotAddr_of_path ht.1 fun _ ht' _ => path_mem_fileSlots ht ht'

/-- A pointer of the file reads as its zone number. -/
theorem run_readSlot (h : FileOn f d ino N) {t : Slot} (ht : t ∈ fileSlots f.per N) :
    (readSlot f ino t).run .little d = .ok (UInt64.ofNat (slotZone f d ino t)) := by
  obtain ⟨a, ha, hat⟩ := h.run_slotAddr ht
  rw [readSlot, Prog.run_bind, ha, ok_bind, run_cell h.lines hat, if_pos (h.slot_onDisk ht)]
  rfl

/-- The lookup of an index of the file. -/
theorem run_getNthMeta (h : FileOn f d ino N) (rest : UInt64 → Prog UInt64) {n : UInt64}
    (hn : n.toNat < N) : (getNthMeta f rest ino n).run .little d =
      .ok (UInt64.ofNat (slotZone f d ino (metaSlot f.per n.toNat))) := by
  rw [getNthMeta_eq f rest ino (hn.trans_le h.range)]
  exact h.run_readSlot (metaSlot_mem h.range hn)

end FileOn

/-! ## What a write to a slot changes -/

theorem entry_inj {z z' i i' : ℕ} (hi : i < f.per) (hi' : i' < f.per)
    (h : entry f z i = entry f z' i') : z = z' ∧ i = i' := by
  have hdiv := congrArg (· / f.per) h
  have hmod := congrArg (· % f.per) h
  simp only [entry, Nat.mul_comm _ f.per, Nat.mul_add_div f.per_pos, Nat.mul_add_mod,
    Nat.div_eq_of_lt hi, Nat.div_eq_of_lt hi', Nat.mod_eq_of_lt hi, Nat.mod_eq_of_lt hi',
    Nat.add_zero] at hdiv hmod
  exact ⟨hdiv, hmod⟩

theorem entry_div {z i : ℕ} (hi : i < f.per) : entry f z i / f.per = z := by
  rw [entry, Nat.mul_comm, Nat.mul_add_div f.per_pos, Nat.div_eq_of_lt hi, Nat.add_zero]

/-- The index of a slot of the file in its zone. -/
theorem lt_of_parent {p : ℕ} {t t' : Slot} {i : ℕ} (ht : t ∈ fileSlots p N)
    (h : t.parent = some (t', i)) : i < p := by
  cases t <;> simp only [parent, Option.some.injEq, Prod.mk.injEq, reduceCtorEq] at h
  case ind j =>
    obtain ⟨rfl, rfl⟩ := h
    exact ht.1
  case bi q =>
    obtain ⟨rfl, rfl⟩ := h
    exact ht.1
  case leaf q r =>
    obtain ⟨rfl, rfl⟩ := h
    exact ht.1.2

/-- The pointers in the inode of a file. -/
theorem root_cell (f : Fmt) (ino : UInt64) {p : ℕ} {t : Slot} (ht : t ∈ fileSlots p N)
    (h : t.parent = none) :
    ∃ c, c < 9 ∧ (∀ d, slotCell f d ino t = ino.toNat / f.width + (f.first + c)) ∧
      (t = direct c ∧ c < 7 ∨ t = indir ∧ c = 7 ∨ t = bindir ∧ c = 8) := by
  cases t with
  | direct i =>
    have hi : i < 7 := ht.1
    exact ⟨i, by omega, fun _ => Nat.add_assoc _ _ _, Or.inl ⟨rfl, hi⟩⟩
  | indir => exact ⟨7, by omega, fun _ => Nat.add_assoc _ _ _, Or.inr (Or.inl ⟨rfl, rfl⟩)⟩
  | bindir => exact ⟨8, by omega, fun _ => Nat.add_assoc _ _ _, Or.inr (Or.inr ⟨rfl, rfl⟩)⟩
  | ind i => cases h
  | bi q => cases h
  | leaf q r => cases h

namespace FileOn

/-- No two slots of the file share a pointer. -/
theorem inUse (h : FileOn f d ino N) :
    InUse (entry f) (inodeRoot f ino) (d.cell f.width) (fileSlots f.per N) := by
  have hfirst := f.first_le
  refine InUse.of_distinct (p := f.per) (fun b b' i i' hi hi' heq => entry_inj hi hi' heq)
    (fun t ht t' ht' => path_mem_fileSlots ht ht') (fun t ht t' i hp => lt_of_parent ht hp) h.inj
    ?_ ?_
  · rintro t ⟨ht, hp⟩ t' ⟨ht', hp'⟩ heq
    obtain ⟨c, -, hc, hslot⟩ := root_cell f ino ht hp
    obtain ⟨c', -, hc', hslot'⟩ := root_cell f ino ht' hp'
    have hcc : c = c' := by
      have h1 := hc d
      have h2 := hc' d
      change slotCell f d ino t = slotCell f d ino t' at heq
      omega
    subst hcc
    rcases hslot with ⟨rfl, h1⟩ | ⟨rfl, h1⟩ | ⟨rfl, h1⟩ <;>
      rcases hslot' with ⟨rfl, h2⟩ | ⟨rfl, h2⟩ | ⟨rfl, h2⟩ <;> first | rfl | omega
  · intro t ht hp t' ht' hm i hi heq
    obtain ⟨c, hlt, hc, -⟩ := root_cell f ino ht hp
    refine h.apart t' ht' hm (f.first + c) (by omega) ?_
    rw [← hc d]
    exact (congrArg (· / f.per) heq).trans (entry_div hi)

/-- Where the disk changes in the pointer of one slot, to an unused zone number, the zone of this slot
changes and no other does; the file stays in order. -/
theorem of_update (h : FileOn f d ino N) {b : UInt64} (hb : Unused f d ino N b) {t : Slot}
    (ht : t ∈ fileSlots f.per N) (hcopy : CopyOf f d ino b t) {e : Disk} (hsize : e.size = d.size)
    (hcell : e.cell f.width = Function.update (d.cell f.width) (slotCell f d ino t) b.toNat) :
    FileOn f e ino N ∧ slotZone f e ino t = b.toNat ∧
      ∀ t' ∈ fileSlots f.per N, t' ≠ t → slotZone f e ino t' = slotZone f d ino t' := by
  have hfirst := f.first_le
  -- zone `b` holds what the lookups below the slot will find
  have hlens : slotZone f e ino t = b.toNat ∧
      ∀ t' ∈ fileSlots f.per N, t' ≠ t → slotZone f e ino t' = slotZone f d ino t' := by
    unfold slotZone
    rw [hcell]
    refine h.inUse.val_relink ht fun t' ht' i hp => ⟨?_, ?_⟩
    · rw [hcopy (isMeta_of_parent hp) i (lt_of_parent ht' hp)]
      exact (congrArg (d.cell f.width) (addr_of_parent hp)).symm
    · intro heq
      have hzone : entry f b.toNat i / f.per = b.toNat := entry_div (lt_of_parent ht' hp)
      rw [heq] at hzone
      cases hq : t.parent with
      | none =>
        obtain ⟨c, hlt, hc, -⟩ := root_cell f ino ht hq
        rw [show addr (entry f) (inodeRoot f ino) (d.cell f.width) t = _ from hc d] at hzone
        exact hb.apart (f.first + c) (by omega) hzone
      | some x =>
        obtain ⟨t'', j⟩ := x
        rw [addr_of_parent hq, entry_div (lt_of_parent ht hq)] at hzone
        exact hb.unused t'' (path_mem_fileSlots ht (mem_path_of_parent hq)) hzone
  refine ⟨?_, hlens⟩
  refine ⟨hsize.symm ▸ h.lines, h.aligned, hsize.symm ▸ h.inside, h.range, ?_, ?_, ?_⟩
  · intro t' ht' hm
    rw [hsize]
    by_cases htt : t' = t
    · rw [htt, hlens.1]
      exact hb.onDisk
    · rw [hlens.2 t' ht' htt]
      exact h.onDisk t' ht' hm
  · rintro t₁ ⟨ht₁, hm₁⟩ t₂ ⟨ht₂, hm₂⟩ heq
    by_cases h₁ : t₁ = t
    · by_cases h₂ : t₂ = t
      · exact h₁.trans h₂.symm
      · rw [h₁, hlens.1, hlens.2 t₂ ht₂ h₂] at heq
        exact absurd heq.symm (hb.unused t₂ ht₂)
    · by_cases h₂ : t₂ = t
      · rw [h₂, hlens.1, hlens.2 t₁ ht₁ h₁] at heq
        exact absurd heq (hb.unused t₁ ht₁)
      · rw [hlens.2 t₁ ht₁ h₁, hlens.2 t₂ ht₂ h₂] at heq
        exact h.inj ⟨ht₁, hm₁⟩ ⟨ht₂, hm₂⟩ heq
  · intro t' ht' hm c hc
    by_cases htt : t' = t
    · rw [htt, hlens.1]
      exact hb.apart c hc
    · rw [hlens.2 t' ht' htt]
      exact h.apart t' ht' hm c hc

/-- The write of an unused zone number to a slot of the file. -/
theorem writeSlot_cell (h : FileOn f d ino N) {b : UInt64} (hb : b.toNat < 2 ^ f.width) {t : Slot}
    (ht : t ∈ fileSlots f.per N) :
    ∃ ws, (writeSlot f ino t b).run .little d = .ok ws ∧ ws.length = 1 ∧
      (∀ we ∈ ws, we.Fits d.size) ∧
      (d.applyAll ws).cell f.width =
        Function.update (d.cell f.width) (slotCell f d ino t) b.toNat := by
  have hwidth := f.width_ok
  have hsz : (UInt64.ofNat f.width).toNat = f.width :=
    UInt64.toNat_ofNat_of_lt' (by norm_num [UInt64.size]; omega)
  obtain ⟨a, ha, hat⟩ := h.run_slotAddr ht
  obtain ⟨hfits, hcell, -⟩ :=
    writeVal_cell (b := b) ⟨hwidth.1, by omega⟩ f.bytes hsz hat (h.slot_onDisk ht)
  rw [Nat.mod_eq_of_lt hb] at hcell
  refine ⟨[writeVal a (UInt64.ofNat f.width) b], ?_, rfl, List.forall_mem_singleton.mpr hfits, hcell⟩
  rw [writeSlot, Prog.run_bind, ha]
  rfl

end FileOn

end Fsl.Minix
