import Mathlib
import Fsl.Fs.MinixRelink

/-!
# The relink packets of minix

Which pointers the packets of both formats write, and where this makes relinking and lookup a lens.
-/

namespace Fsl.Minix

open Pread PtrTree PtrTree.Slot

/-- The two formats. V3 shares the inodes of V2. -/
inductive Version
  | v1 | v2
  deriving DecidableEq, Repr

namespace Version

def fmt : Version → Fmt
  | v1 => Minix.v1
  | v2 => Minix.v2

def pkt : Version → Pkt
  | v1 => .blockRelinkMetaV1
  | v2 => .blockRelinkMetaV2

/-- `get_nth_meta_v1_bnum` and `get_nth_meta_v2_bnum`. -/
def lookup : Version → UInt64 → UInt64 → Prog UInt64
  | v1 => getNthMetaV1Bnum
  | v2 => getNthMetaV2Bnum

/-- What the last statement of the packet counts from. -/
def base : Version → UInt64
  | v1 => bindirBaseV1
  | v2 => bindirBaseV2

end Version

/-- Relinking index `n` to zone `b`: the packet commits, then the lookup of `n` gives `b` and that of
every other index of the numbering gives what it gave. -/
def RelinksMeta (v : Version) (d : Disk) (ino : UInt64) (N : ℕ) (n b : UInt64) : Prop :=
  ∃ d', Commits .little pkts 1 v.pkt [ino, n, b] d d' ∧
    (v.lookup ino n).run .little d' = .ok b ∧
    ∀ m : UInt64, m.toNat < N → m ≠ n →
      (v.lookup ino m).run .little d' = (v.lookup ino m).run .little d

variable {v : Version} {f : Fmt} {d e : Disk} {ino n b : UInt64} {N : ℕ} {t : Slot}

theorem Version.lookup_eq (v : Version) (ino : UInt64) :
    ∃ rest, v.lookup ino = getNthMeta v.fmt rest ino := by
  cases v with
  | v1 => exact ⟨fun _ => pure 0, rfl⟩
  | v2 =>
    exact ⟨fun off => if off = 0 then Minix.v2.read (Minix.v2.zone ino 9) else pure 99999999999, rfl⟩

theorem FileOn.run_lookup (h : FileOn v.fmt d ino N) (hn : n.toNat < N) :
    (v.lookup ino n).run .little d =
      .ok (UInt64.ofNat (slotZone v.fmt d ino (metaSlot v.fmt.per n.toNat))) := by
  obtain ⟨rest, hrest⟩ := v.lookup_eq ino
  rw [hrest]
  exact h.run_getNthMeta rest hn

theorem lookup_eq_readSlot (v : Version) (ino : UInt64) (hn : n.toNat < total v.fmt.per) :
    v.lookup ino n = readSlot v.fmt ino (metaSlot v.fmt.per n.toNat) := by
  obtain ⟨rest, hrest⟩ := v.lookup_eq ino
  rw [hrest]
  exact getNthMeta_eq v.fmt rest ino hn

theorem metaSlot_metaIndex {p : ℕ} (ht : Valid p t) : metaSlot p (metaIndex p t) = t := by
  cases t with
  | direct i =>
    have hi : i < 7 := ht
    show metaSlot p i = _
    rw [metaSlot, if_pos hi]
  | indir => rfl
  | ind i =>
    have hi : i < p := ht
    have h1 : ¬ 8 + i < 7 := by omega
    have h2 : ¬ 8 + i = 7 := by omega
    have h3 : 8 + i < 8 + p := by omega
    simp only [metaIndex, metaSlot, if_neg h1, if_neg h2, if_pos h3, Nat.add_sub_cancel_left]
  | bindir =>
    have h1 : ¬ 8 + p < 7 := by omega
    have h2 : ¬ 8 + p = 7 := by omega
    simp only [metaIndex, metaSlot, if_neg h1, if_neg h2, lt_irrefl, if_false, if_true]
  | bi q =>
    have h1 : ¬ 9 + p + q * (p + 1) < 7 := by omega
    have h2 : ¬ 9 + p + q * (p + 1) = 7 := by omega
    have h3 : ¬ 9 + p + q * (p + 1) < 8 + p := by omega
    have h4 : ¬ 9 + p + q * (p + 1) = 8 + p := by omega
    have h5 : 9 + p + q * (p + 1) - 9 - p = q * (p + 1) := by omega
    simp only [metaIndex, metaSlot, if_neg h1, if_neg h2, if_neg h3, if_neg h4, h5,
      Nat.mul_mod_left, if_true, Nat.mul_div_cancel _ (show 0 < p + 1 by omega)]
  | leaf q r =>
    have hr : r < p := ht.2
    obtain ⟨x, hx⟩ : ∃ x, x = q * (p + 1) + (r + 1) := ⟨_, rfl⟩
    have h1 : ¬ 9 + p + x < 7 := by omega
    have h2 : ¬ 9 + p + x = 7 := by omega
    have h3 : ¬ 9 + p + x < 8 + p := by omega
    have h4 : ¬ 9 + p + x = 8 + p := by omega
    have h5 : 9 + p + x - 9 - p = x := by omega
    have hmod : x % (p + 1) = r + 1 := by
      rw [hx, Nat.mul_comm, Nat.mul_add_mod, Nat.mod_eq_of_lt (by omega)]
    have hdiv : x / (p + 1) = q := by
      rw [hx, Nat.mul_comm, Nat.mul_add_div (by omega), Nat.div_eq_of_lt (by omega), Nat.add_zero]
    have h6 : ¬ r + 1 = 0 := by omega
    simp only [metaIndex, ← hx, metaSlot, if_neg h1, if_neg h2, if_neg h3, if_neg h4, h5, hmod,
      if_neg h6, hdiv, Nat.add_sub_cancel]

/-! ## Reading the pointers back -/

/-- The lookup of a slot reads the cell it read before where the cells on the way to it are the
same. -/
theorem FileOn.run_readSlot_of_agree (h : FileOn f d ino N) (hsize : e.size = d.size)
    (ht : t ∈ fileSlots f.per N)
    (hpath : ∀ t' ∈ t.path, t' ≠ t →
      e.cell f.width (slotCell f d ino t') = d.cell f.width (slotCell f d ino t')) :
    (readSlot f ino t).run .little e = .ok (UInt64.ofNat (e.cell f.width (slotCell f d ino t))) := by
  have h32 : 32 ∣ e.size := hsize.symm ▸ h.lines
  have hread : ∀ {a : UInt64} {t' : Slot}, t' ∈ fileSlots f.per N →
      a.toNat = f.width * slotCell f d ino t' →
      (f.read a).run .little e = .ok (UInt64.ofNat (e.cell f.width (slotCell f d ino t'))) := by
    intro a t' ht' ha
    have hon : OnDisk f e (slotCell f d ino t') := by
      rw [OnDisk, hsize]
      exact h.slot_onDisk ht'
    rw [run_cell h32 ha, if_pos hon]
  obtain ⟨a, ha, hat⟩ := h.run_slotAddr ht
  have haddr : (slotAddr f ino t).run .little e = (slotAddr f ino t).run .little d := by
    cases t with
    | direct i => rfl
    | indir => rfl
    | bindir => rfl
    | ind i =>
      have hin : indir ∈ fileSlots f.per N := path_mem_fileSlots ht (by simp [path])
      have hat' : (f.zone ino 7).toNat = f.width * slotCell f d ino indir := by
        rw [h.toNat_zone (i := 7) (by decide), ← Nat.add_assoc]
        rfl
      have hcell := hpath indir (by simp [path]) (by simp)
      rw [slotAddr, Prog.run_bind, Prog.run_bind, hread hin hat', h.run_indir, hcell]
      rfl
    | bi q =>
      have hin : bindir ∈ fileSlots f.per N := path_mem_fileSlots ht (by simp [path])
      have hat' : (f.zone ino 8).toNat = f.width * slotCell f d ino bindir := by
        rw [h.toNat_zone (i := 8) (by decide), ← Nat.add_assoc]
        rfl
      have hcell := hpath bindir (by simp [path]) (by simp)
      rw [slotAddr, Prog.run_bind, Prog.run_bind, hread hin hat', h.run_bindir, hcell]
      rfl
    | leaf q r =>
      have hin : bindir ∈ fileSlots f.per N := path_mem_fileSlots ht (by simp [path])
      have hbi : bi q ∈ fileSlots f.per N := path_mem_fileSlots ht (by simp [path])
      have hat' : (f.zone ino 8).toNat = f.width * slotCell f d ino bindir := by
        rw [h.toNat_zone (i := 8) (by decide), ← Nat.add_assoc]
        rfl
      have hcell := hpath bindir (by simp [path]) (by simp)
      have hcell' := hpath (bi q) (by simp [path]) (by simp)
      rw [slotAddr, Prog.run_bind, Prog.run_bind, hread hin hat', h.run_bindir, hcell]
      change ((f.read (ptr f.width (UInt64.ofNat (slotZone f d ino bindir)) (UInt64.ofNat q)) >>= _ :
          Prog UInt64)).run .little e =
        ((f.read (ptr f.width (UInt64.ofNat (slotZone f d ino bindir)) (UInt64.ofNat q)) >>= _ :
          Prog UInt64)).run .little d
      rw [Prog.run_bind, Prog.run_bind, hread hbi (toNat_slot (t := bi q) d ino rfl hbi.1), hcell',
        run_cell h.lines (toNat_slot (t := bi q) d ino rfl hbi.1), if_pos (h.slot_onDisk hbi)]
      rfl
  rw [readSlot, Prog.run_bind, haddr, ha, ok_bind, hread ht hat]

/-- Where the lookups of the slots above a slot give what they gave, so do their cells. -/
theorem FileOn.agree_of_run (h : FileOn f d ino N) (hsize : e.size = d.size)
    (ht : t ∈ fileSlots f.per N)
    (hrun : ∀ t' ∈ t.path, t' ≠ t →
      (readSlot f ino t').run .little e = (readSlot f ino t').run .little d) :
    ∀ t' ∈ t.path, t' ≠ t →
      e.cell f.width (slotCell f d ino t') = d.cell f.width (slotCell f d ino t') := by
  have hstep : ∀ t' ∈ fileSlots f.per N,
      (∀ t'' ∈ t'.path, t'' ≠ t' →
        e.cell f.width (slotCell f d ino t'') = d.cell f.width (slotCell f d ino t'')) →
      (readSlot f ino t').run .little e = (readSlot f ino t').run .little d →
      e.cell f.width (slotCell f d ino t') = d.cell f.width (slotCell f d ino t') := by
    intro t' ht' hpath heq
    rw [h.run_readSlot_of_agree hsize ht' hpath, h.run_readSlot ht'] at heq
    have hnat := congrArg UInt64.toNat (Except.ok.inj heq)
    rwa [toNat_ofNat_cell, show UInt64.toNat (UInt64.ofNat (slotZone f d ino t')) = _ from
      toNat_ofNat_cell f d _] at hnat
  have hroot : ∀ t' ∈ t.path, t' ≠ t → t'.path = [t'] →
      e.cell f.width (slotCell f d ino t') = d.cell f.width (slotCell f d ino t') := by
    intro t' ht' hne hp
    refine hstep t' (path_mem_fileSlots ht ht') (fun t'' ht'' hne' => ?_) (hrun t' ht' hne)
    rw [hp, List.mem_singleton] at ht''
    exact absurd ht'' hne'
  intro t' ht' hne
  cases t with
  | leaf q r =>
    simp only [path, List.mem_cons, List.not_mem_nil, or_false] at ht'
    rcases ht' with rfl | rfl | rfl
    · exact hroot bindir (by simp [path]) hne rfl
    · -- the second level, below the double-indirect slot
      refine hstep (bi q) (path_mem_fileSlots ht (by simp [path])) (fun t'' ht'' hne' => ?_)
        (hrun _ (by simp [path]) hne)
      simp only [path, List.mem_cons, List.not_mem_nil, or_false] at ht''
      rcases ht'' with rfl | rfl
      · exact hroot bindir (by simp [path]) (by simp) rfl
      · exact absurd rfl hne'
    · exact absurd rfl hne
  | ind i =>
    simp only [path, List.mem_cons, List.not_mem_nil, or_false] at ht'
    rcases ht' with rfl | rfl
    · exact hroot indir (by simp [path]) hne rfl
    · exact absurd rfl hne
  | bi q =>
    simp only [path, List.mem_cons, List.not_mem_nil, or_false] at ht'
    rcases ht' with rfl | rfl
    · exact hroot bindir (by simp [path]) hne rfl
    · exact absurd rfl hne
  | direct i => exact absurd (List.mem_singleton.mp ht') hne
  | indir => exact absurd (List.mem_singleton.mp ht') hne
  | bindir => exact absurd (List.mem_singleton.mp ht') hne

/-- A packet that relinks a slot puts the zone number into the cell of the slot. -/
theorem FileOn.cell_of_lens (h : FileOn v.fmt d ino N) (hsize : e.size = d.size)
    (hn : n.toNat < N) (hget : (v.lookup ino n).run .little e = .ok b)
    (hother : ∀ m : UInt64, m.toNat < N → m ≠ n →
      (v.lookup ino m).run .little e = (v.lookup ino m).run .little d) :
    e.cell v.fmt.width (slotCell v.fmt d ino (metaSlot v.fmt.per n.toNat)) = b.toNat := by
  have hrange := h.range
  have hper := v.fmt.per_le
  have htotal : total v.fmt.per ≤ 2 ^ 32 := by
    have hmul : v.fmt.per * (v.fmt.per + 1) ≤ 8192 * 8193 := Nat.mul_le_mul hper (by omega)
    unfold total
    omega
  have ht := metaSlot_mem hrange hn
  have hagree := h.agree_of_run hsize ht fun t' ht' hne => by
    have hmem := path_mem_fileSlots ht ht'
    have hm : (UInt64.ofNat (metaIndex v.fmt.per t')).toNat = metaIndex v.fmt.per t' :=
      UInt64.toNat_ofNat_of_lt' (by have := hmem.2; norm_num [UInt64.size]; omega)
    have hlook := hother (UInt64.ofNat (metaIndex v.fmt.per t')) (by rw [hm]; exact hmem.2) ?_
    · have hlt : (UInt64.ofNat (metaIndex v.fmt.per t')).toNat < total v.fmt.per := by
        rw [hm]
        exact hmem.2.trans_le hrange
      rwa [lookup_eq_readSlot v ino hlt, hm, metaSlot_metaIndex hmem.1] at hlook
    · rintro rfl
      rw [hm, metaSlot_metaIndex hmem.1] at hne
      exact hne rfl
  rw [lookup_eq_readSlot v ino (hn.trans_le hrange), h.run_readSlot_of_agree hsize ht hagree] at hget
  rw [← Except.ok.inj hget, toNat_ofNat_cell]

/-- Where the cell of a slot is as before, the slot has not been relinked. -/
theorem FileOn.not_lens (h : FileOn v.fmt d ino N) (hb : Unused v.fmt d ino N b)
    (hn : n.toNat < N) (ws : List WlogEnt)
    (hrun : (emit pkts 1 v.pkt [ino, n, b]).run .little d = .ok ws)
    (hcell : (d.applyAll ws).cell v.fmt.width (slotCell v.fmt d ino (metaSlot v.fmt.per n.toNat)) =
      slotZone v.fmt d ino (metaSlot v.fmt.per n.toNat)) : ¬ RelinksMeta v d ino N n b := by
  rintro ⟨d', ⟨ws', hws', -, -, rfl⟩, hget, hother⟩
  rw [hrun] at hws'
  cases hws'
  have hval := h.cell_of_lens (Disk.size_applyAll _ _) hn hget hother
  rw [hcell] at hval
  exact hb.unused _ (metaSlot_mem h.range hn) hval

/-- Where the packet changes the cell of a slot to the new zone number and no other, relinking is a
lens. -/
theorem FileOn.lens_of_update (h : FileOn v.fmt d ino N) (hb : Unused v.fmt d ino N b)
    (hn : n.toNat < N) (hcopy : CopyOf v.fmt d ino b (metaSlot v.fmt.per n.toNat))
    {ws : List WlogEnt} (hrun : (emit pkts 1 v.pkt [ino, n, b]).run .little d = .ok ws)
    (hlen : ws.length = 1) (hfits : ∀ we ∈ ws, we.Fits d.size)
    (hcell : (d.applyAll ws).cell v.fmt.width =
      Function.update (d.cell v.fmt.width) (slotCell v.fmt d ino (metaSlot v.fmt.per n.toNat))
        b.toNat) : RelinksMeta v d ino N n b := by
  obtain ⟨hfile, hself, hothers⟩ :=
    h.of_update hb (metaSlot_mem h.range hn) hcopy (Disk.size_applyAll d ws) hcell
  refine ⟨d.applyAll ws, ⟨ws, hrun, by omega, hfits, rfl⟩, ?_, fun m hm hne => ?_⟩
  · rw [hfile.run_lookup hn, hself, UInt64.ofNat_toNat]
  · rw [hfile.run_lookup hm, h.run_lookup hm, hothers _ (metaSlot_mem h.range hm)]
    intro heq
    have hidx := congrArg (metaIndex v.fmt.per) heq
    rw [metaIndex_metaSlot, metaIndex_metaSlot] at hidx
    exact hne (UInt64.toNat_inj.mp hidx)

/-! ## Where the packets write -/

theorem lt_iff_of_toNat {k : UInt64} {i : ℕ} (hk : k.toNat = i) : n > k ↔ i < n.toNat := by
  rw [gt_iff_lt, UInt64.lt_iff_toNat_lt, hk]

theorem eq_iff_of_toNat {k : UInt64} {i : ℕ} (hk : k.toNat = i) : n = k ↔ n.toNat = i := by
  rw [← UInt64.toNat_inj, hk]

/-- The offset of an index behind `base`, in zones of pointers with the slots below them. -/
theorem toNat_stride {base : UInt64} {i p : ℕ} (hbase : base.toNat = i) (hp : p ≤ 8192)
    (hin : i ≤ n.toNat) :
    ((n - base) % (1 + UInt64.ofNat p)).toNat = (n.toNat - i) % (1 + p) ∧
      ((n - base) / (1 + UInt64.ofNat p)).toNat = (n.toNat - i) / (1 + p) ∧
      ((n - base) % (1 + UInt64.ofNat p - 1)).toNat = (n.toNat - i) % p := by
  have hsub := toNat_sub (a := n) rfl hbase hin
  have hpn : (UInt64.ofNat p).toNat = p :=
    UInt64.toNat_ofNat_of_lt' (by norm_num [UInt64.size]; omega)
  have hp1 : (1 + UInt64.ofNat p).toNat = 1 + p := by
    rw [UInt64.toNat_add, hpn]
    show (1 + p) % 2 ^ 64 = _
    omega
  have hpp : (1 + UInt64.ofNat p - 1).toNat = p :=
    (toNat_sub hp1 (show (1 : UInt64).toNat = 1 from rfl) (by omega)).trans (by omega)
  refine ⟨?_, ?_, ?_⟩
  · rw [UInt64.toNat_mod, hsub, hp1]
  · rw [UInt64.toNat_div, hsub, hp1]
  · rw [UInt64.toNat_mod, hsub, hpp]

theorem stride_iff {base : UInt64} {i p : ℕ} (hbase : base.toNat = i) (hp : p ≤ 8192) :
    n > base ∧ (n - base) % (1 + UInt64.ofNat p) = 0 ↔
      i < n.toNat ∧ (n.toNat - i) % (1 + p) = 0 := by
  rw [lt_iff_of_toNat hbase]
  refine and_congr_right fun hlt => ?_
  rw [← UInt64.toNat_inj, (toNat_stride hbase hp hlt.le).1]
  rfl

/-- The writes of a packet when the conditions of its statements are known. -/
theorem emit_blockRelinkMeta (v : Version) (ino b : UInt64) {i p : ℕ} (hbase : v.base.toNat = i)
    (hper : v.fmt.per = p) {c1 c2 c3 c4 c5 c6 : Bool}
    (h1 : decide (n.toNat < 7) = c1) (h2 : decide (n.toNat = 7) = c2)
    (h3 : decide (7 < n.toNat ∧ n.toNat < 8 + p) = c3) (h4 : decide (n.toNat = 8 + p) = c4)
    (h5 : decide (521 < n.toNat ∧ (n.toNat - 521) % (1 + p) = 0) = c5)
    (h6 : decide (i < n.toNat ∧ ¬ (n.toNat - i) % (1 + p) = 0) = c6) :
    emit pkts 1 v.pkt [ino, n, b] = (do
      let w1 ← writeIf c1 (pure (v.fmt.zone ino n)) (UInt64.ofNat v.fmt.width) b
      let w2 ← writeIf c2 (pure (v.fmt.zone ino 7)) (UInt64.ofNat v.fmt.width) b
      let w3 ← writeIf c3 (do return ptr 16 (← v.fmt.read (v.fmt.zone ino 7)) (n - 8)) 16 b
      let w4 ← writeIf c4 (pure (v.fmt.zone ino 8)) (UInt64.ofNat v.fmt.width) b
      let w5 ← writeIf c5
        (do
          let bindir ← v.fmt.read (v.fmt.zone ino 8)
          return ptr 16 bindir ((n - bindirBaseV1) / (1 + UInt64.ofNat p))) 16 b
      let w6 ← writeIf c6
        (do
          let bindir ← v.fmt.read (v.fmt.zone ino 8)
          let indir ← Prog.field (ptr 16 bindir ((n - v.base) / (1 + UInt64.ofNat p))) 16
          return ptr 16 indir ((n - v.base) % (1 + UInt64.ofNat p - 1))) 16 b
      return w1 ++ (w2 ++ (w3 ++ (w4 ++ (w5 ++ w6))))) := by
  have hp : p ≤ 8192 := hper ▸ v.fmt.per_le
  have hpn : (UInt64.ofNat p).toNat = p :=
    UInt64.toNat_ofNat_of_lt' (by norm_num [UInt64.size]; omega)
  have hbase1 : bindirBaseV1.toNat = 521 := rfl
  have e1 : decide (n < 7) = c1 := h1 ▸ decide_eq_decide.mpr UInt64.lt_iff_toNat_lt
  have e2 : decide (n = 7) = c2 := h2 ▸ decide_eq_decide.mpr (eq_iff_of_toNat rfl)
  have e3 : (decide (n > 7) && decide (n - 8 < UInt64.ofNat p)) = c3 := by
    rw [← h3, ← Bool.decide_and, decide_eq_decide, lt_iff_of_toNat (show (7 : UInt64).toNat = 7 from rfl)]
    refine and_congr_right fun hlt => ?_
    rw [UInt64.lt_iff_toNat_lt, hpn,
      toNat_sub (a := n) rfl (show (8 : UInt64).toNat = 8 from rfl) (by omega)]
    omega
  have e4 : decide (n = 8 + UInt64.ofNat p) = c4 := by
    refine h4 ▸ decide_eq_decide.mpr (eq_iff_of_toNat ?_)
    rw [UInt64.toNat_add, hpn]
    show (8 + p) % 2 ^ 64 = _
    omega
  have e5 : (decide (n > bindirBaseV1) &&
      decide ((n - bindirBaseV1) % (1 + UInt64.ofNat p) = 0)) = c5 := by
    rw [← h5, ← Bool.decide_and, decide_eq_decide]
    exact stride_iff hbase1 hp
  have e6 : (decide (n > v.base) && decide ((n - v.base) % (1 + UInt64.ofNat p) ≠ 0)) = c6 := by
    rw [← h6, ← Bool.decide_and, decide_eq_decide, lt_iff_of_toNat hbase]
    refine and_congr_right fun hlt => not_congr ?_
    rw [← UInt64.toNat_inj, (toNat_stride hbase hp hlt.le).1]
    rfl
  subst hper
  rw [← e1, ← e2, ← e3, ← e4, ← e5, ← e6, emit_no_calls]
  · cases v
    · simp only [Version.pkt, pkts, blockRelinkMeta, List.map_cons, List.map_nil, emitFuncs, onInode,
        bind_assoc, pure_bind, List.append_nil]
      rfl
    · simp only [Version.pkt, pkts, blockRelinkMeta, List.map_cons, List.map_nil, emitFuncs, onInode,
        bind_assoc, pure_bind, List.append_nil]
      rfl
  · cases v <;> rfl

/-- The slot that `minix_block_relink_meta_v1` writes for a slot. -/
def wideWrite : Slot → Slot
  | leaf q r => leaf q ((q + r + 1) % 512)
  | t => t

theorem emit_v1_nil (ino b : UInt64) (hn : n.toNat = metaIndex 512 (bi 0)) :
    emit pkts 1 Version.v1.pkt [ino, n, b] = pure [] := by
  simp only [metaIndex] at hn
  rw [emit_blockRelinkMeta .v1 ino b (i := 521) (p := 512) rfl rfl (decide_eq_false (by omega))
    (decide_eq_false (by omega)) (decide_eq_false (by omega)) (decide_eq_false (by omega))
    (decide_eq_false (by omega)) (decide_eq_false (by omega))]
  rfl

/-- The packet of V1 writes one slot. -/
theorem emit_v1 (ino b : UInt64) (ht : Valid 512 t) (hne : t ≠ bi 0) (hn : n.toNat = metaIndex 512 t) :
    emit pkts 1 Version.v1.pkt [ino, n, b] = writeSlot v1 ino (wideWrite t) b := by
  have hbase : Version.v1.base.toNat = 521 := rfl
  have hbase1 : bindirBaseV1.toNat = 521 := rfl
  cases t with
  | direct i =>
    simp only [metaIndex] at hn
    have hi : i < 7 := ht
    rw [emit_blockRelinkMeta .v1 ino b (p := 512) hbase rfl (decide_eq_true (by omega))
      (decide_eq_false (by omega)) (decide_eq_false (by omega)) (decide_eq_false (by omega))
      (decide_eq_false (by omega)) (decide_eq_false (by omega)), eq_ofNat hn]
    rfl
  | indir =>
    simp only [metaIndex] at hn
    rw [emit_blockRelinkMeta .v1 ino b (p := 512) hbase rfl (decide_eq_false (by omega))
      (decide_eq_true (by omega)) (decide_eq_false (by omega)) (decide_eq_false (by omega))
      (decide_eq_false (by omega)) (decide_eq_false (by omega))]
    rfl
  | ind i =>
    simp only [metaIndex] at hn
    have hi : i < 512 := ht
    have hidx : n - 8 = UInt64.ofNat i :=
      eq_ofNat ((toNat_sub hn (show (8 : UInt64).toNat = 8 from rfl) (by omega)).trans (by omega))
    rw [emit_blockRelinkMeta .v1 ino b (p := 512) hbase rfl (decide_eq_false (by omega))
      (decide_eq_false (by omega)) (decide_eq_true (by omega)) (decide_eq_false (by omega))
      (decide_eq_false (by omega)) (decide_eq_false (by omega)), hidx]
    simp only [writeIf, if_true, Bool.false_eq_true, if_false, pure_bind, List.nil_append,
      List.append_nil, bind_pure]
    rfl
  | bindir =>
    simp only [metaIndex] at hn
    rw [emit_blockRelinkMeta .v1 ino b (p := 512) hbase rfl (decide_eq_false (by omega))
      (decide_eq_false (by omega)) (decide_eq_false (by omega)) (decide_eq_true (by omega))
      (decide_eq_false (by omega)) (decide_eq_false (by omega))]
    rfl
  | bi q =>
    have hq0 : q ≠ 0 := fun h => hne (h ▸ rfl)
    simp only [metaIndex] at hn
    have hidx : (n - bindirBaseV1) / (1 + UInt64.ofNat 512) = UInt64.ofNat q :=
      eq_ofNat ((toNat_stride hbase1 (by decide) (by omega)).2.1.trans (by omega))
    rw [emit_blockRelinkMeta .v1 ino b (p := 512) hbase rfl (decide_eq_false (by omega))
      (decide_eq_false (by omega)) (decide_eq_false (by omega)) (decide_eq_false (by omega))
      (decide_eq_true (by omega)) (decide_eq_false (by omega)), hidx]
    simp only [writeIf, if_true, Bool.false_eq_true, if_false, pure_bind, List.nil_append,
      List.append_nil, bind_pure]
    rfl
  | leaf q r =>
    have hr : r < 512 := ht.2
    simp only [metaIndex] at hn
    have hidx : (n - Version.v1.base) / (1 + UInt64.ofNat 512) = UInt64.ofNat q :=
      eq_ofNat ((toNat_stride hbase (by decide) (by omega)).2.1.trans (by omega))
    have hoff : (n - Version.v1.base) % (1 + UInt64.ofNat 512 - 1) =
        UInt64.ofNat ((q + r + 1) % 512) :=
      eq_ofNat ((toNat_stride hbase (by decide) (by omega)).2.2.trans (by omega))
    rw [emit_blockRelinkMeta .v1 ino b (p := 512) hbase rfl (decide_eq_false (by omega))
      (decide_eq_false (by omega)) (decide_eq_false (by omega)) (decide_eq_false (by omega))
      (decide_eq_false (by omega)) (decide_eq_true (by omega)), hidx, hoff]
    simp only [writeIf, if_true, Bool.false_eq_true, if_false, pure_bind, List.nil_append,
      wideWrite, writeSlot, slotAddr, bind_assoc]
    rfl

/-- Entry `i` of zone `z` taken for a zone of 16-bit pointers, written by V2. -/
def writeHalf (z i b : UInt64) : List WlogEnt := [writeVal (ptr 16 z i) 16 b]

theorem emit_v2_root (ino b : UInt64) (ht : Valid 256 t) (hp : t.parent = none)
    (hn : n.toNat = metaIndex 256 t) :
    emit pkts 1 Version.v2.pkt [ino, n, b] = writeSlot v2 ino t b := by
  have hbase : Version.v2.base.toNat = 265 := rfl
  cases t with
  | direct i =>
    simp only [metaIndex] at hn
    have hi : i < 7 := ht
    rw [emit_blockRelinkMeta .v2 ino b (p := 256) hbase rfl (decide_eq_true (by omega))
      (decide_eq_false (by omega)) (decide_eq_false (by omega)) (decide_eq_false (by omega))
      (decide_eq_false (by omega)) (decide_eq_false (by omega)), eq_ofNat hn]
    rfl
  | indir =>
    simp only [metaIndex] at hn
    rw [emit_blockRelinkMeta .v2 ino b (p := 256) hbase rfl (decide_eq_false (by omega))
      (decide_eq_true (by omega)) (decide_eq_false (by omega)) (decide_eq_false (by omega))
      (decide_eq_false (by omega)) (decide_eq_false (by omega))]
    rfl
  | bindir =>
    simp only [metaIndex] at hn
    rw [emit_blockRelinkMeta .v2 ino b (p := 256) hbase rfl (decide_eq_false (by omega))
      (decide_eq_false (by omega)) (decide_eq_false (by omega)) (decide_eq_true (by omega))
      (decide_eq_false (by omega)) (decide_eq_false (by omega))]
    rfl
  | ind i => cases hp
  | bi q => cases hp
  | leaf q r => cases hp

theorem emit_v2_ind (ino b : UInt64) {i : ℕ} (hi : i < 256) (hn : n.toNat = metaIndex 256 (ind i)) :
    emit pkts 1 Version.v2.pkt [ino, n, b] =
      (do return writeHalf (← v2.read (v2.zone ino 7)) (UInt64.ofNat i) b) := by
  have hbase : Version.v2.base.toNat = 265 := rfl
  simp only [metaIndex] at hn
  have hidx : n - 8 = UInt64.ofNat i :=
    eq_ofNat ((toNat_sub hn (show (8 : UInt64).toNat = 8 from rfl) (by omega)).trans (by omega))
  rw [emit_blockRelinkMeta .v2 ino b (p := 256) hbase rfl (decide_eq_false (by omega))
    (decide_eq_false (by omega)) (decide_eq_true (by omega)) (decide_eq_false (by omega))
    (decide_eq_false (by omega)) (decide_eq_false (by omega)), hidx]
  simp only [writeIf, if_true, Bool.false_eq_true, if_false, pure_bind, List.nil_append,
    List.append_nil, bind_assoc]
  rfl

theorem emit_v2_bi (ino b : UInt64) {q : ℕ} (hn : n.toNat = metaIndex 256 (bi q)) :
    emit pkts 1 Version.v2.pkt [ino, n, b] = pure [] := by
  have hbase : Version.v2.base.toNat = 265 := rfl
  simp only [metaIndex] at hn
  rw [emit_blockRelinkMeta .v2 ino b (p := 256) hbase rfl (decide_eq_false (by omega))
    (decide_eq_false (by omega)) (decide_eq_false (by omega)) (decide_eq_false (by omega))
    (decide_eq_false (by omega)) (decide_eq_false (by omega))]
  rfl

/-- In the last slot of a zone the statement for second-level zones writes too, since it counts from
the base of V1. -/
theorem emit_v2_leaf (ino b : UInt64) {q r : ℕ} (hr : r < 256)
    (hn : n.toNat = metaIndex 256 (leaf q r)) :
    emit pkts 1 Version.v2.pkt [ino, n, b] = (do
      let w5 ← (if r = 255 ∧ q ≠ 0
        then (do return writeHalf (← v2.read (v2.zone ino 8)) (UInt64.ofNat q) b) else pure [])
      let bindir ← v2.read (v2.zone ino 8)
      let indir ← v1.read (ptr 16 bindir (UInt64.ofNat q))
      return w5 ++ writeHalf indir (UInt64.ofNat ((q + r + 1) % 256)) b) := by
  have hbase : Version.v2.base.toNat = 265 := rfl
  have hbase1 : bindirBaseV1.toNat = 521 := rfl
  simp only [metaIndex] at hn
  have hidx : (n - Version.v2.base) / (1 + UInt64.ofNat 256) = UInt64.ofNat q :=
    eq_ofNat ((toNat_stride hbase (by decide) (by omega)).2.1.trans (by omega))
  have hoff : (n - Version.v2.base) % (1 + UInt64.ofNat 256 - 1) =
      UInt64.ofNat ((q + r + 1) % 256) :=
    eq_ofNat ((toNat_stride hbase (by decide) (by omega)).2.2.trans (by omega))
  by_cases hlast : r = 255 ∧ q ≠ 0
  · have hidx1 : (n - bindirBaseV1) / (1 + UInt64.ofNat 256) = UInt64.ofNat q :=
      eq_ofNat ((toNat_stride hbase1 (by decide) (by omega)).2.1.trans (by omega))
    rw [emit_blockRelinkMeta .v2 ino b (p := 256) hbase rfl (decide_eq_false (by omega))
      (decide_eq_false (by omega)) (decide_eq_false (by omega)) (decide_eq_false (by omega))
      (decide_eq_true (by omega)) (decide_eq_true (by omega)), hidx, hoff, hidx1, if_pos hlast]
    simp only [writeIf, if_true, Bool.false_eq_true, if_false, pure_bind, List.nil_append,
      bind_assoc]
    rfl
  · rw [emit_blockRelinkMeta .v2 ino b (p := 256) hbase rfl (decide_eq_false (by omega))
      (decide_eq_false (by omega)) (decide_eq_false (by omega)) (decide_eq_false (by omega))
      (decide_eq_false (by omega)) (decide_eq_true (by omega)), hidx, hoff, if_neg hlast]
    simp only [writeIf, if_true, Bool.false_eq_true, if_false, pure_bind, List.nil_append,
      bind_assoc]
    rfl

/-! ## Halves of pointers -/

/-- The number `x` of 32 bits with half `g % 2` replaced by the low bits of `b`. -/
def putHalf (x g b : ℕ) : ℕ :=
  if g % 2 = 0 then x / 2 ^ 16 * 2 ^ 16 + b % 2 ^ 16 else b % 2 ^ 16 * 2 ^ 16 + x % 2 ^ 16

theorem toNat_half {z : UInt64} {i : ℕ} (hz : z.toNat < 2 ^ 32) (hi : i < 512) :
    (ptr 16 z (UInt64.ofNat i)).toNat = 16 * entry v1 z.toNat i :=
  toNat_ptr (f := v1) hz hi

theorem entry_half (z i : ℕ) : entry v1 z i / 2 = entry v2 z (i / 2) ∧ entry v1 z i % 2 = i % 2 := by
  show (z * 512 + i) / 2 = z * 256 + i / 2 ∧ (z * 512 + i) % 2 = i % 2
  omega

/-- A write of half a pointer changes this pointer. -/
theorem cell_writeHalf {z : UInt64} {i : ℕ} (hz : z.toNat < 2 ^ 32) (hi : i < 512)
    (hin : OnDisk v1 d (entry v1 z.toNat i)) (b : UInt64) :
    (∀ we ∈ writeHalf z (UInt64.ofNat i) b, we.Fits d.size) ∧
      (d.applyAll (writeHalf z (UInt64.ofNat i) b)).cell 32 =
        Function.update (d.cell 32) (entry v2 z.toNat (i / 2))
          (putHalf (d.cell 32 (entry v2 z.toNat (i / 2))) i b.toNat) := by
  obtain ⟨hfits, hcell, -⟩ := writeVal_cell (w := 16) (s := 16) (b := b) (by decide) (by decide) rfl
    (toNat_half hz hi) hin
  refine ⟨List.forall_mem_singleton.mpr hfits, ?_⟩
  have hsplit : ∀ (e : Disk) c, e.cell 32 c = e.cell 16 (2 * c) + 2 ^ 16 * e.cell 16 (2 * c + 1) :=
    fun e c => e.cell_two_mul 16 c
  obtain ⟨hdiv, hmod⟩ := entry_half z.toNat i
  rw [← hdiv, putHalf, ← hmod]
  generalize entry v1 z.toNat i = g at hcell
  funext c
  rw [hsplit, writeHalf, hcell]
  by_cases hc : c = g / 2
  · have hlow := d.cell_lt 16 (2 * (g / 2))
    rw [hc, Function.update_self, hsplit]
    by_cases hg : g % 2 = 0
    · have heven : 2 * (g / 2) = g := by omega
      rw [if_pos hg, heven, Function.update_self, Function.update_of_ne (by omega)]
      rw [heven] at hlow
      omega
    · have hodd : 2 * (g / 2) + 1 = g := by omega
      rw [if_neg hg, hodd, Function.update_self, Function.update_of_ne (by omega)]
      omega
  · rw [Function.update_of_ne hc, Function.update_of_ne (by omega), Function.update_of_ne (by omega),
      ← hsplit]

/-- It does not change another one, wherever it lies. -/
theorem cell_writeHalf_of_ne {z : UInt64} {i c : ℕ} (hz : z.toNat < 2 ^ 32) (hi : i < 512)
    (hc : c ≠ entry v2 z.toNat (i / 2)) (d : Disk) (b : UInt64) :
    (d.applyAll (writeHalf z (UInt64.ofNat i) b)).cell 32 c = d.cell 32 c := by
  have happly : d.applyAll (writeHalf z (UInt64.ofNat i) b) =
      d.setField (16 * entry v1 z.toNat i) b.toNat 16 := by
    rw [← toNat_half hz hi]
    rfl
  obtain ⟨hdiv, -⟩ := entry_half z.toNat i
  rw [happly]
  refine Disk.num_setField_of_disjoint ?_
  rw [← hdiv] at hc
  omega

/-! ## The lens -/

/-- The slots for which the packet of V1 writes the pointer that the lookup reads. -/
def WideMeets : Slot → Prop
  | direct _ | indir | ind _ | bindir => True
  | bi q => q ≠ 0
  | leaf q _ => q = 511

/-- The slots for which the packet of V2, which writes half of a pointer where it goes through a zone
of pointers, makes the number in the slot `b`. -/
def NarrowMeets (d : Disk) (ino b : UInt64) : Slot → Prop
  | direct _ | indir | bindir => True
  | ind i => i = 0 ∧ putHalf (slotZone v2 d ino (ind 0)) 0 b.toNat = b.toNat
  | bi _ => False
  | leaf q r => d.cell 16 (entry v1 (slotZone v2 d ino bindir) q) = slotZone v2 d ino (bi q) ∧
      (q + r + 1) % 256 / 2 = r ∧
      putHalf (slotZone v2 d ino (leaf q r)) (q + r + 1) b.toNat = b.toNat

def Meets (v : Version) (d : Disk) (ino b : UInt64) (t : Slot) : Prop :=
  match v with
  | .v1 => WideMeets t
  | .v2 => NarrowMeets d ino b t

/-- The slot that the packet of V1 writes, if it writes one, is the slot that the lookup reads. -/
theorem wideMeets_iff (ht : Valid 512 t) : WideMeets t ↔ t ≠ bi 0 ∧ wideWrite t = t := by
  cases t with
  | leaf q r =>
    obtain ⟨hq, hr⟩ : q < 512 ∧ r < 512 := ht
    simp only [WideMeets, wideWrite, ne_eq, reduceCtorEq, not_false_eq_true, true_and,
      Slot.leaf.injEq]
    omega
  | _ => simp [WideMeets, wideWrite]

theorem relinksMeta_v1_iff (h : FileOn Version.v1.fmt d ino N) (hb : Unused Version.v1.fmt d ino N b)
    (hn : n.toNat < N) (hcopy : CopyOf Version.v1.fmt d ino b (metaSlot 512 n.toNat)) :
    RelinksMeta .v1 d ino N n b ↔ WideMeets (metaSlot 512 n.toNat) := by
  have ht : metaSlot 512 n.toNat ∈ fileSlots 512 N := metaSlot_mem h.range hn
  have hidx : n.toNat = metaIndex 512 (metaSlot 512 n.toNat) := (metaIndex_metaSlot _ _).symm
  rw [wideMeets_iff ht.1]
  by_cases hnil : metaSlot 512 n.toNat = bi 0
  · -- the packet writes nothing
    rw [hnil] at hidx
    refine ⟨fun hlens => absurd hlens (h.not_lens hb hn [] ?_ rfl), fun hw => absurd hnil hw.1⟩
    rw [emit_v1_nil ino b hidx]
    rfl
  rw [and_iff_right hnil]
  have hemit := emit_v1 ino b ht.1 hnil hidx
  by_cases hw : wideWrite (metaSlot 512 n.toNat) = metaSlot 512 n.toNat
  · refine ⟨fun _ => hw, fun _ => ?_⟩
    obtain ⟨ws, hrun, hlen, hfits, hcell⟩ := h.writeSlot_cell hb.lt ht
    rw [hw] at hemit
    exact h.lens_of_update hb hn hcopy (hemit ▸ hrun) hlen hfits hcell
  · -- it writes another pointer of the same zone
    refine ⟨fun hlens => absurd hlens ?_, fun heq => absurd heq hw⟩
    obtain ⟨q, r, hqr⟩ : ∃ q r, metaSlot 512 n.toNat = leaf q r := by
      cases hslot : metaSlot 512 n.toNat with
      | leaf q r => exact ⟨q, r, rfl⟩
      | _ =>
        rw [hslot] at hw
        exact absurd rfl hw
    rw [hqr] at ht hw hemit
    have hval : Valid 512 (leaf q ((q + r + 1) % 512)) := ⟨ht.1.1, Nat.mod_lt _ (by decide)⟩
    have hpath : ∀ t' ∈ (leaf q ((q + r + 1) % 512)).path, t' ≠ leaf q ((q + r + 1) % 512) →
        t' ∈ fileSlots 512 N := by
      intro t' ht' hne
      simp only [path, List.mem_cons, List.not_mem_nil, or_false] at ht'
      refine path_mem_fileSlots ht ?_
      rcases ht' with rfl | rfl | rfl
      · simp [path]
      · simp [path]
      · exact absurd rfl hne
    obtain ⟨a, ha, hat⟩ := h.run_slotAddr_of_path hval hpath
    refine h.not_lens hb hn [writeVal a 16 b] ?_ ?_
    · rw [hemit, wideWrite, writeSlot, Prog.run_bind]
      exact (congrArg (· >>= _) ha).trans rfl
    · show (d.setField a.toNat b.toNat 16).cell 16 (slotCell v1 d ino (metaSlot 512 n.toNat)) =
        d.cell 16 (slotCell v1 d ino (metaSlot 512 n.toNat))
      rw [hat, hqr]
      refine Disk.cell_setField_of_ne fun heq => hw ?_
      exact congrArg (leaf q) (entry_inj (f := v1) ht.1.2 hval.2 heq).2.symm

/-! ### V2 -/

/-- The number of 16 bits where V2 looks for second-level zone `q`. -/
abbrev halfZone (d : Disk) (ino : UInt64) (q : ℕ) : ℕ :=
  d.cell 16 (entry v1 (slotZone v2 d ino bindir) q)

theorem run_v2_ind (h : FileOn v2 d ino N) (b : UInt64) {i : ℕ} (hi : i < 256)
    (hn : n.toNat = metaIndex 256 (ind i)) :
    (emit pkts 1 Version.v2.pkt [ino, n, b]).run .little d =
      .ok (writeHalf (UInt64.ofNat (slotZone v2 d ino indir)) (UInt64.ofNat i) b) := by
  rw [emit_v2_ind ino b hi hn, Prog.run_bind, h.run_indir]
  rfl

theorem run_v2_leaf (h : FileOn v2 d ino N) (b : UInt64) {q r : ℕ}
    (ht : leaf q r ∈ fileSlots 256 N) (hn : n.toNat = metaIndex 256 (leaf q r)) :
    (emit pkts 1 Version.v2.pkt [ino, n, b]).run .little d =
      .ok ((if r = 255 ∧ q ≠ 0
          then writeHalf (UInt64.ofNat (slotZone v2 d ino bindir)) (UInt64.ofNat q) b else []) ++
        writeHalf (UInt64.ofNat (halfZone d ino q)) (UInt64.ofNat ((q + r + 1) % 256)) b) := by
  have hq : q < 512 := by
    have := ht.1.1
    omega
  have hbin : bindir ∈ fileSlots 256 N := path_mem_fileSlots ht (by simp [path])
  have hlt : slotZone v2 d ino bindir < 2 ^ 32 := d.cell_lt 32 _
  have hz : (UInt64.ofNat (slotZone v2 d ino bindir)).toNat = slotZone v2 d ino bindir :=
    toNat_ofNat_cell v2 d _
  have haddr : (ptr 16 (UInt64.ofNat (slotZone v2 d ino bindir)) (UInt64.ofNat q)).toNat =
      16 * entry v1 (slotZone v2 d ino bindir) q := by
    rw [toNat_half (hz.symm ▸ hlt) hq, hz]
  have hread : (v1.read (ptr 16 (UInt64.ofNat (slotZone v2 d ino bindir)) (UInt64.ofNat q))).run
      .little d = .ok (UInt64.ofNat (halfZone d ino q)) := by
    rw [run_cell (f := v1) h.lines haddr,
      if_pos (entry_onDisk (f := v1) (h.onDisk bindir hbin rfl) hq)]
    rfl
  rw [emit_v2_leaf ino b ht.1.2 hn, Prog.run_bind]
  by_cases hlast : r = 255 ∧ q ≠ 0
  · rw [if_pos hlast, if_pos hlast, Prog.run_bind, h.run_bindir, ok_bind, Prog.run_pure, ok_bind,
      Prog.run_bind, h.run_bindir, ok_bind, Prog.run_bind, hread]
    rfl
  · rw [if_neg hlast, if_neg hlast, Prog.run_pure, ok_bind, Prog.run_bind, h.run_bindir, ok_bind,
      Prog.run_bind, hread]
    rfl

/-- A packet that writes half of a pointer relinks a slot where this is the pointer of the slot and
the other half is right already. -/
theorem relinksMeta_half_iff (h : FileOn Version.v2.fmt d ino N) (hb : Unused Version.v2.fmt d ino N b)
    (hn : n.toNat < N) (hcopy : CopyOf Version.v2.fmt d ino b (metaSlot 256 n.toNat)) {z : UInt64}
    {k : ℕ} (hz : z.toNat < 2 ^ 32) (hk : k < 512)
    (hrun : (emit pkts 1 Version.v2.pkt [ino, n, b]).run .little d =
      .ok (writeHalf z (UInt64.ofNat k) b)) :
    RelinksMeta .v2 d ino N n b ↔
      entry v2 z.toNat (k / 2) = slotCell v2 d ino (metaSlot 256 n.toNat) ∧
        putHalf (slotZone v2 d ino (metaSlot 256 n.toNat)) k b.toNat = b.toNat := by
  have ht : metaSlot 256 n.toNat ∈ fileSlots 256 N := metaSlot_mem h.range hn
  by_cases hc : entry v2 z.toNat (k / 2) = slotCell v2 d ino (metaSlot 256 n.toNat)
  · have hin : OnDisk v1 d (entry v1 z.toNat k) := by
      have hon : 32 * slotCell v2 d ino (metaSlot 256 n.toNat) + 32 ≤ 8 * d.size := h.slot_onDisk ht
      obtain ⟨hdiv, -⟩ := entry_half z.toNat k
      show 16 * _ + 16 ≤ 8 * d.size
      rw [← hc, ← hdiv] at hon
      omega
    obtain ⟨hfits, hcell⟩ := cell_writeHalf hz hk hin b
    rw [hc] at hcell
    rw [and_iff_right hc]
    constructor
    · rintro ⟨d', ⟨ws, hws, -, -, rfl⟩, hget, hother⟩
      rw [hrun] at hws
      cases hws
      have hval : (d.applyAll (writeHalf z (UInt64.ofNat k) b)).cell 32
          (slotCell v2 d ino (metaSlot 256 n.toNat)) = b.toNat :=
        h.cell_of_lens (Disk.size_applyAll _ _) hn hget hother
      rw [hcell, Function.update_self] at hval
      exact hval
    · intro hput
      refine h.lens_of_update hb hn hcopy hrun rfl hfits (hcell.trans ?_)
      exact congrArg (Function.update (d.cell 32) _) hput
  · refine ⟨fun hlens => absurd hlens (h.not_lens hb hn _ hrun ?_), fun hw => absurd hw.1 hc⟩
    exact cell_writeHalf_of_ne hz hk (Ne.symm hc) d b

theorem toNat_slotZone (d : Disk) (ino : UInt64) (t : Slot) :
    (UInt64.ofNat (slotZone v2 d ino t)).toNat = slotZone v2 d ino t :=
  toNat_ofNat_cell v2 d _

theorem slotZone_lt (d : Disk) (ino : UInt64) (t : Slot) : slotZone v2 d ino t < 2 ^ 32 :=
  d.cell_lt 32 _

theorem relinksMeta_v2_ind_iff (h : FileOn Version.v2.fmt d ino N)
    (hb : Unused Version.v2.fmt d ino N b) (hn : n.toNat < N)
    (hcopy : CopyOf Version.v2.fmt d ino b (metaSlot 256 n.toNat)) {i : ℕ}
    (hslot : metaSlot 256 n.toNat = ind i) (hi : i < 256) :
    RelinksMeta .v2 d ino N n b ↔
      i = 0 ∧ putHalf (slotZone v2 d ino (ind 0)) 0 b.toNat = b.toNat := by
  have hidx : n.toNat = metaIndex 256 (ind i) := by
    rw [← hslot, metaIndex_metaSlot]
  have hz := toNat_slotZone d ino indir
  have hlt : (UInt64.ofNat (slotZone v2 d ino indir)).toNat < 2 ^ 32 :=
    hz.trans_lt (slotZone_lt d ino indir)
  have hcell : slotCell v2 d ino (ind i) = entry v2 (slotZone v2 d ino indir) i := rfl
  rw [relinksMeta_half_iff h hb hn hcopy hlt (show i < 512 by omega) (run_v2_ind h b hi hidx), hslot,
    hz, hcell]
  constructor
  · rintro ⟨heq, hput⟩
    obtain ⟨-, hdiv⟩ := entry_inj (f := v2) (show i / 2 < 256 by omega) hi heq
    obtain rfl : i = 0 := by omega
    exact ⟨rfl, hput⟩
  · rintro ⟨rfl, hput⟩
    exact ⟨rfl, hput⟩

theorem relinksMeta_v2_leaf_iff (h : FileOn Version.v2.fmt d ino N)
    (hb : Unused Version.v2.fmt d ino N b) (hn : n.toNat < N)
    (hcopy : CopyOf Version.v2.fmt d ino b (metaSlot 256 n.toNat)) {q r : ℕ}
    (hslot : metaSlot 256 n.toNat = leaf q r) (ht : leaf q r ∈ fileSlots 256 N) :
    RelinksMeta .v2 d ino N n b ↔ NarrowMeets d ino b (leaf q r) := by
  have hidx : n.toNat = metaIndex 256 (leaf q r) := by
    rw [← hslot, metaIndex_metaSlot]
  obtain ⟨hq, hr⟩ : q < 256 ∧ r < 256 := ht.1
  have hk : (q + r + 1) % 256 / 2 < 128 := by omega
  have hw : (UInt64.ofNat (halfZone d ino q)).toNat = halfZone d ino q :=
    toNat_ofNat_cell v1 d _
  have hw16 : halfZone d ino q < 2 ^ 16 := d.cell_lt 16 _
  have hlt : (UInt64.ofNat (halfZone d ino q)).toNat < 2 ^ 32 := by
    rw [hw]
    omega
  have hcell : slotCell v2 d ino (leaf q r) = entry v2 (slotZone v2 d ino (bi q)) r := rfl
  have hrun := run_v2_leaf h b ht hidx
  by_cases hlast : r = 255 ∧ q ≠ 0
  · -- two halves are written, of entries before the last
    rw [if_pos hlast] at hrun
    refine iff_of_false (h.not_lens hb hn _ hrun ?_) fun hmeets => ?_
    · have hz := toNat_slotZone d ino bindir
      have hbin : (UInt64.ofNat (slotZone v2 d ino bindir)).toNat < 2 ^ 32 :=
        hz.trans_lt (slotZone_lt d ino bindir)
      have hne : ∀ w j, j < 128 → slotCell v2 d ino (leaf q r) ≠ entry v2 w j := by
        intro w j hj heq
        rw [hcell] at heq
        obtain ⟨-, hidx⟩ := entry_inj (f := v2) hr (show j < 256 by omega) heq
        omega
      show (d.applyAll (_ ++ _)).cell 32 (slotCell v2 d ino (metaSlot 256 n.toNat)) =
        d.cell 32 (slotCell v2 d ino (metaSlot 256 n.toNat))
      rw [hslot, Disk.applyAll, List.foldl_append]
      refine (cell_writeHalf_of_ne hlt (by omega) (hne _ _ hk) _ b).trans ?_
      exact cell_writeHalf_of_ne hbin (by omega) (hne _ _ (by omega)) d b
    · have hidx := hmeets.2.1
      omega
  · rw [if_neg hlast, List.nil_append] at hrun
    have hput : putHalf (slotZone v2 d ino (leaf q r)) ((q + r + 1) % 256) b.toNat =
        putHalf (slotZone v2 d ino (leaf q r)) (q + r + 1) b.toNat := by
      unfold putHalf
      rw [Nat.mod_mod_of_dvd _ (by norm_num)]
    rw [relinksMeta_half_iff h hb hn hcopy hlt (show (q + r + 1) % 256 < 512 by omega) hrun, hslot, hw,
      hput, hcell]
    constructor
    · rintro ⟨heq, hval⟩
      obtain ⟨hzeq, hidx⟩ := entry_inj (f := v2) (show (q + r + 1) % 256 / 2 < 256 by omega) hr heq
      exact ⟨hzeq, hidx, hval⟩
    · rintro ⟨hzeq, hidx, hval⟩
      refine ⟨?_, hval⟩
      rw [hidx, ← hzeq]

theorem relinksMeta_v2_iff (h : FileOn Version.v2.fmt d ino N) (hb : Unused Version.v2.fmt d ino N b)
    (hn : n.toNat < N) (hcopy : CopyOf Version.v2.fmt d ino b (metaSlot 256 n.toNat)) :
    RelinksMeta .v2 d ino N n b ↔ NarrowMeets d ino b (metaSlot 256 n.toNat) := by
  have ht : metaSlot 256 n.toNat ∈ fileSlots 256 N := metaSlot_mem h.range hn
  have hidx : n.toNat = metaIndex 256 (metaSlot 256 n.toNat) := (metaIndex_metaSlot _ _).symm
  have hroot : (metaSlot 256 n.toNat).parent = none → RelinksMeta .v2 d ino N n b := by
    intro hp
    obtain ⟨ws, hrun, hlen, hfits, hcell⟩ := h.writeSlot_cell hb.lt ht
    exact h.lens_of_update hb hn hcopy (emit_v2_root ino b ht.1 hp hidx ▸ hrun) hlen hfits hcell
  cases hslot : metaSlot 256 n.toNat with
  | direct i => exact iff_of_true (hroot (by rw [hslot]; rfl)) trivial
  | indir => exact iff_of_true (hroot (by rw [hslot]; rfl)) trivial
  | bindir => exact iff_of_true (hroot (by rw [hslot]; rfl)) trivial
  | ind i =>
    rw [hslot] at ht
    exact relinksMeta_v2_ind_iff h hb hn hcopy hslot ht.1
  | bi q =>
    rw [hslot] at hidx
    refine iff_of_false (h.not_lens hb hn [] ?_ rfl) id
    rw [emit_v2_bi ino b hidx]
    rfl
  | leaf q r =>
    rw [hslot] at ht
    exact relinksMeta_v2_leaf_iff h hb hn hcopy hslot ht

/-- `minix_block_relink_meta_v1` and `minix_block_relink_meta_v2` form a lens with the lookups exactly
where they write the pointer that the lookup reads, in its full width. -/
theorem relinksZone_iff (v : Version) (h : FileOn v.fmt d ino N) (hb : Unused v.fmt d ino N b)
    (hn : n.toNat < N) (hcopy : CopyOf v.fmt d ino b (metaSlot v.fmt.per n.toNat)) :
    RelinksMeta v d ino N n b ↔ Meets v d ino b (metaSlot v.fmt.per n.toNat) := by
  cases v with
  | v1 => exact relinksMeta_v1_iff h hb hn hcopy
  | v2 => exact relinksMeta_v2_iff h hb hn hcopy

/-! ## A file of ten zones -/

/-- The pointers of an inode in zone 5 and those in zone 6. -/
def sampleCell (c : ℕ) : ℕ :=
  if c / 256 = 5 then (if c % 256 = 13 then 6 else c % 256 + 4)
  else if c / 256 = 6 then c % 256 + 20
  else 0

/-- A disk of 32 zones. -/
def sample : Disk := Disk.ofCells 32768 32 sampleCell (by norm_num)

/-- The zones of the sample file. -/
def sampleNum : Slot → ℕ
  | direct i => 10 + i
  | indir => 6
  | ind i => 20 + i
  | _ => 0

theorem cell_sample {c : ℕ} (hc : c < 8192) : sample.cell 32 c = sampleCell c := by
  refine Disk.cell_ofCells (by norm_num) (by omega) ?_
  unfold sampleCell
  split_ifs <;> omega

theorem sample_slots (ht : t ∈ fileSlots 256 10) :
    (∃ i, i < 7 ∧ t = direct i) ∨ t = indir ∨ ∃ i, i < 2 ∧ t = ind i := by
  obtain ⟨hv, hlt⟩ := ht
  cases t <;> simp only [metaIndex] at hlt
  case direct i => exact Or.inl ⟨i, hv, rfl⟩
  case indir => exact Or.inr (Or.inl rfl)
  case ind i => exact Or.inr (Or.inr ⟨i, by omega, rfl⟩)
  all_goals omega

theorem sample_zone (ht : t ∈ fileSlots 256 10) : slotZone v2 sample 40960 t = sampleNum t := by
  have hindir : sample.cell 32 1293 = 6 := cell_sample (by norm_num)
  rcases sample_slots ht with ⟨i, hi, rfl⟩ | rfl | ⟨i, hi, rfl⟩
  · show sample.cell 32 (1286 + i) = 10 + i
    rw [cell_sample (by omega), sampleCell, if_pos (by omega), if_neg (by omega)]
    omega
  · exact hindir
  · show sample.cell 32 (sample.cell 32 1293 * 256 + i) = 20 + i
    rw [hindir, cell_sample (by omega), sampleCell, if_neg (by omega), if_pos (by omega)]
    omega

theorem sample_injOn : Set.InjOn (slotZone v2 sample 40960) (fileSlots 256 10) := by
  intro t ht t' ht' heq
  rw [sample_zone ht, sample_zone ht'] at heq
  rcases sample_slots ht with ⟨i, hi, rfl⟩ | rfl | ⟨i, hi, rfl⟩ <;>
    rcases sample_slots ht' with ⟨j, hj, rfl⟩ | rfl | ⟨j, hj, rfl⟩ <;>
    simp only [sampleNum] at heq <;> first | rfl | omega | congr 1; omega

theorem sample_fileOn : FileOn Version.v2.fmt sample 40960 10 where
  lines := ⟨1024, rfl⟩
  aligned := ⟨1280, rfl⟩
  inside := show 40960 + 16 * 32 ≤ 8 * 32768 by norm_num
  range := show 10 ≤ 9 + 256 + 256 * (256 + 1) by norm_num
  onDisk t ht hm := by
    have hnum := sample_zone ht
    rcases sample_slots ht with ⟨i, -, rfl⟩ | rfl | ⟨i, -, rfl⟩
    · cases hm
    · exact (congrArg (fun z => (z + 1) * 1024) hnum).trans_le (show 7168 ≤ 32768 by norm_num)
    · cases hm
  inj := sample_injOn.mono fun t ht => ht.1
  apart t ht hm c hc heq := by
    have hnum := sample_zone ht
    have hdiv : (1280 + c) / 256 = 5 := by omega
    rcases sample_slots ht with ⟨i, -, rfl⟩ | rfl | ⟨i, -, rfl⟩
    · cases hm
    · exact absurd (hdiv.symm.trans (heq.trans hnum)) (by decide)
    · cases hm

theorem sample_unused : Unused Version.v2.fmt sample 40960 10 9 where
  lt := by decide
  onDisk := show (9 + 1) * 1024 ≤ 32768 by norm_num
  unused t ht heq := by
    have hnum : sampleNum t = 9 := (sample_zone ht).symm.trans heq
    rcases sample_slots ht with ⟨i, -, rfl⟩ | rfl | ⟨i, -, rfl⟩ <;> simp only [sampleNum] at hnum <;>
      omega
  apart c hc heq := by
    have hdiv : (1280 + c) / 256 = 5 := by omega
    exact absurd (hdiv.symm.trans heq) (by decide)

/-- Relinking the first zone of the sample file. -/
theorem relinksZone_iff_first :
    Unused Version.v2.fmt sample 40960 10 9 ∧ RelinksMeta .v2 sample 40960 10 0 9 := by
  have hslot : metaSlot Version.v2.fmt.per (0 : UInt64).toNat = direct 0 := by decide
  have hn : (0 : UInt64).toNat < 10 := by decide
  refine ⟨sample_unused, (relinksZone_iff .v2 sample_fileOn sample_unused hn ?_).mpr ?_⟩
  · rw [hslot]
    intro hm
    cases hm
  · rw [hslot]
    trivial

/-- Relinking zone 9 of the sample file, the second one behind the single-indirect pointer: the packet
writes the high half of the first one. -/
theorem not_relinksZone_indirect :
    FileOn Version.v2.fmt sample 40960 10 ∧
      Set.InjOn (slotZone v2 sample 40960) (fileSlots 256 10) ∧
      Unused Version.v2.fmt sample 40960 10 9 ∧
      CopyOf Version.v2.fmt sample 40960 9 (metaSlot 256 9) ∧ ¬ RelinksMeta .v2 sample 40960 10 9 9 := by
  have hslot : metaSlot 256 (9 : UInt64).toNat = ind 1 := by decide
  have hn : (9 : UInt64).toNat < 10 := by decide
  have hcopy : CopyOf Version.v2.fmt sample 40960 9 (metaSlot 256 (9 : UInt64).toNat) := by
    rw [hslot]
    intro hm
    cases hm
  refine ⟨sample_fileOn, sample_injOn, sample_unused, hcopy, fun hlens => ?_⟩
  have hmeets := (relinksMeta_v2_ind_iff sample_fileOn sample_unused hn hcopy hslot (by decide)).mp
    hlens
  exact absurd hmeets.1 (by decide)

end Fsl.Minix
