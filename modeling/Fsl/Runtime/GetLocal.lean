import Fsl.Runtime.Fields
import Fsl.Runtime.Fuse

/-!
# Fields of a translated address space

`__getLocal` translates the first and the last byte of a field. If the two are as far apart on the
disk as in the address space, the field is read where the first byte is; the bytes between them are
not looked at.
-/

namespace Fsl.Fuse

open BitNum Pread Virt

/-! ## Bytes put together -/

/-- The bit of the disk that a mode reads at place `x`. -/
def place : Mode → ℕ → ℕ
  | .little, x => x
  | .big, x => 8 * (x / 8) + (7 - x % 8)

/-- The number of `n` bits in the order in which a mode reads them. -/
def ofRead (mode : Mode) (f : ℕ → Bool) (n : ℕ) : ℕ :=
  match mode with
  | .little => ofBits f n
  | .big => ofBits (fun i => f (n - 1 - i)) n

/-- The number of a field whose byte `i` is the one at the address `A i`. -/
def bytesField (mode : Mode) (d : Disk) (A : ℕ → UInt64) (n : ℕ) : ℕ :=
  ofRead mode (fun p => d.bit (place mode ((A (p / 8)).toNat + p % 8))) n

theorem place_inj {mode : Mode} {x y : ℕ} (h : place mode x = place mode y) : x = y := by
  cases mode with
  | little => exact h
  | big =>
    simp only [place] at h
    omega

theorem ofRead_lt (mode : Mode) (f : ℕ → Bool) (n : ℕ) : ofRead mode f n < 2 ^ n := by
  cases mode with
  | little => exact ofBits_lt _ _
  | big => exact ofBits_lt _ _

theorem ofRead_congr {mode : Mode} {f g : ℕ → Bool} {n : ℕ} (h : ∀ p, p < n → f p = g p) :
    ofRead mode f n = ofRead mode g n := by
  cases mode with
  | little => exact ofBits_congr h
  | big => exact ofBits_congr fun i hi => h _ (by omega)

theorem ofRead_inj {mode : Mode} {f g : ℕ → Bool} {n p : ℕ} (h : ofRead mode f n = ofRead mode g n)
    (hp : p < n) : f p = g p := by
  cases mode with
  | little => exact ofBits_inj h hp
  | big =>
    have hbit := ofBits_inj h (show n - 1 - p < n by omega)
    rwa [show n - 1 - (n - 1 - p) = p by omega] at hbit

/-! ## Where a field is read in full -/

/-- The fields that `__getLocalPhys` reads in the order of the mode, without losing bits. -/
def Whole : Mode → ℕ → ℕ → Prop
  | .little, a, n => ∀ j, j < n → keepsBit a n j = true
  | .big, a, n => BeShape a n

/-- A disk with a single bit. -/
def spot (size x : ℕ) (h : size < 2 ^ 61) : Disk := Disk.ofBitFn size (fun k => decide (k = x)) h

theorem bit_spot {size x : ℕ} (h : size < 2 ^ 61) (hx : x < 8 * size) (k : ℕ) :
    (spot size x h).bit k = decide (k = x) := by
  by_cases hk : k < 8 * size
  · exact Disk.bit_ofBitFn _ h hk
  · have hne : k ≠ x := by omega
    have hsize : 8 * (spot size x h).size ≤ k := Nat.not_lt.mp hk
    rw [Disk.bit_eq_false _ hsize, decide_eq_false hne]

section Phys

variable {mode : Mode} {d : Disk} {a n : ℕ}

theorem diskPhys_of_whole (h1 : 1 ≤ n) (h64 : n ≤ 64) (hfull : Full d a n) (hw : Whole mode a n) :
    diskPhys mode d a n = .ok (ofRead mode (fun p => d.bit (place mode (a + p))) n) := by
  cases mode with
  | little =>
    rw [diskPhys_little h1 h64, if_pos hfull]
    refine congrArg Except.ok (ofBits_congr fun i hi => ?_)
    rw [hw i hi, Bool.and_true]
    rfl
  | big => exact diskPhys_big h64 hfull hw

theorem diskPhys_stops (h1 : 1 ≤ n) (h64 : n ≤ 64) (hfull : ¬ Full d a n) :
    diskPhys mode d a n = .error .assertion := by
  cases mode with
  | little => rw [diskPhys_little h1 h64, if_neg hfull]
  | big =>
    by_cases hal : a % 8 = 0
    · rw [diskPhys, physWith_aligned hal, diskAligned_stops hfull]
    · rcases diskPhys_big_of_not h1 h64 (fun h => hfull h.1) with h | ⟨hal', -⟩
      · exact h
      · exact absurd hal' hal

theorem full_of_ok {b : ℕ} (h1 : 1 ≤ n) (h64 : n ≤ 64) (h : diskPhys mode d a n = .ok b) :
    Full d a n := by
  by_contra hfull
  rw [diskPhys_stops h1 h64 hfull] at h
  cases h

theorem lt_of_full (h1 : 1 ≤ n) (hfull : Full d a n) {p : ℕ} (hp : p < n) : a + p < 8 * d.size := by
  rw [Full] at hfull
  omega

/-- If the bits of the first and of the last byte are where they are read, and the bits of all disks
of a size come back from the places `x`, then each of them is read from its place. -/
theorem whole_of_forall {x : ℕ → ℕ} (h1 : 1 ≤ n) (h64 : n ≤ 64) (hfull : Full d a n)
    (hends : ∀ p, p < n → p / 8 = 0 ∨ p / 8 = (n - 1) / 8 → x p = a + p)
    (h : ∀ e : Disk, e.size = d.size →
      diskPhys mode e a n = .ok (ofRead mode (fun p => e.bit (place mode (x p))) n)) :
    Whole mode a n ∧ ∀ p, p < n → x p = a + p := by
  have hspot : ∀ y, Full (spot d.size y d.size_lt) a n := fun y => hfull
  cases mode with
  | little =>
    -- the disk with bit `p` of the field alone
    have hkeep : ∀ p, p < n → (keepsBit a n p = true ↔ x p = a + p) := by
      intro p hp
      have hp8 : a + p < 8 * d.size := lt_of_full h1 hfull hp
      have hread := h (spot d.size (a + p) d.size_lt) rfl
      rw [diskPhys_little h1 h64, if_pos (hspot _)] at hread
      have hbit := ofBits_inj (Except.ok.inj hread) hp
      rw [bit_spot _ hp8, bit_spot _ hp8, decide_eq_true rfl, Bool.true_and] at hbit
      rw [hbit, decide_eq_true_iff]
      rfl
    have hall : ∀ p, p < n → keepsBit a n p = true := by
      intro p hp
      by_cases hal : a % 8 = 0
      · by_cases hlast : p / 8 = (n - 1) / 8
        · exact (hkeep p hp).mpr (hends p hp (.inr hlast))
        · rw [keepsBit, if_pos hal, decide_eq_true_iff]
          right
          omega
      · have hfirst := (hkeep 0 (by omega)).mpr (hends 0 (by omega) (.inl rfl))
        rw [keepsBit, if_neg hal, decide_eq_true_iff] at hfirst ⊢
        left
        omega
    exact ⟨hall, fun p hp => (hkeep p hp).mp (hall p hp)⟩
  | big =>
    by_cases hshape : BeShape a n
    · refine ⟨hshape, fun p hp => ?_⟩
      have hlt : place .big (a + p) < 8 * d.size := by
        have hp8 := lt_of_full h1 hfull hp
        simp only [place]
        omega
      have hread := h (spot d.size (place .big (a + p)) d.size_lt) rfl
      have hw : Whole .big a n := hshape
      rw [diskPhys_of_whole h1 h64 (hspot _) hw] at hread
      have hbit := ofRead_inj (Except.ok.inj hread) hp
      rw [bit_spot _ hlt, bit_spot _ hlt, decide_eq_true rfl] at hbit
      exact place_inj (of_decide_eq_true hbit.symm)
    · -- read as a little-endian field, whose first bit is in another place
      exfalso
      have hlt : a < 8 * d.size := lt_of_full (p := 0) h1 hfull (by omega)
      have hread := h (spot d.size a d.size_lt) rfl
      rcases diskPhys_big_of_not h1 h64 (d := spot d.size a d.size_lt) (fun h => hshape h.2)
        with hstop | ⟨hal, hn, hval⟩
      · rw [hstop] at hread
        cases hread
      · rw [hval] at hread
        have hbit : ((spot d.size a d.size_lt).bit (a + 0) && keepsBit a n 0) =
            (spot d.size a d.size_lt).bit (place .big (x (n - 1 - 0))) :=
          ofBits_inj (Except.ok.inj hread) (show 0 < n by omega)
        have hkeep : keepsBit a n 0 = true := by
          rw [keepsBit, if_pos hal, decide_eq_true_iff]
          omega
        have hx : x (n - 1) = a + (n - 1) := hends (n - 1) (by omega) (.inr rfl)
        have hne : place .big (a + (n - 1)) ≠ a := by
          simp only [place]
          omega
        rw [hkeep, Bool.and_true, Nat.add_zero, Nat.sub_zero, hx, bit_spot _ hlt, bit_spot _ hlt,
          decide_eq_true rfl, decide_eq_false hne] at hbit
        cases hbit

end Phys

/-! ## Reading a field -/

/-- The first and the last byte of a field are not as far apart on the disk as they are in the
address space: `__getLocal` stops on its assertion. -/
def Refused (clo : Closure) (v n : UInt64) : Prop :=
  ∃ a b, toPhys clo v = .ok a ∧ toPhys clo (v + spread n) = .ok b ∧ a + spread n ≠ b

/-- The bytes of the field translate, one by one, to the addresses `A`. -/
def Translates (clo : Closure) (v n : UInt64) (A : ℕ → UInt64) : Prop :=
  ∀ i, 8 * i < n.toNat → toPhys clo (v + 8 * UInt64.ofNat i) = .ok (A i)

/-- `__getLocal` returns the number of the bytes that the bytes of the field translate to, or refuses
the field. -/
def ReadsBytes (mode : Mode) (d : Disk) (clo : Closure) (v n : UInt64) : Prop :=
  Refused clo v n ∨ ∃ A, Translates clo v n A ∧ ∀ rt : Rt, Over d rt.io → ∃ clo' rt',
    getLocalIo mode clo v n rt = .ok ((UInt64.ofNat (bytesField mode d A n.toNat), clo'), rt')

section Run

variable {mode : Mode} {d : Disk} {clo : Closure} {v n a : UInt64}

theorem spread_eq (h0 : 0 < n) : spread n = 8 * UInt64.ofNat ((n.toNat - 1) / 8) := by
  have hpos : 1 ≤ n.toNat := UInt64.lt_iff_toNat_lt.mp h0
  have hn := n.toNat_lt
  have hle : (1 : UInt64) ≤ n := UInt64.le_iff_toNat_le.mpr hpos
  have hsub : (n - 1).toNat = n.toNat - 1 := UInt64.toNat_sub_of_le n 1 hle
  have height : (8 : UInt64).toNat = 8 := rfl
  have hdiv : (n - 1) / 8 = UInt64.ofNat ((n.toNat - 1) / 8) := by
    rw [← UInt64.toNat_inj, UInt64.toNat_div, hsub, height, UInt64.toNat_ofNat']
    exact (Nat.mod_eq_of_lt (by omega)).symm
  rw [spread, hdiv]

theorem lt_of_diskPhys {bitOff numBits : ℕ} (h1 : 1 ≤ numBits) (h64 : numBits ≤ 64) {b : ℕ}
    (h : diskPhys mode d bitOff numBits = .ok b) : b < 2 ^ numBits := by
  cases mode with
  | little =>
    rw [diskPhys_little h1 h64] at h
    split at h
    · cases h
      exact ofBits_lt _ _
    · cases h
  | big => exact lt_of_diskPhys_big h1 h64 h

/-- What `__getLocal` does once it knows where the field is. -/
theorem read_refines (clo' : Closure) (h1 : 1 ≤ n.toNat) (h64 : n.toNat ≤ 64) :
    Refines (fun rt : Rt => Over d rt.io) (fun p b => p.1 = UInt64.ofNat b)
      (do
        let ret ← onIo (getLocalPhys mode a.toNat n.toNat)
        fslAssert (n = 1 → ret < 2)
        return (UInt64.ofNat ret, clo'))
      (diskPhys mode d a.toNat n.toNat) := by
  intro rt hrt
  have href : Refines (Over d) Eq (getLocalPhys mode a.toNat n.toNat)
      (diskPhys mode d a.toNat n.toNat) := getLocalPhys_refines h1 h64 a.toNat_lt
  have hread := href rt.io hrt
  have hio : onIo (getLocalPhys mode a.toNat n.toNat) rt =
      (getLocalPhys mode a.toNat n.toNat rt.io).map fun r => (r.1, { rt with io := r.2 }) := rfl
  cases hd : diskPhys mode d a.toNat n.toNat with
  | error e =>
    rw [hd] at hread
    change getLocalPhys mode a.toNat n.toNat rt.io = .error e at hread
    show (onIo (getLocalPhys mode a.toNat n.toNat) rt >>= _) = _
    rw [hio, hread]
    rfl
  | ok b =>
    rw [hd] at hread
    obtain ⟨ret, io', hx, rfl, hio'⟩ := hread
    have hbit : n = 1 → ret < 2 := by
      rintro rfl
      exact lt_of_diskPhys h1 h64 hd
    refine ⟨(UInt64.ofNat ret, clo'), { rt with io := io' }, ?_, rfl, hio'⟩
    show (onIo (getLocalPhys mode a.toNat n.toNat) rt >>= _) = _
    rw [hio, hx]
    show (fslAssert (n = 1 → ret < 2) >>= fun _ => pure (UInt64.ofNat ret, clo') : RtM _) _ = _
    rw [fslAssert_bind_of hbit]
    rfl

/-- The translations of the first and of the last byte. -/
theorem exists_translations {b : UInt64} (hc : CacheReached clo) (ha : toPhys clo v = .ok a)
    (hb : toPhys clo (v + spread n) = .ok b) :
    ∃ clo₁ clo₂, tiPhysOffset clo v = .ok (a, clo₁) ∧
      tiPhysOffset clo₁ (v + spread n) = .ok (b, clo₂) := by
  have hright := hc.right Set.univ
  rcases hright.tiPhysOffset_cases (Set.mem_univ v) with ⟨e, h₁, -⟩ | ⟨a', clo₁, h₁, -, hc₁, heq⟩
  · rw [toPhys, h₁] at ha
    cases ha
  rw [toPhys, h₁] at ha
  cases ha
  have hb₁ : toPhys clo₁ (v + spread n) = .ok b := by
    rw [hc₁.toPhys_eq (Set.mem_univ _), heq, ← hright.toPhys_eq (Set.mem_univ _)]
    exact hb
  obtain ⟨clo₂, h₂⟩ := exists_of_toPhys hb₁
  exact ⟨clo₁, clo₂, h₁, h₂⟩

theorem Refused.stops (h : Refused clo v n) (hc : CacheReached clo) (h0 : 0 < n) (h64 : n ≤ 64)
    (rt : Rt) : getLocalIo mode clo v n rt = .error .assertion := by
  obtain ⟨a, b, ha, hb, hne⟩ := h
  cases hx : clo.xlate with
  | none =>
    rw [toPhys_of_none hx] at ha hb
    cases ha
    cases hb
    exact absurd rfl hne
  | some p =>
    obtain ⟨clo₁, clo₂, h₁, h₂⟩ := exists_translations hc ha hb
    simp only [getLocalIo, hx, h₁, lift_ok_bind]
    rw [fslAssert_bind_of h64, fslAssert_bind_of h0, h₂, lift_ok_bind, fslAssert, if_neg hne]
    rfl

/-- A field whose last byte is in its place is read where the first byte is. -/
theorem getLocalIo_reads (hc : CacheReached clo) (h0 : 0 < n) (h64 : n ≤ 64)
    (ha : toPhys clo v = .ok a) (hb : toPhys clo (v + spread n) = .ok (a + spread n)) :
    Refines (fun rt : Rt => Over d rt.io) (fun p b => p.1 = UInt64.ofNat b)
      (getLocalIo mode clo v n) (diskPhys mode d a.toNat n.toNat) := by
  have hpos : 1 ≤ n.toNat := UInt64.lt_iff_toNat_lt.mp h0
  have hle : n.toNat ≤ 64 := UInt64.le_iff_toNat_le.mp h64
  cases hx : clo.xlate with
  | none =>
    rw [toPhys_of_none hx] at ha
    cases ha
    simp only [getLocalIo, hx]
    rw [fslAssert_bind_of h64, fslAssert_bind_of h0]
    exact read_refines clo hpos hle
  | some p =>
    obtain ⟨clo₁, clo₂, h₁, h₂⟩ := exists_translations hc ha hb
    simp only [getLocalIo, hx, h₁, lift_ok_bind]
    rw [fslAssert_bind_of h64, fslAssert_bind_of h0, h₂, lift_ok_bind, fslAssert_bind_of rfl]
    exact read_refines clo₂ hpos hle

theorem Translates.first {A : ℕ → UInt64} (h : Translates clo v n A) (h0 : 0 < n) :
    toPhys clo v = .ok (A 0) := by
  have hpos : 0 < n.toNat := UInt64.lt_iff_toNat_lt.mp h0
  have hfirst := h 0 (by omega)
  rwa [show v + 8 * UInt64.ofNat 0 = v from UInt64.add_zero v] at hfirst

theorem Translates.last {A : ℕ → UInt64} (h : Translates clo v n A) (h0 : 0 < n) :
    toPhys clo (v + spread n) = .ok (A ((n.toNat - 1) / 8)) := by
  have hpos : 0 < n.toNat := UInt64.lt_iff_toNat_lt.mp h0
  rw [spread_eq h0]
  exact h _ (by omega)

theorem readsBytes_iff_diskPhys (hc : CacheReached clo) (h0 : 0 < n) (h64 : n ≤ 64) :
    ReadsBytes mode d clo v n ↔ Refused clo v n ∨ ∃ A, Translates clo v n A ∧
      A ((n.toNat - 1) / 8) = A 0 + spread n ∧
      diskPhys mode d (A 0).toNat n.toNat = .ok (bytesField mode d A n.toNat) := by
  have hpos : 1 ≤ n.toNat := UInt64.lt_iff_toNat_lt.mp h0
  have hle : n.toNat ≤ 64 := UInt64.le_iff_toNat_le.mp h64
  by_cases href : Refused clo v n
  · exact iff_of_true (.inl href) (.inl href)
  rw [ReadsBytes, or_iff_right href, or_iff_right href]
  refine exists_congr fun A => and_congr_right fun hA => ?_
  -- not refused, so the last byte is in its place
  have hlast : A ((n.toNat - 1) / 8) = A 0 + spread n := by
    by_contra hne
    exact href ⟨_, _, hA.first h0, hA.last h0, fun h => hne h.symm⟩
  have hread : Refines (fun rt : Rt => Over d rt.io) (fun p b => p.1 = UInt64.ofNat b)
      (getLocalIo mode clo v n) (diskPhys mode d (A 0).toNat n.toNat) :=
    getLocalIo_reads hc h0 h64 (hA.first h0) (hlast ▸ hA.last h0)
  have h64' : (2 : ℕ) ^ n.toNat ≤ 2 ^ 64 := Nat.pow_le_pow_right (by omega) hle
  rw [and_iff_right hlast]
  constructor
  · intro h
    have hrt : Over d (Rt.io ⟨⟨d, ioCacheInit fun _ _ => 0⟩, none⟩) :=
      ⟨rfl, (reachable_init d _).coherent⟩
    obtain ⟨clo', rt', hrun⟩ := h _ hrt
    have hout := hread _ hrt
    cases hd : diskPhys mode d (A 0).toNat n.toNat with
    | error e =>
      rw [hd] at hout
      change getLocalIo mode clo v n _ = .error e at hout
      rw [hrun] at hout
      cases hout
    | ok b =>
      rw [hd] at hout
      obtain ⟨p, rt'', hrun', hval, -⟩ := hout
      rw [hrun] at hrun'
      cases hrun'
      have hb := lt_of_diskPhys hpos hle hd
      have hfield : bytesField mode d A n.toNat < 2 ^ n.toNat := ofRead_lt _ _ _
      have heq := congrArg UInt64.toNat hval
      rw [UInt64.toNat_ofNat', UInt64.toNat_ofNat', Nat.mod_eq_of_lt (hfield.trans_le h64'),
        Nat.mod_eq_of_lt (hb.trans_le h64')] at heq
      exact congrArg Except.ok heq.symm
  · intro hd rt hrt
    have hout := hread rt hrt
    rw [hd] at hout
    obtain ⟨p, rt', hrun, hval, -⟩ := hout
    exact ⟨p.2, rt', by rw [hrun, ← hval]⟩

/-- For all disks of a size, a field comes back as its bytes do one by one, or is refused, exactly if
it is refused or each byte lies behind the one before it and the disk can be read there. -/
theorem readsBytes_iff (mode : Mode) (d : Disk) (hc : CacheReached clo) (h0 : 0 < n) (h64 : n ≤ 64) :
    (∀ e : Disk, e.size = d.size → ReadsBytes mode e clo v n) ↔
      Refused clo v n ∨ ∃ A, Translates clo v n A ∧
        (∀ i, 8 * i < n.toNat → (A i).toNat = (A 0).toNat + 8 * i) ∧
        Full d (A 0).toNat n.toNat ∧ Whole mode (A 0).toNat n.toNat := by
  have hpos : 1 ≤ n.toNat := UInt64.lt_iff_toNat_lt.mp h0
  have hle : n.toNat ≤ 64 := UInt64.le_iff_toNat_le.mp h64
  by_cases href : Refused clo v n
  · exact iff_of_true (fun e _ => .inl href) (.inl href)
  rw [or_iff_right href]
  constructor
  · intro h
    have hreads : ∀ e : Disk, e.size = d.size → ∃ A, Translates clo v n A ∧
        A ((n.toNat - 1) / 8) = A 0 + spread n ∧
        diskPhys mode e (A 0).toNat n.toNat = .ok (bytesField mode e A n.toNat) :=
      fun e he => ((readsBytes_iff_diskPhys hc h0 h64).mp (h e he)).resolve_left href
    obtain ⟨A, hA, hlast, hd⟩ := hreads d rfl
    have hall : ∀ e : Disk, e.size = d.size →
        diskPhys mode e (A 0).toNat n.toNat = .ok (bytesField mode e A n.toNat) := by
      intro e he
      obtain ⟨A', hA', -, hd'⟩ := hreads e he
      have hsame : ∀ i, 8 * i < n.toNat → A' i = A i :=
        fun i hi => Except.ok.inj ((hA' i hi).symm.trans (hA i hi))
      rw [hsame 0 (by omega)] at hd'
      rw [hd']
      refine congrArg Except.ok (ofRead_congr fun p hp => ?_)
      rw [hsame (p / 8) (by omega)]
    have hfull : Full d (A 0).toNat n.toNat := full_of_ok hpos hle hd
    have hlastNat : (A ((n.toNat - 1) / 8)).toNat = (A 0).toNat + 8 * ((n.toNat - 1) / 8) := by
      have hin := lt_of_full hpos hfull (show 8 * ((n.toNat - 1) / 8) < n.toNat by omega)
      have hsize := d.size_lt
      have hspread : (spread n).toNat = 8 * ((n.toNat - 1) / 8) := by
        rw [spread_eq h0, UInt64.toNat_mul, UInt64.toNat_ofNat']
        have height : (8 : UInt64).toNat = 8 := rfl
        rw [height, Nat.mod_eq_of_lt (show (n.toNat - 1) / 8 < 2 ^ 64 by omega)]
        exact Nat.mod_eq_of_lt (by omega)
      rw [hlast, UInt64.toNat_add, hspread]
      exact Nat.mod_eq_of_lt (by omega)
    have hends : ∀ p, p < n.toNat → p / 8 = 0 ∨ p / 8 = (n.toNat - 1) / 8 →
        (A (p / 8)).toNat + p % 8 = (A 0).toNat + p := by
      rintro p hp (hp0 | hpl)
      · rw [hp0]
        omega
      · rw [hpl, hlastNat]
        omega
    obtain ⟨hwhole, hplaces⟩ := whole_of_forall hpos hle hfull hends hall
    refine ⟨A, hA, fun i hi => ?_, hfull, hwhole⟩
    have hplace := hplaces (8 * i) hi
    rwa [show 8 * i / 8 = i by omega, show 8 * i % 8 = 0 by omega, Nat.add_zero] at hplace
  · rintro ⟨A, hA, hplaces, hfull, hwhole⟩ e he
    rw [readsBytes_iff_diskPhys hc h0 h64, or_iff_right href]
    have hfull' : Full e (A 0).toNat n.toNat := by
      rw [Full, he]
      exact hfull
    have hlast : A ((n.toNat - 1) / 8) = A 0 + spread n := by
      by_contra hne
      exact href ⟨_, _, hA.first h0, hA.last h0, fun h => hne h.symm⟩
    refine ⟨A, hA, hlast, ?_⟩
    rw [diskPhys_of_whole hpos hle hfull' hwhole]
    refine congrArg Except.ok (ofRead_congr fun p hp => ?_)
    rw [hplaces (p / 8) (by omega), show (A 0).toNat + 8 * (p / 8) + p % 8 = (A 0).toNat + p by omega]

end Run

/-! ## A field over three source elements -/

/-- Three source elements of a byte each. -/
def threeBytes (off : UInt64 → UInt64) : Closure :=
  ⟨0, some (⟨⟨0, 2, 8⟩, fun i => ⟨off i, false⟩⟩, initCache fun _ => ⟨0, 0⟩)⟩

theorem threeBytes_reached (off : UInt64 → UInt64) : CacheReached (threeBytes off) := by
  intro l c h
  cases h
  exact Reached.init _

theorem toPhys_threeBytes {off : UInt64 → UInt64} {i : ℕ} (hi : i < 3)
    (hne : off (UInt64.ofNat i) ≠ 0) :
    toPhys (threeBytes off) (0 + 8 * UInt64.ofNat i) = .ok (off (UInt64.ofNat i)) := by
  have hidx : Geom.index ⟨0, 2, 8⟩ (0 + 8 * UInt64.ofNat i) = UInt64.ofNat i := by
    interval_cases i <;> decide
  have hmod : (0 + 8 * UInt64.ofNat i) % 8 = 0 := by interval_cases i <;> decide
  have hlt : 0 + 8 * UInt64.ofNat i < Geom.totalBits ⟨0, 2, 8⟩ := by interval_cases i <;> decide
  have hfits : FitsInt (Geom.index ⟨0, 2, 8⟩ (0 + 8 * UInt64.ofNat i)) := by
    interval_cases i <;> decide
  have hsum : off (UInt64.ofNat i) + 0 = off (UInt64.ofNat i) := UInt64.add_zero _
  rw [toPhys_of_some rfl (Reached.init _), lookup, fslAssert_of hmod, fslAssert_of hlt, ok_bind, ok_bind,
    addressInt_of_fits hfits, address, hidx, hmod, hsum, fslAssert_of hne]
  rfl

theorem translates_threeBytes {off : UInt64 → UInt64} (hne : ∀ i, i < 3 → off (UInt64.ofNat i) ≠ 0) :
    Translates (threeBytes off) 0 24 fun i => off (UInt64.ofNat i) := by
  intro i hi
  have hi3 : i < 3 := by
    have h24 : (24 : UInt64).toNat = 24 := rfl
    omega
  exact toPhys_threeBytes hi3 (hne i hi3)

theorem whole_threeBytes : Whole .little (UInt64.toNat 64) (UInt64.toNat 24) := by
  intro j hj
  have hj24 : j < 24 := hj
  interval_cases j <;> decide

theorem size128_lt : 128 < 2 ^ 61 := by norm_num

/-- Three source elements next to each other. -/
theorem readsBytes_adjacent :
    CacheReached (threeBytes fun i => 64 + 8 * i) ∧
    ∀ e : Disk, e.size = (spot 128 0 size128_lt).size →
      ReadsBytes .little e (threeBytes fun i => 64 + 8 * i) 0 24 := by
  refine ⟨threeBytes_reached _, ?_⟩
  have hA : Translates (threeBytes fun i => 64 + 8 * i) 0 24 _ :=
    translates_threeBytes fun i hi => by interval_cases i <;> decide
  refine (readsBytes_iff .little (spot 128 0 size128_lt) (threeBytes_reached _) (by decide)
    (by decide)).mpr (.inr ⟨_, hA, fun i hi => ?_, by decide, ?_⟩)
  · have hi3 : i < 3 := by
      have h24 : (24 : UInt64).toNat = 24 := rfl
      omega
    interval_cases i <;> decide
  · exact whole_threeBytes

/-- Where the middle one of three source elements is elsewhere, the byte behind the first one is read
in its place. -/
theorem not_readsBytes_scattered :
    CacheReached (threeBytes fun i => if i = 1 then 800 else 64 + 8 * i) ∧
    ¬ ReadsBytes .little (spot 128 800 size128_lt)
      (threeBytes fun i => if i = 1 then 800 else 64 + 8 * i) 0 24 := by
  refine ⟨threeBytes_reached _, ?_⟩
  have hA : Translates (threeBytes fun i => if i = 1 then 800 else 64 + 8 * i) 0 24 _ :=
    translates_threeBytes fun i hi => by interval_cases i <;> decide
  rw [readsBytes_iff_diskPhys (threeBytes_reached _) (by decide) (by decide)]
  rintro (⟨a, b, ha, hb, hne⟩ | ⟨A, hA', -, hd⟩)
  · -- the last element is in its place
    cases ha.symm.trans (hA.first (by decide))
    cases hb.symm.trans (hA.last (by decide))
    exact hne (by decide)
  · have hA0 : A 0 = 64 := by
      have hfirst := Except.ok.inj ((hA' 0 (by decide)).symm.trans (hA 0 (by decide)))
      rw [hfirst]
      decide
    have hA1 : A 1 = 800 := by
      have hmid := Except.ok.inj ((hA' 1 (by decide)).symm.trans (hA 1 (by decide)))
      rw [hmid]
      decide
    have hfull : Full (spot 128 800 size128_lt) (UInt64.toNat 64) (UInt64.toNat 24) := by decide
    rw [hA0, diskPhys_of_whole (by decide) (by decide) hfull whole_threeBytes, bytesField] at hd
    -- bit 8 of the field
    have hbit := ofRead_inj (Except.ok.inj hd) (show 8 < (24 : UInt64).toNat by decide)
    rw [show 8 / 8 = 1 from rfl, hA1, bit_spot _ (by decide), bit_spot _ (by decide)] at hbit
    exact absurd hbit (by decide)

end Fsl.Fuse
