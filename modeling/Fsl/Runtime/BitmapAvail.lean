import Fsl.Runtime.BitmapRange

/-!
# Allocation in a bitmap

`bmp_set_avail` looks for clear bits next to each other and sets them; `bmp_count_set` and
`bmp_count_avail` count. All of them go on to the end of the last byte.
-/

namespace Fsl

open BitNum FirstFit

namespace Bitmap

/-- The first bit with the value among the last `k` bits of a byte. -/
def findByte (val : Bool) (byte : UInt8) : ℕ → Option ℕ
  | 0 => none
  | k + 1 => if byte.toNat.testBit (7 - k) = val then some (7 - k) else findByte val byte k

/-- The byte that has no bit with the value. -/
def byteWithout (val : Bool) : UInt8 := if val then 0 else 0xff

/-- The loop of `bmp_find_set` and `bmp_find_avail` over `k` bytes from byte `i` on; the first one is
entered at bit `left`. -/
def findBytes (val : Bool) (data : ℕ → UInt8) : ℕ → ℕ → ℕ → Except Stop ℤ
  | 0, _, _ => return -1
  | k + 1, i, left =>
    match (if data i = byteWithout val then none else findByte val (data i) (8 - left)) with
    | some ii => addInt (i * 8 : ℕ) (ii : ℕ)
    | none => findBytes val data k (i + 1) 0

/-- `bmp_find_set` and `bmp_find_avail` -/
def bmpFind (val : Bool) (b : Bitmap) (offset : UInt32) : Except Stop ℤ :=
  findBytes val b.data (b.bytes.toNat - offset.toNat / 8) (offset.toNat / 8) (offset.toNat % 8)

/-- `bmp_find_avail` -/
def bmpFindAvail : Bitmap → UInt32 → Except Stop ℤ := bmpFind false

/-- The loop of `bmp_set_avail`; there is no value before it has ended. The count is compared and the
next position is checked without sign. -/
def setAvailLoop (n : UInt32) (b : Bitmap) : ℕ → ℤ → Except Stop (Option (ℤ × Bitmap))
  | 0, _ => return none
  | turns + 1, availLoc => do
    let availLoc ← bmpFindAvail b (UInt32.ofInt availLoc)
    if availLoc = -1 then return some (-1, b)
    else do
      let count ← bmpCountContigAvail b (UInt32.ofInt availLoc)
      if count < n.toNat then do
        let availLoc ← addInt availLoc count
        if UInt32.ofInt availLoc ≤ b.size - n then setAvailLoop n b turns availLoc
        else return some (-1, b)
      else do
        let b ← bmpSet b (UInt32.ofInt availLoc) n
        return some (availLoc, b)

/-- `bmp_set_avail`: what it returns, and the bitmap. -/
def bmpSetAvail (turns : ℕ) (b : Bitmap) (offset n : UInt32) :
    Except Stop (Option (ℤ × Bitmap)) := do
  fslAssert (offset < b.size)
  setAvailLoop n b turns (toInt offset)

/-- Count the bits with the value among the last `k` bits of a byte. -/
def tallyByte (val : Bool) (byte : UInt8) : ℕ → ℕ → Except Stop ℕ
  | 0, n => return n
  | k + 1, n =>
    if byte.toNat.testBit (7 - k) = val then
      if n + 1 < 2 ^ 31 then tallyByte val byte k (n + 1) else .error .fault
    else tallyByte val byte k n

/-- Count over `k` bytes from byte `i` on; the first one is entered at bit `left`. -/
def tallyBytes (val : Bool) (data : ℕ → UInt8) : ℕ → ℕ → ℕ → ℕ → Except Stop ℕ
  | 0, _, _, n => return n
  | k + 1, i, left, n => do
    let n ← tallyByte val (data i) (8 - left) n
    tallyBytes val data k (i + 1) 0 n

/-- `bmp_count_set` and `bmp_count_avail` -/
def bmpCount (val : Bool) (b : Bitmap) (offset : UInt32) : Except Stop ℕ := do
  fslAssert (offset < b.size)
  tallyBytes val b.data (b.bytes.toNat - offset.toNat / 8) (offset.toNat / 8) (offset.toNat % 8) 0

/-- `bmp_count_set` -/
def bmpCountSet : Bitmap → UInt32 → Except Stop ℕ := bmpCount true

/-- `bmp_count_avail` -/
def bmpCountAvail : Bitmap → UInt32 → Except Stop ℕ := bmpCount false

/-! ## Finding a bit -/

variable {b : Bitmap} {val : Bool} {n : ℕ}

theorem findByte_eq (val : Bool) (byte : UInt8) {k : ℕ} (hk : k ≤ 8) :
    findByte val byte k =
      if run (fun j => byte.toNat.testBit j == !val) k (8 - k) < k then
        some (8 - k + run (fun j => byte.toNat.testBit j == !val) k (8 - k)) else none := by
  induction k with
  | zero => rfl
  | succ k ih =>
    have hnext : 8 - (k + 1) + 1 = 8 - k := by omega
    have hpos : 8 - (k + 1) = 7 - k := by omega
    rw [findByte, ih (by omega), run, hnext, hpos]
    cases hbit : byte.toNat.testBit (7 - k) == !val with
    | true =>
      have hne : ¬ byte.toNat.testBit (7 - k) = val := by
        cases val <;> simpa using hbit
      have hsum : ∀ r, 7 - k + (r + 1) = 8 - k + r := fun r => by omega
      simp only [if_neg hne, if_true, Nat.add_lt_add_iff_right, hsum]
    | false =>
      have heq : byte.toNat.testBit (7 - k) = val := by
        cases val <;> simpa using hbit
      simp [heq]

theorem testBit_byteWithout (val : Bool) {j : ℕ} (hj : j < 8) :
    (byteWithout val).toNat.testBit j ≠ val := by
  unfold byteWithout
  cases val with
  | true => simp
  | false =>
    rw [if_neg (by decide), testBit_full]
    simp [hj]

/-- Nothing is found in a byte that is passed at once. -/
theorem findByte_byteWithout (val : Bool) (k : ℕ) : findByte val (byteWithout val) k = none := by
  induction k with
  | zero => rfl
  | succ k ih => rw [findByte, if_neg (testBit_byteWithout val (by omega)), ih]

theorem ite_byteWithout (val : Bool) (byte : UInt8) (k : ℕ) :
    (if byte = byteWithout val then none else findByte val byte k) = findByte val byte k := by
  split
  next hbyte => rw [hbyte, findByte_byteWithout]
  next => rfl

/-- The search goes on by a run of the other value. -/
theorem findBytes_eq (val : Bool) (data : ℕ → UInt8) {k i left : ℕ} (hleft : left < 8)
    (hk : k = 0 → left = 0) :
    findBytes val data k i left =
      if run (fun j => bitOf data j == !val) (8 * k - left) (8 * i + left) < 8 * k - left then
        addInt (8 * i + left : ℕ) (run (fun j => bitOf data j == !val) (8 * k - left) (8 * i + left))
      else .ok (-1) := by
  induction k generalizing i left with
  | zero => rw [hk rfl]; rfl
  | succ k ih =>
    have hbyte : run (fun j => (data i).toNat.testBit j == !val) (8 - left) (8 - (8 - left)) =
        run (fun j => bitOf data j == !val) (8 - left) (8 * i + left) := by
      refine run_congr fun j hj => ?_
      have hdiv : (8 * i + left + j) / 8 = i := by omega
      have hmod : (8 * i + left + j) % 8 = 8 - (8 - left) + j := by omega
      rw [bitOf, hdiv, hmod]
    have hsplit : 8 * (k + 1) - left = (8 - left) + 8 * k := by omega
    have hnext : 8 * i + left + (8 - left) = 8 * (i + 1) := by omega
    rw [findBytes, ite_byteWithout, findByte_eq val _ (by omega), hbyte, hsplit, run_add, hnext]
    have hle := run_le (fun j => bitOf data j == !val) (8 - left) (8 * i + left)
    generalize run (fun j => bitOf data j == !val) (8 - left) (8 * i + left) = r at hle ⊢
    by_cases hr : r < 8 - left
    · rw [if_pos hr, if_neg hr.ne, if_pos (by omega)]
      have hsum : (i * 8 : ℕ) + ((8 - (8 - left) + r : ℕ) : ℤ) = (8 * i + left : ℕ) + (r : ℤ) := by
        omega
      show addInt _ _ = addInt _ _
      rw [addInt, addInt, hsum]
    · rw [if_neg hr, if_pos (show r = 8 - left by omega)]
      show findBytes val data k (i + 1) 0 = _
      rw [ih (by decide) fun _ => rfl, Nat.sub_zero, Nat.add_zero]
      refine if_congr (by omega) ?_ rfl
      rw [addInt, addInt, ← Int.natCast_add, ← Int.natCast_add, ← Nat.add_assoc, hnext]

/-! ## Counting bits -/

theorem tallyByte_eq (val : Bool) (byte : UInt8) {k : ℕ} (hk : k ≤ 8) (hn : n < 2 ^ 31) :
    tallyByte val byte k n =
      if n + Nat.count (fun j => byte.toNat.testBit (8 - k + j) = val) k < 2 ^ 31 then
        .ok (n + Nat.count (fun j => byte.toNat.testBit (8 - k + j) = val) k)
      else .error .fault := by
  induction k generalizing n with
  | zero =>
    rw [tallyByte, Nat.count_zero, Nat.add_zero, if_pos hn]
    rfl
  | succ k ih =>
    have hpos : 8 - (k + 1) = 7 - k := by omega
    have hcount : Nat.count (fun j => byte.toNat.testBit (7 - k + j) = val) (k + 1) =
        Nat.count (fun j => byte.toNat.testBit (8 - k + j) = val) k +
          if byte.toNat.testBit (7 - k) = val then 1 else 0 := by
      have hnext : ∀ j, 7 - k + (j + 1) = 8 - k + j := fun j => by omega
      rw [Nat.count_succ']
      simp only [hnext, Nat.add_zero]
    rw [tallyByte, hpos, hcount]
    by_cases hbit : byte.toNat.testBit (7 - k) = val
    · rw [if_pos hbit, if_pos hbit]
      by_cases hlt : n + 1 < 2 ^ 31
      · rw [if_pos hlt, ih (by omega) hlt, Nat.add_right_comm, Nat.add_assoc]
      · rw [if_neg hlt, if_neg (by omega)]
    · rw [if_neg hbit, if_neg hbit, ih (by omega) hn, Nat.add_zero]

theorem tallyBytes_eq (val : Bool) (data : ℕ → UInt8) {k i left : ℕ} (hleft : left < 8)
    (hk : k = 0 → left = 0) (hn : n < 2 ^ 31) :
    tallyBytes val data k i left n =
      if n + Nat.count (fun j => bitOf data (8 * i + left + j) = val) (8 * k - left) < 2 ^ 31 then
        .ok (n + Nat.count (fun j => bitOf data (8 * i + left + j) = val) (8 * k - left))
      else .error .fault := by
  induction k generalizing i left n with
  | zero =>
    rw [hk rfl, tallyBytes, Nat.count_zero, Nat.add_zero, if_pos hn]
    rfl
  | succ k ih =>
    have hbit : ∀ j, j < 8 - left → ((data i).toNat.testBit (8 - (8 - left) + j) = val ↔
        bitOf data (8 * i + left + j) = val) := by
      intro j hj
      have hdiv : (8 * i + left + j) / 8 = i := by omega
      have hmod : (8 * i + left + j) % 8 = 8 - (8 - left) + j := by omega
      rw [bitOf, hdiv, hmod]
    have hbyte : Nat.count (fun j => (data i).toNat.testBit (8 - (8 - left) + j) = val) (8 - left) =
        Nat.count (fun j => bitOf data (8 * i + left + j) = val) (8 - left) :=
      le_antisymm (Nat.count_mono_left fun j hj => (hbit j hj).mp)
        (Nat.count_mono_left fun j hj => (hbit j hj).mpr)
    have hsplit : 8 * (k + 1) - left = (8 - left) + 8 * k := by omega
    have hnext : ∀ j, 8 * i + left + (8 - left + j) = 8 * (i + 1) + j := fun j => by omega
    rw [tallyBytes, tallyByte_eq val _ (by omega) hn, hbyte, hsplit, Nat.count_add]
    simp only [hnext]
    generalize Nat.count (fun j => bitOf data (8 * i + left + j) = val) (8 - left) = c
    by_cases hlt : n + c < 2 ^ 31
    · rw [if_pos hlt, ok_bind, ih (by decide) (fun _ => rfl) hlt, Nat.sub_zero, Nat.add_zero,
        Nat.add_assoc]
    · rw [if_neg hlt, if_neg (by omega)]
      rfl

/-- Every one of `k` bits is either set or clear. -/
theorem count_add_count (f : ℕ → Bool) (k : ℕ) :
    Nat.count (fun j => f j = true) k + Nat.count (fun j => f j = false) k = k := by
  induction k with
  | zero => rfl
  | succ k ih =>
    rw [Nat.count_succ, Nat.count_succ]
    cases hk : f k <;> simp <;> omega

theorem bmpCount_eq (val : Bool) {offset : UInt32} (hoff : offset < b.size) :
    bmpCount val b offset =
      if Nat.count (fun j => bitOf b.data (offset.toNat + j) = val)
          (8 * b.bytes.toNat - offset.toNat) < 2 ^ 31 then
        .ok (Nat.count (fun j => bitOf b.data (offset.toNat + j) = val)
          (8 * b.bytes.toNat - offset.toNat))
      else .error .fault := by
  rw [bmpCount, fslAssert_of hoff, ok_bind]
  by_cases hin : b.bytes.toNat ≤ offset.toNat / 8
  · have hnone : 8 * b.bytes.toNat - offset.toNat = 0 := by omega
    have hstop : b.bytes.toNat - offset.toNat / 8 = 0 := by omega
    rw [hnone, hstop, Nat.count_zero, tallyBytes]
    rfl
  · have hwidth : 8 * (b.bytes.toNat - offset.toNat / 8) - offset.toNat % 8 =
        8 * b.bytes.toNat - offset.toNat := by omega
    have hpos : 8 * (offset.toNat / 8) + offset.toNat % 8 = offset.toNat := by omega
    rw [tallyBytes_eq val _ (Nat.mod_lt _ (by decide)) (by omega) (by decide), hwidth, hpos]
    simp only [Nat.zero_add]

/-- The bits with the value from `offset` up to the size. -/
def number (b : Bitmap) (val : Bool) (offset : ℕ) : ℕ :=
  Nat.count (fun j => bitOf b.data (offset + j) = val) (b.size.toNat - offset)

/-- The set and the clear bits add up to what is left of the bitmap. -/
def CountExact (b : Bitmap) (offset : UInt32) : Prop :=
  ∃ s a, bmpCountSet b offset = .ok s ∧ bmpCountAvail b offset = .ok a ∧
    s + a = b.size.toNat - offset.toNat

theorem toNat_bytes_mod (hinit : b.bytes = (b.size + 7) / 8) :
    b.bytes.toNat = (b.size.toNat + 7) % 2 ^ 32 / 8 := by
  rw [hinit, UInt32.toNat_div, UInt32.toNat_add]
  rfl

/-- The counts read the padding, and an `int` overflows at `2 ^ 31`. -/
theorem countExact_iff {offset : UInt32} (hinit : b.bytes = (b.size + 7) / 8)
    (hoff : offset < b.size) :
    CountExact b offset ↔ b.size.toNat % 8 = 0 ∧
      b.number true offset.toNat < 2 ^ 31 ∧ b.number false offset.toNat < 2 ^ 31 := by
  have hlt := UInt32.lt_iff_toNat_lt.mp hoff
  have hsize := b.size.toNat_lt
  have hlen := toNat_bytes_mod hinit
  have hadd := count_add_count (fun j => bitOf b.data (offset.toNat + j))
    (8 * b.bytes.toNat - offset.toNat)
  unfold CountExact bmpCountSet bmpCountAvail
  rw [bmpCount_eq true hoff, bmpCount_eq false hoff]
  constructor
  · rintro ⟨s, a, hs, ha, hsum⟩
    split at hs
    next hset =>
      split at ha
      next hclear =>
        obtain rfl := Except.ok.inj hs
        obtain rfl := Except.ok.inj ha
        have hwhole : 8 * b.bytes.toNat = b.size.toNat := by omega
        rw [hwhole] at hset hclear
        exact ⟨by omega, hset, hclear⟩
      next => cases ha
    next => cases hs
  · rintro ⟨hal, hset, hclear⟩
    have hwhole : 8 * b.bytes.toNat = b.size.toNat := by omega
    rw [hwhole] at hadd ⊢
    exact ⟨_, _, if_pos hset, if_pos hclear, hadd⟩

/-! ## The search -/

/-- Bit `j` is clear. -/
def isClear (b : Bitmap) (j : ℕ) : Bool := bitOf b.data j == false

theorem isClear_iff {j : ℕ} : b.isClear j = true ↔ bitOf b.data j = false := beq_iff_eq

theorem not_isClear_iff {j : ℕ} : b.isClear j = false ↔ bitOf b.data j = true := by
  unfold isClear
  cases bitOf b.data j <;> decide

/-- No sum of the search without an answer reaches `2 ^ 31`: there is no clear bit so far up, or the
search ends before it at a run that leaves no room for `n` bits. -/
def Stays (b : Bitmap) (n cur : ℕ) : Prop :=
  (∀ j, cur ≤ j → 2 ^ 31 - 1 ≤ j → j < b.size.toNat → bitOf b.data j = true) ∨
  n ≤ b.size.toNat ∧ ∃ j k, cur ≤ j ∧ j < k ∧ k < b.size.toNat ∧ k < 2 ^ 31 ∧
    bitOf b.data j = false ∧ bitOf b.data k = true ∧ b.size.toNat ≤ j + n

/-- The bits from `c` on can be set without an overflow. -/
def Settable (n c : ℕ) : Prop := c ≤ 2 ^ 31 - 8 ∨ c + n < 2 ^ 31

/-- The result of the search from position `cur` on. -/
def Outcome (b : Bitmap) (n cur : ℕ) (res : Except Stop (Option (ℤ × Bitmap))) : Prop :=
  (∃ c, Least b.isClear n cur b.size.toNat c ∧
    (Settable n c → ∃ b', res = .ok (some (c, b')) ∧ Puts true b b' c (c + n)) ∧
    (¬ Settable n c → res = .error .fault)) ∨
  (∀ c, ¬ Fits b.isClear n cur b.size.toNat c) ∧
    (b.Stays n cur → res = .ok (some (-1, b))) ∧ (¬ b.Stays n cur → res = .error .fault)

section Search

variable {n cur r : ℕ} {res : Except Stop (Option (ℤ × Bitmap))}

theorem Stays.skip_set (h : ∀ j, j < r → bitOf b.data (cur + j) = true) :
    b.Stays n cur ↔ b.Stays n (cur + r) := by
  have hge : ∀ j, cur ≤ j → bitOf b.data j = false → cur + r ≤ j := by
    intro j hj hclear
    by_contra hlt
    have hset := h (j - cur) (by omega)
    rw [Nat.add_sub_cancel' hj, hclear] at hset
    cases hset
  constructor
  · rintro (hall | ⟨hn, j, k, hj, hrest⟩)
    · exact Or.inl fun j hj => hall j (by omega)
    · exact Or.inr ⟨hn, j, k, hge j hj hrest.2.2.2.1, hrest⟩
  · rintro (hall | ⟨hn, j, k, hj, hrest⟩)
    · refine Or.inl fun j hj hhigh hlt => ?_
      cases hbit : bitOf b.data j with
      | true => rfl
      | false => rw [← hall j (hge j hj hbit) hhigh hlt, hbit]
    · exact Or.inr ⟨hn, j, k, by omega, hrest⟩

/-- A run that ends below `2 ^ 31` and leaves room for `n` bits. -/
theorem Stays.skip_clear (hlt : cur + r < 2 ^ 31)
    (hroom : n ≤ b.size.toNat → cur + r + n ≤ b.size.toNat) :
    b.Stays n cur ↔ b.Stays n (cur + r) := by
  constructor
  · rintro (hall | ⟨hn, j, k, hj, hjk, hk, hk31, hclear, hset, hend⟩)
    · exact Or.inl fun j hj => hall j (by omega)
    · have hle := hroom hn
      exact Or.inr ⟨hn, j, k, by omega, hjk, hk, hk31, hclear, hset, hend⟩
  · rintro (hall | ⟨hn, j, k, hj, hrest⟩)
    · exact Or.inl fun j hj hhigh => hall j (by omega) hhigh
    · exact Or.inr ⟨hn, j, k, by omega, hrest⟩

theorem Outcome.of_skip (cur' : ℕ)
    (hfits : ∀ c, Fits b.isClear n cur b.size.toNat c ↔ Fits b.isClear n cur' b.size.toNat c)
    (hstays : b.Stays n cur ↔ b.Stays n cur') (h : Outcome b n cur' res) : Outcome b n cur res := by
  rcases h with ⟨c, hc, hres⟩ | ⟨hnone, hres⟩
  · exact Or.inl ⟨c, (least_congr hfits).mpr hc, hres⟩
  · refine Or.inr ⟨fun c hc => hnone c ((hfits c).mp hc), ?_⟩
    rwa [hstays]

/-- An overflow that no answer precedes. -/
theorem Outcome.of_overflow (hres : res = .error .fault)
    (hfits : ∀ c, Fits b.isClear n cur b.size.toNat c → 2 ^ 31 ≤ c) (hn : 0 < n)
    (hstays : ¬ b.Stays n cur) : Outcome b n cur res := by
  by_cases hex : ∃ c, Fits b.isClear n cur b.size.toNat c
  · obtain ⟨c, hc⟩ := hex
    obtain ⟨c', hleast, -⟩ := hc.exists_least
    have hge := hfits c' hleast.1
    refine Or.inl ⟨c', hleast, fun hset => ?_, fun _ => hres⟩
    unfold Settable at hset
    omega
  · exact Or.inr ⟨fun c hc => hex ⟨c, hc⟩, fun hs => absurd hs hstays, fun _ => hres⟩

variable (hbytes : 8 * b.bytes.toNat = b.size.toNat)
include hbytes

theorem bmpFindAvail_eq {offset : UInt32} (hoff : offset.toNat ≤ b.size.toNat) :
    bmpFindAvail b offset =
      if run (fun j => bitOf b.data j == true) (b.size.toNat - offset.toNat) offset.toNat <
          b.size.toNat - offset.toNat then
        addInt offset.toNat
          (run (fun j => bitOf b.data j == true) (b.size.toNat - offset.toNat) offset.toNat : ℕ)
      else .ok (-1) := by
  have hk : 8 * (b.bytes.toNat - offset.toNat / 8) - offset.toNat % 8 =
      b.size.toNat - offset.toNat := by omega
  have hi : 8 * (offset.toNat / 8) + offset.toNat % 8 = offset.toNat := by omega
  rw [bmpFindAvail, bmpFind, findBytes_eq false _ (Nat.mod_lt _ (by decide)) (by omega), hk, hi]
  rfl

theorem bmpCountContigAvail_eq (offset : UInt32) (hoff : offset.toNat < b.size.toNat) :
    bmpCountContigAvail b offset =
      if run b.isClear (b.size.toNat - offset.toNat) offset.toNat < 2 ^ 31 then
        .ok (run b.isClear (b.size.toNat - offset.toNat) offset.toNat)
      else .error .fault := by
  have hk : 8 * (b.bytes.toNat - offset.toNat / 8) - offset.toNat % 8 =
      b.size.toNat - offset.toNat := by omega
  have hi : 8 * (offset.toNat / 8) + offset.toNat % 8 = offset.toNat := by omega
  rw [bmpCountContigAvail, bmpCountContig,
    countBytes_eq false _ (Nat.mod_lt _ (by decide)) (by omega) (by decide), hk, hi]
  simp only [Nat.zero_add]
  rfl

omit hbytes in
theorem number_le {cur' : ℕ} (h : cur ≤ cur') : b.number val cur' ≤ b.number val cur := by
  unfold number
  obtain ⟨d, rfl⟩ := Nat.exists_eq_add_of_le h
  by_cases hd : d ≤ b.size.toNat - cur
  · have hsplit : b.size.toNat - cur = d + (b.size.toNat - (cur + d)) := by omega
    rw [hsplit, Nat.count_add]
    simp only [Nat.add_assoc]
    exact Nat.le_add_left _ _
  · have hnone : b.size.toNat - (cur + d) = 0 := by omega
    rw [hnone, Nat.count_zero]
    exact Nat.zero_le _

/-- The run of clear bits at `cur` is long enough. -/
theorem outcome_set {n : UInt32} (offset : UInt32) (hn : 0 < n.toNat) (hoff : offset.toNat < 2 ^ 31)
    (hr : n.toNat ≤ r) (hr31 : r < 2 ^ 31) (hend : offset.toNat + r ≤ b.size.toNat)
    (hall : ∀ j, j < r → b.isClear (offset.toNat + j) = true) :
    Outcome b n.toNat offset.toNat (do
      let b ← bmpSet b offset n
      return some ((offset.toNat : ℤ), b)) := by
  refine Or.inl ⟨offset.toNat, least_self hall hr (by omega), fun hset => ?_, fun hset => ?_⟩
  · unfold Settable at hset
    obtain ⟨b', hput, h⟩ := puts_bmpPut true (b := b) hoff hn (by omega) (by omega) (by omega)
      (show offset.toNat % 8 = 0 ∨ _ by omega)
    refine ⟨b', ?_, h⟩
    rw [bmpSet, hput]
    rfl
  · unfold Settable at hset
    rw [bmpSet, bmpPut_overflow hoff hn (by omega) (by omega) (by omega) (by omega) (by omega)]
    rfl

omit hbytes in
/-- Whether the loop goes on at position `cur`. -/
theorem le_size_sub_iff (n cur' : UInt32) (hcur : cur'.toNat ≤ b.size.toNat) :
    cur' ≤ b.size - n ↔ (n.toNat ≤ b.size.toNat → cur'.toNat + n.toNat ≤ b.size.toNat) := by
  have hlt := n.toNat_lt
  have hsize := b.size.toNat_lt
  rw [UInt32.le_iff_toNat_le, UInt32.toNat_sub]
  omega

omit hbytes in
/-- The run of clear bits at `cur` is too short. -/
theorem outcome_short {n : UInt32} (hn : 0 < n.toNat) (hcur : cur < 2 ^ 31) (hpos : 0 < r)
    (hr : r < n.toNat) (hend : cur + r ≤ b.size.toNat)
    (hall : ∀ j, j < r → bitOf b.data (cur + j) = false)
    (hstop : cur + r < b.size.toNat → bitOf b.data (cur + r) = true)
    {next : ℤ → Except Stop (Option (ℤ × Bitmap))}
    (hnext : cur + r < 2 ^ 31 → Outcome b n.toNat (cur + r) (next (cur + r : ℕ))) :
    Outcome b n.toNat cur (do
      let availLoc ← addInt cur r
      if UInt32.ofInt availLoc ≤ b.size - n then next availLoc else return some (-1, b)) := by
  have hskip : ∀ c, Fits b.isClear n.toNat cur b.size.toNat c ↔
      Fits b.isClear n.toNat (cur + r) b.size.toNat c :=
    fun c => fits_skip_short hr fun hlt => not_isClear_iff.mpr (hstop hlt)
  by_cases he : cur + r < 2 ^ 31
  · have hnat : (UInt32.ofInt ((cur + r : ℕ) : ℤ)).toNat = cur + r := by
      rw [ofInt_natCast]
      exact UInt32.toNat_ofNat_of_lt' (show cur + r < 2 ^ 32 by omega)
    have hiff := le_size_sub_iff (b := b) n (UInt32.ofInt ((cur + r : ℕ) : ℤ))
      (hnat.symm ▸ hend)
    rw [hnat] at hiff
    rw [addInt_natCast he, ok_bind]
    by_cases hroom : n.toNat ≤ b.size.toNat → cur + r + n.toNat ≤ b.size.toNat
    · rw [if_pos (hiff.mpr hroom)]
      exact (hnext he).of_skip _ hskip (Stays.skip_clear he hroom)
    · rw [if_neg (mt hiff.mp hroom)]
      refine Or.inr ⟨fun c hc => ?_, fun _ => rfl, fun hstays => absurd ?_ hstays⟩
      · have hge := ((hskip c).mp hc).ge
        have hle := hc.le
        omega
      · by_cases hlast : cur + r < b.size.toNat
        · have hbit := hall (r - 1) (by omega)
          exact Or.inr ⟨by omega, cur + (r - 1), cur + r, by omega, by omega, hlast, he, hbit,
            hstop hlast, by omega⟩
        · exact Or.inl fun j _ hhigh hlt => by omega
  · rw [addInt_overflow (not_lt.mp he)]
    refine Outcome.of_overflow rfl (fun c hc => ?_) hn ?_
    · have hge := ((hskip c).mp hc).ge
      omega
    · rintro (hset | ⟨-, j, k, hj, hjk, hk, hk31, -, hset, -⟩)
      · have hbit := hall (2 ^ 31 - 1 - cur) (by omega)
        have hbit' := hset (2 ^ 31 - 1) (by omega) le_rfl (by omega)
        rw [Nat.add_sub_cancel' (by omega), hbit'] at hbit
        cases hbit
      · have hbit := hall (k - cur) (by omega)
        rw [Nat.add_sub_cancel' (by omega), hset] at hbit
        cases hbit

theorem outcome_setAvailLoop {n : UInt32} (hn : 0 < n.toNat) (turns : ℕ) {z : ℤ}
    (hz : (UInt32.ofInt z).toNat = cur) (hcur : cur ≤ b.size.toNat)
    (hclear : b.number false cur < 2 ^ 31) (hturns : b.size.toNat - cur < turns) :
    Outcome b n.toNat cur (setAvailLoop n b turns z) := by
  induction turns generalizing z cur with
  | zero => omega
  | succ turns ih =>
    have hsize := b.size.toNat_lt
    rw [setAvailLoop, bmpFindAvail_eq hbytes (hz.symm ▸ hcur), hz]
    generalize hr₀ : run (fun j => bitOf b.data j == true) (b.size.toNat - cur) cur = r₀
    have hset : ∀ j, j < r₀ → bitOf b.data (cur + j) = true := fun j hj => by
      have hrun := of_lt_run (hr₀ ▸ hj)
      simpa using hrun
    by_cases hfound : r₀ < b.size.toNat - cur
    · have hstart : bitOf b.data (cur + r₀) = false := by
        have hrun := eq_false_of_run (hr₀.symm ▸ hfound)
        rw [hr₀] at hrun
        simpa using hrun
      rw [if_pos hfound]
      refine Outcome.of_skip (cur + r₀)
        (fun c => fits_skip_false hn fun j hj => not_isClear_iff.mpr (hset j hj))
        (Stays.skip_set hset) ?_
      have hnum : b.number false (cur + r₀) < 2 ^ 31 :=
        lt_of_le_of_lt (number_le (Nat.le_add_right _ _)) hclear
      generalize hs : cur + r₀ = s at hstart hnum ⊢
      by_cases hs31 : s < 2 ^ 31
      · have hoff : (UInt32.ofInt (s : ℤ)).toNat = s := by
          rw [ofInt_natCast]
          exact UInt32.toNat_ofNat_of_lt' (show s < 2 ^ 32 by omega)
        have hne : ¬ (s : ℤ) = -1 := by omega
        have hcount := bmpCountContigAvail_eq hbytes (UInt32.ofInt (s : ℤ)) (by omega)
        rw [hoff] at hcount
        have hle := run_le b.isClear (b.size.toNat - s) s
        have hmany : run b.isClear (b.size.toNat - s) s ≤ b.number false s :=
          (run_le_count _ _ _).trans (Nat.count_mono_left fun j _ hj => isClear_iff.mp hj)
        have hpos : 0 < run b.isClear (b.size.toNat - s) s :=
          run_pos (isClear_iff.mpr hstart) (by omega)
        have hall : ∀ j, j < run b.isClear (b.size.toNat - s) s → b.isClear (s + j) = true :=
          fun j hj => of_lt_run hj
        have hstop : s + run b.isClear (b.size.toNat - s) s < b.size.toNat →
            b.isClear (s + run b.isClear (b.size.toNat - s) s) = false :=
          fun hlt => eq_false_of_run (by omega)
        generalize run b.isClear (b.size.toNat - s) s = r at hcount hle hmany hpos hall hstop
        rw [if_pos (by omega)] at hcount
        rw [← hs, addInt_natCast (by omega), hs, ok_bind, if_neg hne, hcount, ok_bind]
        by_cases hr : r < n.toNat
        · rw [if_pos hr]
          exact outcome_short hn hs31 hpos hr (by omega) (fun j hj => isClear_iff.mp (hall j hj))
            (fun hlt => not_isClear_iff.mp (hstop hlt)) fun hlt => ih (by
              rw [ofInt_natCast]
              exact UInt32.toNat_ofNat_of_lt' (show s + r < 2 ^ 32 by omega)) (by omega)
            (lt_of_le_of_lt (number_le (Nat.le_add_right _ _)) hnum) (by omega)
        · have hres := outcome_set hbytes (UInt32.ofInt (s : ℤ)) hn (r := r) (by omega)
            (by omega) (by omega) (by omega) (by rwa [hoff])
          rw [hoff] at hres
          rw [if_neg hr]
          exact hres
      · rw [← hs, addInt_overflow (by omega), hs]
        refine Outcome.of_overflow rfl (fun c hc => (not_lt.mp hs31).trans hc.ge) hn ?_
        rintro (hall | ⟨-, j, k, hj, hjk, -, hk31, -⟩)
        · rw [hall s le_rfl (by omega) (by omega)] at hstart
          cases hstart
        · omega
    · -- every bit from `cur` on is set
      have hrest : ∀ j, cur ≤ j → j < b.size.toNat → bitOf b.data j = true := fun j hj hlt => by
        have hbit := hset (j - cur) (by omega)
        rwa [Nat.add_sub_cancel' hj] at hbit
      have hstays : b.Stays n.toNat cur := Or.inl fun j hj _ hlt => hrest j hj hlt
      rw [if_neg hfound, ok_bind, if_pos rfl]
      refine Or.inr ⟨fun c hc => ?_, fun _ => rfl, fun hno => absurd hstays hno⟩
      have hfree := isClear_iff.mp (hc.all c le_rfl (by omega))
      have hle := hc.le
      rw [hrest c hc.ge (by omega)] at hfree
      cases hfree

omit hbytes in
theorem bmpSetAvail_eq {offset n : UInt32} (hoff : offset < b.size) (turns : ℕ) :
    bmpSetAvail turns b offset n = setAvailLoop n b turns (toInt offset) := by
  rw [bmpSetAvail, fslAssert_of hoff, ok_bind]

theorem outcome_bmpSetAvail {offset n : UInt32} (hn : 0 < n.toNat) (hoff : offset < b.size)
    (hclear : b.number false offset.toNat < 2 ^ 31) {turns : ℕ} (hturns : b.size.toNat < turns) :
    Outcome b n.toNat offset.toNat (bmpSetAvail turns b offset n) := by
  have hlt := UInt32.lt_iff_toNat_lt.mp hoff
  rw [bmpSetAvail_eq hoff]
  exact outcome_setAvailLoop hbytes hn turns (congrArg UInt32.toNat (ofInt_toInt offset)) hlt.le
    hclear (by omega)

end Search

/-- `bmp_set_avail` sets the first `n` clear bits next to each other and returns where they are, or there
are none and it returns -1 and changes nothing. -/
def SetAvailExact (b : Bitmap) (offset n : UInt32) : Prop :=
  ∃ r b' enough, (∀ turns, enough ≤ turns → bmpSetAvail turns b offset n = .ok (some (r, b'))) ∧
    ((∃ c, Least b.isClear n.toNat offset.toNat b.size.toNat c ∧ r = c ∧
        PutsExactly true b b' c (c + n.toNat)) ∨
      (∀ c, ¬ Fits b.isClear n.toNat offset.toNat b.size.toNat c) ∧ r = -1 ∧ b' = b)

/-- The bitmap has no padding, and no `int` reaches `2 ^ 31`. -/
structure Safe (b : Bitmap) (offset n : UInt32) : Prop where
  whole : b.size.toNat % 8 = 0
  set : b.number true offset.toNat < 2 ^ 31
  clear : b.number false offset.toNat < 2 ^ 31
  search : (∃ c, Fits b.isClear n.toNat offset.toNat b.size.toNat c ∧ Settable n.toNat c) ∨
    (∀ c, ¬ Fits b.isClear n.toNat offset.toNat b.size.toNat c) ∧ b.Stays n.toNat offset.toNat

/-- Below `2 ^ 31` bits only the padding is in the way. -/
theorem safe_iff_of_lt {offset n : UInt32} (hsize : b.size.toNat < 2 ^ 31) :
    b.Safe offset n ↔ b.size.toNat % 8 = 0 := by
  refine ⟨Safe.whole, fun hal => ?_⟩
  have hnum : ∀ val, b.number val offset.toNat < 2 ^ 31 := fun val =>
    lt_of_le_of_lt ((Nat.count_le _).trans (Nat.sub_le _ _)) hsize
  refine ⟨hal, hnum true, hnum false, ?_⟩
  by_cases hex : ∃ c, Fits b.isClear n.toNat offset.toNat b.size.toNat c
  · obtain ⟨c, hc⟩ := hex
    have hle := hc.le
    exact Or.inl ⟨c, hc, Or.inr (by omega)⟩
  · exact Or.inr ⟨fun c hc => hex ⟨c, hc⟩, Or.inl fun j _ hhigh hlt => by omega⟩

theorem Settable.mono {n c c' : ℕ} (h : Settable n c) (hle : c' ≤ c) : Settable n c' := by
  unfold Settable at *
  omega

theorem setAvailExact_iff {offset n : UInt32} (hbytes : 8 * b.bytes.toNat = b.size.toNat)
    (hoff : offset < b.size) (hn : 1 ≤ n.toNat) (hclear : b.number false offset.toNat < 2 ^ 31) :
    SetAvailExact b offset n ↔
      (∃ c, Fits b.isClear n.toNat offset.toNat b.size.toNat c ∧ Settable n.toNat c) ∨
        (∀ c, ¬ Fits b.isClear n.toNat offset.toNat b.size.toNat c) ∧
          b.Stays n.toNat offset.toNat := by
  have hout : ∀ {turns}, b.size.toNat < turns →
      Outcome b n.toNat offset.toNat (bmpSetAvail turns b offset n) :=
    outcome_bmpSetAvail hbytes hn hoff hclear
  constructor
  · rintro ⟨r, b', enough, hrun, -⟩
    have hres := hrun (max enough (b.size.toNat + 1)) (le_max_left _ _)
    rcases hout (lt_of_lt_of_le (Nat.lt_succ_self _) (le_max_right enough (b.size.toNat + 1))) with
      ⟨c, hleast, -, hfault⟩ | ⟨hnone, -, hfault⟩
    · by_cases hset : Settable n.toNat c
      · exact Or.inl ⟨c, hleast.1, hset⟩
      · rw [hfault hset] at hres
        cases hres
    · by_cases hstays : b.Stays n.toNat offset.toNat
      · exact Or.inr ⟨hnone, hstays⟩
      · rw [hfault hstays] at hres
        cases hres
  · rintro (⟨c, hc, hset⟩ | ⟨hnone, hstays⟩)
    · obtain ⟨c₀, hleast, hle⟩ := hc.exists_least
      have hset₀ := hset.mono hle
      have hrun : ∀ {turns}, b.size.toNat < turns → ∃ b',
          bmpSetAvail turns b offset n = .ok (some ((c₀ : ℤ), b')) ∧
            Puts true b b' c₀ (c₀ + n.toNat) := by
        intro turns hturns
        rcases hout hturns with ⟨c₁, hleast₁, hok, -⟩ | ⟨hnone, -⟩
        · obtain rfl : c₁ = c₀ := hleast₁.eq hleast
          exact hok hset₀
        · exact absurd hc (hnone c)
      obtain ⟨b', -, hput⟩ := hrun (Nat.lt_succ_self _)
      refine ⟨c₀, b', b.size.toNat + 1, fun turns hturns => ?_, Or.inl ⟨c₀, hleast, rfl,
        hput.exactly hleast.1.le (by omega)⟩⟩
      obtain ⟨b'', hres, hput'⟩ := hrun hturns
      rw [hres, hput'.unique hput]
    · refine ⟨-1, b, b.size.toNat + 1, fun turns hturns => ?_, Or.inr ⟨hnone, rfl, rfl⟩⟩
      rcases hout hturns with ⟨c₁, hleast₁, -⟩ | ⟨-, hok, -⟩
      · exact absurd hleast₁.1 (hnone c₁)
      · exact hok hstays

/-- The allocation and the counts are exact where the bitmap has no padding and no `int` overflows. -/
theorem bmpSetAvail_exact_iff (b : Bitmap) (offset n : UInt32) (hinit : b.bytes = (b.size + 7) / 8)
    (hoff : offset < b.size) (hn : 1 ≤ n.toNat) :
    SetAvailExact b offset n ∧ CountExact b offset ↔ b.Safe offset n := by
  have hlen := toNat_bytes_mod hinit
  have hsize := b.size.toNat_lt
  rw [countExact_iff hinit hoff]
  constructor
  · rintro ⟨hexact, hal, hset, hclear⟩
    exact ⟨hal, hset, hclear, (setAvailExact_iff (by omega) hoff hn hclear).mp hexact⟩
  · rintro ⟨hal, hset, hclear, hsearch⟩
    exact ⟨(setAvailExact_iff (by omega) hoff hn hclear).mpr hsearch, hal, hset, hclear⟩

/-- One byte, bits 0 to 3 set. -/
def sampleByte : Bitmap := ⟨fun _ => 0x0f, 1, 8⟩

theorem bmpSetAvail_exact_sampleByte : SetAvailExact sampleByte 0 4 ∧ CountExact sampleByte 0 :=
  (bmpSetAvail_exact_iff sampleByte 0 4 (by decide) (by decide) (by decide)).mpr
    ((safe_iff_of_lt (by decide)).mpr (by decide))

/-- One clear bit and seven bits of padding. -/
def sampleBit : Bitmap := ⟨fun _ => 0, 1, 1⟩

/-- Two bits of one are asked for: the padding is taken for the second one, and the assertion of
`bmp_set` fires. -/
theorem not_exact_sampleBit :
    bmpSetAvail 1 sampleBit 0 2 = .error .assertion ∧
      ¬ (SetAvailExact sampleBit 0 2 ∧ CountExact sampleBit 0) := by
  refine ⟨rfl, fun h => ?_⟩
  obtain ⟨r, b', enough, hrun, -⟩ := h.1
  have hres := hrun (enough + 1) (Nat.le_succ _)
  have hstop : bmpSetAvail (enough + 1) sampleBit 0 2 = .error .assertion := rfl
  rw [hstop] at hres
  cases hres

end Bitmap

end Fsl
