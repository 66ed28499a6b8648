import Fsl.Fs.VfatReloc
import Fsl.Fs.VfatWalk

/-!
# The directories of a VFAT volume

`write_fix_dir_refs` is called for a directory whose first cluster has been moved. It fixes the '.' entry
of the directory and, through `write_fix_dotdot_n`, the '..' entry of each directory in it, which it looks
for with `get_nth_de`. All reads are done before the log is committed.
-/

namespace Fsl.Vfat

namespace Bpb

open Pread

variable (b : Bpb) (fatSectors cc : UInt64)

/-! ## Looking for entries -/

/-- `de_per_cluster`; `sizeof_bytes(fat_de)` is 32. -/
def dePerCluster : Prog UInt64 := do return (← b.bytesPerCluster) / 32

/-- The loop of `is_self_ref`, with the number of characters that are left. -/
def isBlank : ℕ → UInt64 → Prog Bool
  | 0, _ => return true
  | left + 1, addr => do
    if (← Prog.field addr 8) ≠ 0x20 then return false
    isBlank left (addr + 8)

/-- `is_self_ref`; a `fat_short_name` has 11 characters. -/
def isSelfRef (de : UInt64) : Prog Bool := do
  if (← Prog.field de 8) ≠ 0x2e then return false
  isBlank 10 (de + 8)

/-- `is_dotdot_ref` -/
def isDotdotRef (de : UInt64) : Prog Bool := do
  if (← isBackRef de) = false then return false
  if (← Prog.field (de + 8) 8) ≠ 0x2e then return false
  return true

/-- `get_nth_de` -/
def getNthDe (de n : UInt64) : Prog UInt64 := do
  let bpc ← b.bytesPerCluster
  let byteOff := n * 32
  let deClusOff := (byteOff % bpc) / 32
  let clusN := byteOff / bpc
  let cn ← b.getNthCnum fatSectors cc de clusN
  return b.getCluster fatSectors cn + deClusOff * 256

/-- `is_de_dir(cur_de) && is_self_ref(cur_de)`, and the same with `is_dotdot_ref`. -/
def isDirRef (isRef : UInt64 → Prog Bool) (curDe : UInt64) : Prog Bool := do
  if (← isDeDir curDe) then isRef curDe else return false

/-- The loop of `find_dot_de` and of `find_dotdot_de`, with the number of entries that are left: the
first directory `isRef` among the entries that `nth` gives. -/
def findDe (nth : UInt64 → Prog UInt64) (isRef : UInt64 → Prog Bool) :
    ℕ → UInt64 → Prog (Option UInt64)
  | 0, _ => return none
  | left + 1, i => do
    let curDe ← nth i
    if (← isDirRef isRef curDe) then return some curDe else findDe nth isRef left (i + 1)

/-- `find_dot_de` -/
def findDotDe (dec : UInt64) : Prog UInt64 := do
  let count ← b.dePerCluster
  return (← findDe (fun i => pure (dec + i * 256)) isSelfRef count.toNat 0).getD dec

/-- `find_dotdot_de` -/
def findDotdotDe (de : UInt64) : Prog UInt64 := do
  let count ← b.dePerCluster
  return (← findDe (b.getNthDe fatSectors cc de) isDotdotRef count.toNat 0).getD de

/-- `de_children_count`, with the number of turns that `fat_chain_count` has; more of them fault. -/
def deChildrenCount (turns : ℕ) (de : UInt64) : Prog UInt64 := do
  match ← b.deClusterCount fatSectors cc turns de with
  | some count => return count * (← b.dePerCluster)
  | none => throw Stop.fault

/-- The packets that fix the references to a directory. -/
def fixPkts (turns : ℕ) : Fix → Wpkt Pkt
  | .writeFixDirRefs => ⟨[], [
      callTo .writeDeCn (params₂ fun _ newCn => do
        return [← b.findDotDe (b.getCluster fatSectors newCn), newCn]),
      callTo (.fix .writeFixDotdotN) (params₂ fun de newCn => pure [de, newCn, 0])]⟩
  | .writeFixDotdotN => ⟨[], [
      callTo .writeDeCn (params₃ fun de newCn n => do
          let child ← b.getNthDe fatSectors cc de n
          return [← b.findDotdotDe fatSectors cc child, newCn])
        (params₃ fun de _ n => b.getNthDe fatSectors cc de n >>= isGoodDir),
      callTo (.fix .writeFixDotdotN) (params₃ fun de newCn n => pure [de, newCn, n + 1])
        (params₃ fun de _ n => do
          return decide (n + 1 < (← b.deChildrenCount fatSectors cc turns de)))]⟩

variable {b fatSectors cc} {total : UInt64} {d : Disk} {a de : UInt64}

/-- An entry lies at a multiple of its size, on the disk. -/
structure DeOn (d : Disk) (a : UInt64) : Prop where
  aligned : 256 ∣ a.toNat
  inside : a.toNat + 256 ≤ 8 * d.size

/-- The entry at `a` is that of a directory `isRef`. -/
def Named (d : Disk) (isRef : UInt64 → Prog Bool) (a : UInt64) : Prop :=
  (isDirRef isRef a).run .little d = .ok true

/-- Of the entries at `s 0, s 1, …` the one at `s k` is the first directory `isRef`, and those before it
lie on the disk. -/
structure FoundAt (d : Disk) (isRef : UInt64 → Prog Bool) (s : ℕ → UInt64) (k : ℕ) : Prop where
  named : Named d isRef (s k)
  before : ∀ j, j < k → DeOn d (s j) ∧ ¬ Named d isRef (s j)

/-! ## Entries on the disk -/

theorem DeOn.run_field (h : DeOn d a) (hlines : 32 ∣ d.size) (off : UInt64) {k n : ℕ}
    (hoff : off.toNat = k) (hn : 1 ≤ n ∧ n ≤ 64) (hk : k + n ≤ 256 ∧ 8 ∣ k ∧ 8 ∣ n) :
    (Prog.field (a + off) n hn).run .little d = .ok (UInt64.ofNat (d.num (a.toNat + k) n)) :=
  run_field_of_inside ((show 8 ∣ 256 by norm_num).trans h.aligned) h.inside hlines off hoff hn hk

/-- Different entries are apart. -/
theorem DeOn.apart {a' : UInt64} (ha : DeOn d a) (ha' : DeOn d a') (hne : a ≠ a') :
    a.toNat + 256 ≤ a'.toNat ∨ a'.toNat + 256 ≤ a.toNat := by
  obtain ⟨q, hq⟩ := ha.aligned
  obtain ⟨q', hq'⟩ := ha'.aligned
  have hnat : a.toNat ≠ a'.toNat := fun heq => hne (UInt64.toNat_inj.mp heq)
  omega

theorem DeOn.run_firstCluster_congr {e : Disk} (ha : DeOn d a) (hlines : 32 ∣ d.size) (hsize : e.size = d.size)
    (hbits : ∀ k, a.toNat ≤ k → k < a.toNat + 256 → e.bit k = d.bit k) :
    (firstCluster a).run .little e = (firstCluster a).run .little d := by
  have h8 : 8 ∣ a.toNat := (show 8 ∣ 256 by norm_num).trans ha.aligned
  have hnum {off : ℕ} (hoff : off + 16 ≤ 256) : e.num (a.toNat + off) 16 = d.num (a.toNat + off) 16 :=
    Disk.num_congr fun k hk hk' => hbits k (by omega) (by omega)
  rw [run_firstCluster_of_inside h8 ha.inside hlines,
    run_firstCluster_of_inside h8 (hsize ▸ ha.inside) (hsize ▸ hlines), hnum (by norm_num),
    hnum (by norm_num)]

theorem exists_run_bind {α β : Type} {p : Prog α} {f : α → Prog β}
    (hp : ∃ x, p.run .little d = .ok x) (hf : ∀ x, ∃ y, (f x).run .little d = .ok y) :
    ∃ y, (p >>= f).run .little d = .ok y := by
  obtain ⟨x, hx⟩ := hp
  obtain ⟨y, hy⟩ := hf x
  exact ⟨y, by rw [Prog.run_bind, hx, ok_bind, hy]⟩

theorem exists_run_ite {α : Type} {c : Prop} [Decidable c] {p q : Prog α}
    (hp : ∃ x, p.run .little d = .ok x) (hq : ∃ x, q.run .little d = .ok x) :
    ∃ x, (if c then p else q).run .little d = .ok x := by
  split
  · exact hp
  · exact hq

theorem exists_run_pure {α : Type} (x : α) : ∃ y, (pure x : Prog α).run .little d = .ok y := ⟨x, rfl⟩

/-- A character of the name. -/
theorem DeOn.exists_run_char (h : DeOn d a) (hlines : 32 ∣ d.size) {o : UInt64} {k : ℕ} (hk : k ≤ 10)
    (hoff : o.toNat = 8 * k) : ∃ v, (Prog.field (a + o) 8).run .little d = .ok v :=
  ⟨_, h.run_field hlines o hoff Width.of8 ⟨by omega, by omega, by norm_num⟩⟩

theorem DeOn.exists_run_first (h : DeOn d a) (hlines : 32 ∣ d.size) :
    ∃ v, (Prog.field a 8).run .little d = .ok v := by
  have hfirst := h.exists_run_char hlines (o := 0) (k := 0) (by norm_num) rfl
  rwa [UInt64.add_zero] at hfirst

theorem DeOn.exists_run_isDeDir (h : DeOn d a) (hlines : 32 ∣ d.size) :
    ∃ v, (isDeDir a).run .little d = .ok v := by
  have hsize := h.run_field hlines 224 (k := 224) rfl Width.of32 (by decide)
  have hattr := h.run_field hlines 88 (k := 88) rfl Width.of8 (by decide)
  refine exists_run_bind ⟨_, hsize⟩ fun _ => exists_run_ite (exists_run_pure _) ?_
  refine exists_run_bind (exists_run_bind ⟨_, hattr⟩ fun _ => exists_run_pure _) fun _ => ?_
  exact exists_run_ite (exists_run_pure _) (exists_run_pure _)

theorem DeOn.exists_run_isBackRef (h : DeOn d a) (hlines : 32 ∣ d.size) :
    ∃ v, (isBackRef a).run .little d = .ok v := by
  have hsecond := h.exists_run_char hlines (o := 8) (k := 1) (by norm_num) rfl
  have hthird := h.exists_run_char hlines (o := 16) (k := 2) (by norm_num) rfl
  refine exists_run_bind (h.exists_run_first hlines) fun _ => exists_run_ite ?_ (exists_run_pure _)
  refine exists_run_bind hsecond fun _ => exists_run_ite (exists_run_pure _) ?_
  refine exists_run_bind hsecond fun _ => exists_run_ite ?_ (exists_run_pure _)
  exact exists_run_bind hthird fun _ => exists_run_pure _

theorem DeOn.exists_run_isGoodDir (h : DeOn d a) (hlines : 32 ∣ d.size) :
    ∃ v, (isGoodDir a).run .little d = .ok v := by
  refine exists_run_bind (h.exists_run_isDeDir hlines) fun _ => exists_run_ite (exists_run_pure _) ?_
  exact exists_run_bind (h.exists_run_isBackRef hlines) fun _ => exists_run_pure _

theorem DeOn.exists_run_isDotdotRef (h : DeOn d a) (hlines : 32 ∣ d.size) :
    ∃ v, (isDotdotRef a).run .little d = .ok v := by
  have hsecond := h.exists_run_char hlines (o := 8) (k := 1) (by norm_num) rfl
  refine exists_run_bind (h.exists_run_isBackRef hlines) fun _ => exists_run_ite (exists_run_pure _) ?_
  exact exists_run_bind hsecond fun _ => exists_run_ite (exists_run_pure _) (exists_run_pure _)

theorem DeOn.exists_run_isBlank (h : DeOn d a) (hlines : 32 ∣ d.size) (left : ℕ) {off : UInt64} {k : ℕ}
    (hk : k + left ≤ 11) (hoff : off.toNat = 8 * k) :
    ∃ v, (isBlank left (a + off)).run .little d = .ok v := by
  induction left generalizing off k with
  | zero => exact exists_run_pure _
  | succ left ih =>
    refine exists_run_bind (h.exists_run_char hlines (by omega) hoff) fun _ =>
      exists_run_ite (exists_run_pure _) ?_
    rw [UInt64.add_assoc]
    refine ih (k := k + 1) (by omega) ?_
    rw [UInt64.toNat_add, hoff]
    exact Nat.mod_eq_of_lt (show 8 * k + 8 < 2 ^ 64 by omega)

theorem DeOn.exists_run_isSelfRef (h : DeOn d a) (hlines : 32 ∣ d.size) :
    ∃ v, (isSelfRef a).run .little d = .ok v := by
  refine exists_run_bind (h.exists_run_first hlines) fun _ => exists_run_ite (exists_run_pure _) ?_
  exact h.exists_run_isBlank hlines 10 (k := 1) (by norm_num) rfl

/-- `is_de_dir` reads the last field of an entry. -/
theorem deOn_of_run_isDeDir (hlines : 32 ∣ d.size) (haligned : 256 ∣ a.toNat) {v : Bool}
    (h : (isDeDir a).run .little d = .ok v) : DeOn d a := by
  have hlt := a.toNat_lt
  have hoff : (224 : UInt64).toNat = 224 := rfl
  have haddr : (a + 224).toNat = a.toNat + 224 := by
    rw [UInt64.toNat_add, hoff]
    exact Nat.mod_eq_of_lt (by omega)
  have hw : WriteWidth (a + 224).toNat 32 := by
    rw [haddr]
    exact Or.inr (by omega)
  rw [isDeDir, Prog.run_bind, Prog.run_field_num hlines Width.of32 hw, haddr] at h
  obtain ⟨_, hread, -⟩ := bind_eq_ok h
  by_cases hin : a.toNat + 224 + 32 ≤ 8 * d.size
  · exact ⟨haligned, hin⟩
  · rw [if_neg hin] at hread
    cases hread

theorem deOn_of_run_isDirRef {isRef : UInt64 → Prog Bool} (hlines : 32 ∣ d.size)
    (haligned : 256 ∣ a.toNat) {v : Bool} (h : (isDirRef isRef a).run .little d = .ok v) : DeOn d a := by
  rw [isDirRef, Prog.run_bind] at h
  obtain ⟨_, hdir, -⟩ := bind_eq_ok h
  exact deOn_of_run_isDeDir hlines haligned hdir

theorem DeOn.exists_run_isDirRef {isRef : UInt64 → Prog Bool} (h : DeOn d a) (hlines : 32 ∣ d.size)
    (href : ∃ v, (isRef a).run .little d = .ok v) : ∃ v, (isDirRef isRef a).run .little d = .ok v :=
  exists_run_bind (h.exists_run_isDeDir hlines) fun _ => exists_run_ite href (exists_run_pure _)

theorem run_isDeDir_of_fields {size attr : UInt64}
    (hsize : (Prog.field (a + 224) 32).run .little d = .ok size)
    (hattr : (Prog.field (a + 88) 8).run .little d = .ok attr) (hfull : size ≠ 0xffffffff)
    (hdir : 0x58 &&& attr = 0x10) : (isDeDir a).run .little d = .ok true := by
  rw [isDeDir, Prog.run_bind, hsize, ok_bind, if_neg hfull, Prog.run_bind, dirAttr, Prog.run_bind, hattr,
    ok_bind, Prog.run_pure, ok_bind, if_neg (not_not.mpr hdir)]
  rfl

/-! ## The loop over the entries -/

section Find

variable {nth : UInt64 → Prog UInt64} {isRef : UInt64 → Prog Bool} {s : ℕ → UInt64} {k left : ℕ}

theorem foundAt_zero_iff : FoundAt d isRef s 0 ↔ Named d isRef (s 0) :=
  ⟨fun h => h.named, fun h => ⟨h, fun j hj => absurd hj (Nat.not_lt_zero j)⟩⟩

theorem foundAt_succ_iff : FoundAt d isRef s (k + 1) ↔
    (DeOn d (s 0) ∧ ¬ Named d isRef (s 0)) ∧ FoundAt d isRef (fun j => s (j + 1)) k := by
  constructor
  · exact fun h => ⟨h.before 0 (Nat.succ_pos k), h.named, fun j hj => h.before (j + 1) (by omega)⟩
  · rintro ⟨hzero, hrest⟩
    refine ⟨hrest.named, fun j hj => ?_⟩
    cases j with
    | zero => exact hzero
    | succ j => exact hrest.before j (by omega)

/-- How the loop ends. -/
def FindEnds (d : Disk) (isRef : UInt64 → Prog Bool) (s : ℕ → UInt64) (left : ℕ) (r : Option UInt64) :
    Prop :=
  (∃ k, k < left ∧ FoundAt d isRef s k ∧ r = some (s k)) ∨
    (∀ j, j < left → DeOn d (s j) ∧ ¬ Named d isRef (s j)) ∧ r = none

theorem findEnds_succ_iff {r : Option UInt64} (hlines : 32 ∣ d.size) (haligned : 256 ∣ (s 0).toNat) :
    FindEnds d isRef s (left + 1) r ↔ DeOn d (s 0) ∧
      ((Named d isRef (s 0) ∧ r = some (s 0)) ∨
        (¬ Named d isRef (s 0) ∧ FindEnds d isRef (fun j => s (j + 1)) left r)) := by
  constructor
  · rintro (⟨k, hk, hfound, rfl⟩ | ⟨hnone, rfl⟩)
    · cases k with
      | zero => exact ⟨deOn_of_run_isDirRef hlines haligned hfound.named, Or.inl ⟨hfound.named, rfl⟩⟩
      | succ k =>
        obtain ⟨⟨hon, hnot⟩, hrest⟩ := foundAt_succ_iff.mp hfound
        exact ⟨hon, Or.inr ⟨hnot, Or.inl ⟨k, by omega, hrest, rfl⟩⟩⟩
    · obtain ⟨hon, hnot⟩ := hnone 0 (Nat.succ_pos left)
      exact ⟨hon, Or.inr ⟨hnot, Or.inr ⟨fun j hj => hnone (j + 1) (by omega), rfl⟩⟩⟩
  · rintro ⟨hon, ⟨hnamed, rfl⟩ | ⟨hnot, ⟨k, hk, hfound, rfl⟩ | ⟨hnone, rfl⟩⟩⟩
    · exact Or.inl ⟨0, Nat.succ_pos left, foundAt_zero_iff.mpr hnamed, rfl⟩
    · exact Or.inl ⟨k + 1, by omega, foundAt_succ_iff.mpr ⟨⟨hon, hnot⟩, hfound⟩, rfl⟩
    · refine Or.inr ⟨fun j hj => ?_, rfl⟩
      cases j with
      | zero => exact ⟨hon, hnot⟩
      | succ j => exact hnone j (by omega)

/-- The loop finds the first directory `isRef`, reading the entries up to it. -/
theorem run_findDe_iff (hlines : 32 ∣ d.size)
    (hrefs : ∀ a, DeOn d a → ∃ v, (isRef a).run .little d = .ok v)
    {i : ℕ} (haligned : ∀ j, 256 ∣ (s j).toNat)
    (hnth : ∀ j, j < left → (nth (UInt64.ofNat (i + j))).run .little d = .ok (s j))
    {r : Option UInt64} :
    (findDe nth isRef left (UInt64.ofNat i)).run .little d = .ok r ↔ FindEnds d isRef s left r := by
  induction left generalizing i s with
  | zero =>
    have hleft : ∀ j, ¬ j < 0 := Nat.not_lt_zero
    simp [findDe, FindEnds, hleft, eq_comm]
  | succ left ih =>
    have hrest := ih (i := i + 1) (s := fun j => s (j + 1)) (fun j => haligned (j + 1)) fun j hj => by
      rw [Nat.add_assoc, Nat.add_comm 1 j]
      exact hnth (j + 1) (by omega)
    have hhere : (nth (UInt64.ofNat i)).run .little d = .ok (s 0) := hnth 0 (Nat.succ_pos left)
    rw [findEnds_succ_iff hlines (haligned 0), ← hrest, ← ofNat_succ, findDe, Prog.run_bind, hhere,
      ok_bind, Prog.run_bind]
    by_cases hon : DeOn d (s 0)
    · obtain ⟨found, hfound⟩ := hon.exists_run_isDirRef hlines (hrefs _ hon)
      rw [hfound, ok_bind]
      cases found with
      | false => simp [Named, hfound, hon]
      | true => simp [Named, hfound, hon, eq_comm]
    · refine iff_of_false (fun h => ?_) fun h => hon h.1
      obtain ⟨_, hfound, -⟩ := bind_eq_ok h
      exact hon (deOn_of_run_isDirRef hlines (haligned 0) hfound)

/-- The entry that is found, or `dec` where there is none. -/
theorem run_findDe_getD_iff (hlines : 32 ∣ d.size)
    (hrefs : ∀ a, DeOn d a → ∃ v, (isRef a).run .little d = .ok v)
    (haligned : ∀ j, 256 ∣ (s j).toNat)
    (hnth : ∀ j, j < left → (nth (UInt64.ofNat j)).run .little d = .ok (s j)) {dec a : UInt64} :
    (do return (← findDe nth isRef left 0).getD dec : Prog UInt64).run .little d = .ok a ↔
      (∃ k, k < left ∧ FoundAt d isRef s k ∧ a = s k) ∨
        (∀ j, j < left → DeOn d (s j) ∧ ¬ Named d isRef (s j)) ∧ a = dec := by
  have hloop (r : Option UInt64) : (findDe nth isRef left 0).run .little d = .ok r ↔
      FindEnds d isRef s left r :=
    run_findDe_iff (i := 0) hlines hrefs haligned fun j hj => by
      rw [Nat.zero_add]
      exact hnth j hj
  rw [Prog.run_bind]
  constructor
  · intro hrun
    obtain ⟨r, hr, hrun⟩ := bind_eq_ok hrun
    have ha := Except.ok.inj hrun
    rcases (hloop r).mp hr with ⟨k, hk, hfound, rfl⟩ | ⟨hnone, rfl⟩
    · exact Or.inl ⟨k, hk, hfound, ha.symm⟩
    · exact Or.inr ⟨hnone, ha.symm⟩
  · rintro (⟨k, hk, hfound, rfl⟩ | ⟨hnone, rfl⟩)
    · rw [(hloop (some (s k))).mpr (Or.inl ⟨k, hk, hfound, rfl⟩)]
      rfl
    · rw [(hloop none).mpr (Or.inr ⟨hnone, rfl⟩)]
      rfl

/-- The loop ends well if the entries that it has to read lie on the disk. -/
theorem exists_findEnds_iff : (∃ k, k < left ∧ FoundAt d isRef s k) ∨
      (∀ j, j < left → DeOn d (s j) ∧ ¬ Named d isRef (s j)) ↔
    (∀ k, k < left → DeOn d (s k)) ∨ ∃ k, k < left ∧ FoundAt d isRef s k := by
  constructor
  · exact fun h => h.symm.imp_left fun hnone k hk => (hnone k hk).1
  · rintro (hall | hfound)
    · by_cases hsome : ∃ k, k < left ∧ Named d isRef (s k)
      · classical
        obtain ⟨hlt, hnamed⟩ := Nat.find_spec hsome
        refine Or.inl ⟨Nat.find hsome, hlt, hnamed, fun j hj => ⟨hall j (by omega), fun hj' => ?_⟩⟩
        exact Nat.find_min hsome hj ⟨by omega, hj'⟩
      · exact Or.inr fun j hj => ⟨hall j hj, fun hnamed => hsome ⟨j, hj, hnamed⟩⟩
    · exact Or.inl hfound

end Find

/-- Clusters begin at sectors, whatever their number. -/
theorem OnDisk.dvd_getCluster (h : OnDisk b fatSectors total cc d) (cn : UInt64) :
    4096 ∣ (b.getCluster fatSectors cn).toNat := by
  have hpow : 4096 ∣ 2 ^ 64 := by norm_num
  rw [getCluster, UInt64.toNat_add, UInt64.toNat_mul]
  refine (Nat.dvd_mod_iff hpow).mpr (Nat.dvd_add ?_ ((Nat.dvd_mod_iff hpow).mpr ?_))
  · rw [h.toNat_clusters]
    exact Nat.dvd_add (Dvd.dvd.mul_right h.dvd_sectorBits _) h.dvd_slack
  · exact Dvd.dvd.mul_left h.dvd_clusterBits _

end Bpb

/-- The fields of the entry at `de`. -/
def FatDe.ofDisk (d : Disk) (de : UInt64) : FatDe where
  attr := UInt8.ofNat (d.num (de.toNat + 88) 8)
  firstClusterHi := UInt16.ofNat (d.num (de.toNat + 160) 16)
  firstClusterLo := UInt16.ofNat (d.num (de.toNat + 208) 16)
  fileSize := UInt32.ofNat (d.num (de.toNat + 224) 32)

namespace Image

open Bpb

variable (img : Image) (fatSectors total : UInt64) (d : Disk)

/-! ## An image on a disk -/

/-- The image is that of a volume on the disk `d`, whose counts are consistent and whose clusters lie on
the disk. -/
structure On : Prop extends Consistent img.bpb fatSectors total img.clusterCount where
  lines : 32 ∣ d.size
  inside : (img.bpb.clusters fatSectors).toNat +
    img.clusterCount.toNat * img.bpb.clusterBits.toNat ≤ 8 * d.size
  reads : ∀ cn, cn < img.entCount →
    (img.bpb.fatNext fatSectors img.clusterCount cn).run .little d = .ok (img.ent cn)

/-- The `k`-th entry of a cluster. -/
def slotAt (cn : UInt64) (k : ℕ) : UInt64 := img.bpb.getCluster fatSectors cn + UInt64.ofNat k * 256

/-- `is_good_dir` accepts the entry at `a`. -/
def accepts (a : UInt64) : Bool :=
  match (isGoodDir a).run .little d with
  | .ok good => good
  | .error _ => false

/-- The directories in a cluster, by their slots. -/
def childDirs (c : UInt64) : List ℕ :=
  (List.range img.dePerCluster.toNat).filter fun k => accepts d (img.slotAt fatSectors c k)

/-- The `k`-th slot of the first cluster of the directory at `de` is its first '..' entry. -/
def DotdotAt (de : UInt64) (k : ℕ) : Prop :=
  FoundAt d isDotdotRef (img.slotAt fatSectors (FatDe.ofDisk d de).first) k

/-- The slots of the first cluster lie on the disk, all of them or those up to the '..' entry. -/
def Searchable (de : UInt64) : Prop :=
  (∀ k, k < img.dePerCluster.toNat → DeOn d (img.slotAt fatSectors (FatDe.ofDisk d de).first k)) ∨
    ∃ k, k < img.dePerCluster.toNat ∧ img.DotdotAt fatSectors d de k

variable {img fatSectors total d} {de a : UInt64}

theorem On.onDisk (h : img.On fatSectors total d) (hwide : img.fatType ≠ .fat12) :
    OnDisk img.bpb fatSectors total img.clusterCount d :=
  ⟨h.toConsistent, img.passes, hwide, h.lines, h.inside⟩

theorem accepts_eq_true_iff : accepts d a = true ↔ (isGoodDir a).run .little d = .ok true := by
  unfold accepts
  cases hrun : (isGoodDir a).run .little d with
  | error e => simp
  | ok good => simp

theorem accepts_eq_of_run {good : Bool} (h : (isGoodDir a).run .little d = .ok good) :
    accepts d a = good := by
  unfold accepts
  rw [h]

/-- Entries lie at multiples of their size. -/
theorem On.dvd_slotAt (h : OnDisk img.bpb fatSectors total img.clusterCount d) (cn : UInt64) (k : ℕ) :
    256 ∣ (img.slotAt fatSectors cn k).toNat := by
  have hpow : 256 ∣ 2 ^ 64 := by norm_num
  have hsize : (256 : UInt64).toNat = 256 := rfl
  rw [slotAt, UInt64.toNat_add, UInt64.toNat_mul, hsize]
  refine (Nat.dvd_mod_iff hpow).mpr (Nat.dvd_add ?_ ((Nat.dvd_mod_iff hpow).mpr ?_))
  · exact (show 256 ∣ 4096 by norm_num).trans (h.dvd_getCluster cn)
  · exact Nat.dvd_mul_left 256 _

theorem run_firstCluster_eq (hde : DeOn d de) (hlines : 32 ∣ d.size) :
    (firstCluster de).run .little d = .ok (FatDe.ofDisk d de).first := by
  have h16 : ∀ {n}, n < 2 ^ 16 → (UInt16.ofNat n).toUInt64 = UInt64.ofNat n := fun {n} hn => by
    refine UInt64.toNat_inj.mp ?_
    rw [UInt16.toNat_toUInt64, UInt16.toNat_ofNat_of_lt' hn]
    exact (UInt64.toNat_ofNat_of_lt' (show n < 2 ^ 64 by omega)).symm
  have h8 : 8 ∣ de.toNat := (show 8 ∣ 256 by norm_num).trans hde.aligned
  rw [run_firstCluster_of_inside h8 hde.inside hlines, FatDe.first, FatDe.ofDisk,
    h16 (Disk.num_lt d _ 16), h16 (Disk.num_lt d _ 16), UInt64.add_comm]

/-! ## Reading the chain of a directory -/

theorem run_bytesPerCluster (img : Image) :
    img.bpb.bytesPerCluster.run .little d = .ok img.bytesPerCluster := by
  obtain ⟨p, hp, -, hbytes, -⟩ := img.exists_bytesPerCluster
  have hne : img.bytesPerCluster ≠ 0 := fun h0 => by
    rw [h0] at hbytes
    change 0 = p * 32 at hbytes
    omega
  unfold bytesPerCluster at hne
  rw [Bpb.bytesPerCluster, if_neg hne]
  rfl

theorem run_dePerCluster (img : Image) :
    img.bpb.dePerCluster.run .little d = .ok img.dePerCluster := by
  rw [Bpb.dePerCluster, Prog.run_bind, img.run_bytesPerCluster]
  rfl

/-- The loops on the disk are those of the image. -/
theorem On.run_fatChainNthCnum (h : img.On fatSectors total d) {t : ℕ} {cur cn : UInt64}
    (hcn : img.fatChainNthCnum cur t = some cn) :
    (img.bpb.fatChainNthCnum fatSectors img.clusterCount t cur).run .little d = .ok cn := by
  induction t generalizing cur with
  | zero => exact congrArg Except.ok (Option.some.inj hcn)
  | succ t ih =>
    rw [Image.fatChainNthCnum] at hcn
    rw [Bpb.fatChainNthCnum]
    by_cases heof : img.isEof cur = true
    · rw [if_pos heof] at hcn
      rw [if_pos (show img.bpb.isEof img.clusterCount cur = true from heof)]
      exact congrArg Except.ok (Option.some.inj hcn)
    · rw [if_neg heof] at hcn
      obtain ⟨next, hnext, hcn⟩ := Option.bind_eq_some_iff.mp hcn
      rw [if_neg (show ¬ img.bpb.isEof img.clusterCount cur = true from heof), Prog.run_bind]
      by_cases hlt : cur < img.entCount
      · rw [fatNext, if_pos hlt] at hnext
        rw [h.reads cur hlt, ok_bind, Option.some.inj hnext]
        exact ih hcn
      · rw [fatNext, if_neg hlt] at hnext
        cases hnext

theorem On.run_getNthDe (h : img.On fatSectors total d) (hde : DeOn d de) {n i k : UInt64}
    (hn : img.getNthDe (FatDe.ofDisk d de) n = some (i, k)) :
    (img.bpb.getNthDe fatSectors img.clusterCount de n).run .little d =
      .ok (img.bpb.clusters fatSectors + i * img.bpb.clusterBits + k * 256) := by
  obtain ⟨cn, hcn, heq⟩ := Option.map_eq_some_iff.mp hn
  obtain ⟨rfl, rfl⟩ := Prod.mk.inj heq
  rw [Bpb.getNthDe, Prog.run_bind, img.run_bytesPerCluster, ok_bind, Prog.run_bind, Bpb.getNthCnum,
    Prog.run_bind, run_firstCluster_eq hde h.lines, ok_bind, h.run_fatChainNthCnum hcn]
  rfl

/-- The first indices are those of the slots of the first cluster. -/
theorem On.run_getNthDe_first (h : img.On fatSectors total d) (hde : DeOn d de) {n : ℕ}
    (hn : n < img.dePerCluster.toNat) :
    (img.bpb.getNthDe fatSectors img.clusterCount de (UInt64.ofNat n)).run .little d =
      .ok (img.slotAt fatSectors (FatDe.ofDisk d de).first n) := by
  obtain ⟨p, hp16, hp20, hbytes, hper⟩ := img.exists_bytesPerCluster
  rw [hper] at hn
  refine h.run_getNthDe hde ?_
  rw [getNthDe_ofNat _ hbytes (by omega), Nat.div_eq_of_lt hn, Nat.mod_eq_of_lt hn]
  rfl

theorem isValidCnum_bpb (img : Image) (cn : UInt64) :
    img.bpb.isValidCnum img.clusterCount cn = img.isValidCnum cn := by
  rw [Bool.eq_iff_iff, isValidCnum_iff, Bpb.isValidCnum, Bool.and_eq_true, decide_eq_true_iff,
    decide_eq_true_iff]
  exact Iff.rfl

theorem On.run_fatChainCount (h : img.On fatSectors total d) {cn : UInt64} {cs : List UInt64}
    (hchain : img.ChainFrom cn cs) (turns : ℕ) (count : UInt64) :
    (img.bpb.fatChainCount fatSectors img.clusterCount turns cn count).run .little d =
      .ok (if turns ≤ cs.length then none else some (count + UInt64.ofNat cs.length)) := by
  induction hchain generalizing turns count with
  | nil hinv =>
    cases turns with
    | zero => rfl
    | succ turns =>
      rw [Bpb.fatChainCount, isValidCnum_bpb, hinv, if_neg Bool.false_ne_true, List.length_nil,
        if_neg (Nat.not_succ_le_zero turns)]
      exact congrArg (fun n => Except.ok (some n)) (UInt64.add_zero count).symm
  | @cons cn cs hvalid hin _ ih =>
    cases turns with
    | zero => rfl
    | succ turns =>
      rw [Bpb.fatChainCount, isValidCnum_bpb, hvalid, if_pos rfl, Prog.run_bind, h.reads cn hin, ok_bind,
        ih turns (count + 1), List.length_cons, ← ofNat_succ, UInt64.add_assoc,
        UInt64.add_comm 1 (UInt64.ofNat cs.length)]
      simp only [Nat.add_le_add_iff_right]

/-- What `is_good_dir` promises of an entry. -/
theorem fields_of_isGoodDir (hde : DeOn d de) (hlines : 32 ∣ d.size)
    (hgood : (isGoodDir de).run .little d = .ok true) :
    UInt64.ofNat (d.num (de.toNat + 224) 32) ≠ 0xffffffff ∧
      0x10 &&& UInt64.ofNat (d.num (de.toNat + 88) 8) ≠ 0 := by
  have hsize := hde.run_field hlines 224 (k := 224) rfl Width.of32 (by decide)
  have hattr := hde.run_field hlines 88 (k := 88) rfl Width.of8 (by decide)
  rw [isGoodDir, Prog.run_bind] at hgood
  obtain ⟨isDir, hdir, hgood⟩ := bind_eq_ok hgood
  cases isDir with
  | false => cases hgood
  | true =>
    rw [isDeDir, Prog.run_bind, hsize, ok_bind] at hdir
    by_cases hfull : UInt64.ofNat (d.num (de.toNat + 224) 32) = 0xffffffff
    · rw [if_pos hfull] at hdir
      cases hdir
    · refine ⟨hfull, fun hzero => ?_⟩
      have hand : (0x10 : UInt64) &&& (0x58 &&& UInt64.ofNat (d.num (de.toNat + 88) 8)) = 0 := by
        rw [← UInt64.and_assoc]
        exact hzero
      rw [if_neg hfull, Prog.run_bind, dirAttr, Prog.run_bind, hattr, ok_bind, Prog.run_pure,
        ok_bind] at hdir
      by_cases hmask : 0x58 &&& UInt64.ofNat (d.num (de.toNat + 88) 8) = 0x10
      · rw [hmask] at hand
        exact absurd hand (by decide)
      · rw [if_pos hmask] at hdir
        cases hdir

theorem On.run_deChildrenCount (h : img.On fatSectors total d) (hde : DeOn d de)
    (hgood : (isGoodDir de).run .little d = .ok true) {cs : List UInt64}
    (hchain : img.ChainFrom (FatDe.ofDisk d de).first cs) (turns : ℕ) :
    (img.bpb.deChildrenCount fatSectors img.clusterCount turns de).run .little d =
      if turns ≤ cs.length then .error .fault
      else .ok (UInt64.ofNat cs.length * img.dePerCluster) := by
  obtain ⟨hfull, hattr⟩ := fields_of_isGoodDir hde h.lines hgood
  have hsize := hde.run_field h.lines 224 (k := 224) rfl Width.of32 (by decide)
  have hread := hde.run_field h.lines 88 (k := 88) rfl Width.of8 (by decide)
  have hcount : (img.bpb.deClusterCount fatSectors img.clusterCount turns de).run .little d =
      .ok (if turns ≤ cs.length then none else some (UInt64.ofNat cs.length)) := by
    rw [Bpb.deClusterCount, Prog.run_bind, img.run_bytesPerCluster, ok_bind, Prog.run_bind, hsize, ok_bind,
      if_neg hfull, Prog.run_bind, hread, ok_bind, if_pos hattr, Prog.run_bind,
      run_firstCluster_eq hde h.lines, ok_bind, h.run_fatChainCount hchain turns 0, UInt64.zero_add]
  rw [Bpb.deChildrenCount, Prog.run_bind, hcount, ok_bind]
  by_cases hle : turns ≤ cs.length
  · rw [if_pos hle, if_pos hle]
    rfl
  · rw [if_neg hle, if_neg hle]
    show (img.bpb.dePerCluster >>= fun count => pure (UInt64.ofNat cs.length * count)).run .little d = _
    rw [Prog.run_bind, img.run_dePerCluster]
    rfl

/-! ## The slots of the first cluster -/

theorem On.toNat_lt_entCount (h : img.On fatSectors total d) {cn : UInt64} (hcn : cn < img.entCount) :
    cn.toNat < img.clusterCount.toNat + 2 := by
  have hcount := h.count_lt
  have htwo : (2 : UInt64).toNat = 2 := rfl
  have hlt := UInt64.lt_iff_toNat_lt.mp hcn
  rw [entCount, UInt64.toNat_add, htwo, Nat.mod_eq_of_lt (by omega)] at hlt
  omega

/-- The slots of a cluster lie on the disk. -/
theorem On.toNat_slotAt (h : OnDisk img.bpb fatSectors total img.clusterCount d) {cn : UInt64}
    (hlo : 2 ≤ cn.toNat) (hlt : cn.toNat < img.clusterCount.toNat + 2) {k : ℕ}
    (hk : k < img.dePerCluster.toNat) :
    (img.slotAt fatSectors cn k).toNat = (img.bpb.getCluster fatSectors cn).toNat + k * 256 ∧
      DeOn d (img.slotAt fatSectors cn k) := by
  obtain ⟨p, hp16, hp20, hbytes, hper⟩ := img.exists_bytesPerCluster
  have hsize : img.bpb.clusterBits.toNat = p * 256 := by
    rw [show img.bpb.clusterBits = img.bytesPerCluster * 8 from rfl, UInt64.toNat_mul, hbytes]
    exact (Nat.mod_eq_of_lt (show p * 32 * 8 < 2 ^ 64 by omega)).trans (by omega)
  have hinside := (h.getCluster_bounds hlo hlt).2
  have hd := d.size_lt
  rw [hper] at hk
  rw [hsize] at hinside
  have hskip : (UInt64.ofNat k * 256).toNat = k * 256 := by
    rw [UInt64.toNat_mul, UInt64.toNat_ofNat_of_lt' (show k < 2 ^ 64 by omega)]
    exact Nat.mod_eq_of_lt (show k * 256 < 2 ^ 64 by omega)
  have heq : (img.slotAt fatSectors cn k).toNat =
      (img.bpb.getCluster fatSectors cn).toNat + k * 256 := by
    rw [slotAt, UInt64.toNat_add, hskip]
    exact Nat.mod_eq_of_lt (by omega)
  exact ⟨heq, On.dvd_slotAt h cn k, by omega⟩

/-- How `find_dotdot_de` ends. -/
theorem On.run_findDotdotDe_iff (h : img.On fatSectors total d)
    (hdisk : OnDisk img.bpb fatSectors total img.clusterCount d) (hde : DeOn d de) :
    (img.bpb.findDotdotDe fatSectors img.clusterCount de).run .little d = .ok a ↔
      (∃ k, k < img.dePerCluster.toNat ∧ img.DotdotAt fatSectors d de k ∧
        a = img.slotAt fatSectors (FatDe.ofDisk d de).first k) ∨
      (∀ j, j < img.dePerCluster.toNat →
        DeOn d (img.slotAt fatSectors (FatDe.ofDisk d de).first j) ∧
          ¬ Named d isDotdotRef (img.slotAt fatSectors (FatDe.ofDisk d de).first j)) ∧ a = de := by
  rw [findDotdotDe, Prog.run_bind, img.run_dePerCluster, ok_bind]
  exact run_findDe_getD_iff h.lines (fun a ha => ha.exists_run_isDotdotRef h.lines)
    (On.dvd_slotAt hdisk _) fun j hj => h.run_getNthDe_first hde hj

/-- It ends well exactly if the slots that it has to read lie on the disk. -/
theorem On.searchable_iff (h : img.On fatSectors total d)
    (hdisk : OnDisk img.bpb fatSectors total img.clusterCount d) (hde : DeOn d de) :
    img.Searchable fatSectors d de ↔
      ∃ a, (img.bpb.findDotdotDe fatSectors img.clusterCount de).run .little d = .ok a := by
  refine exists_findEnds_iff.symm.trans ⟨?_, ?_⟩
  · rintro (⟨k, hk, hfound⟩ | hnone)
    · exact ⟨_, (h.run_findDotdotDe_iff hdisk hde).mpr (Or.inl ⟨k, hk, hfound, rfl⟩)⟩
    · exact ⟨de, (h.run_findDotdotDe_iff hdisk hde).mpr (Or.inr ⟨hnone, rfl⟩)⟩
  · rintro ⟨a, ha⟩
    rcases (h.run_findDotdotDe_iff hdisk hde).mp ha with ⟨k, hk, hfound, -⟩ | ⟨hnone, -⟩
    · exact Or.inl ⟨k, hk, hfound⟩
    · exact Or.inr hnone

/-- The entry that is found lies on the disk. -/
theorem On.deOn_of_run_findDotdotDe (h : img.On fatSectors total d)
    (hdisk : OnDisk img.bpb fatSectors total img.clusterCount d) (hde : DeOn d de)
    (ha : (img.bpb.findDotdotDe fatSectors img.clusterCount de).run .little d = .ok a) : DeOn d a := by
  rcases (h.run_findDotdotDe_iff hdisk hde).mp ha with ⟨k, -, hfound, rfl⟩ | ⟨-, rfl⟩
  · exact deOn_of_run_isDirRef h.lines (On.dvd_slotAt hdisk _ k) hfound.named
  · exact hde

/-- `find_dot_de` finds an entry of a cluster that lies on the disk. -/
theorem On.exists_run_findDotDe (h : OnDisk img.bpb fatSectors total img.clusterCount d) {cn : UInt64}
    (hlo : 2 ≤ cn.toNat) (hlt : cn.toNat < img.clusterCount.toNat + 2) :
    ∃ a, (img.bpb.findDotDe (img.bpb.getCluster fatSectors cn)).run .little d = .ok a ∧ DeOn d a := by
  obtain ⟨p, hp16, -, -, hper⟩ := img.exists_bytesPerCluster
  have hon (k : ℕ) (hk : k < img.dePerCluster.toNat) : DeOn d (img.slotAt fatSectors cn k) :=
    (On.toNat_slotAt h hlo hlt hk).2
  have hiff (a : UInt64) : (img.bpb.findDotDe (img.bpb.getCluster fatSectors cn)).run .little d = .ok a ↔
      (∃ k, k < img.dePerCluster.toNat ∧ FoundAt d isSelfRef (img.slotAt fatSectors cn) k ∧
        a = img.slotAt fatSectors cn k) ∨
      (∀ j, j < img.dePerCluster.toNat → DeOn d (img.slotAt fatSectors cn j) ∧
        ¬ Named d isSelfRef (img.slotAt fatSectors cn j)) ∧ a = img.bpb.getCluster fatSectors cn := by
    rw [findDotDe, Prog.run_bind, img.run_dePerCluster, ok_bind]
    exact run_findDe_getD_iff h.lines (fun a ha => ha.exists_run_isSelfRef h.lines)
      (On.dvd_slotAt h cn) fun j _ => rfl
  rcases exists_findEnds_iff.mpr (Or.inl hon) with ⟨k, hk, hfound⟩ | hnone
  · exact ⟨_, (hiff _).mpr (Or.inl ⟨k, hk, hfound, rfl⟩), hon k hk⟩
  · refine ⟨_, (hiff _).mpr (Or.inr ⟨hnone, rfl⟩), ?_⟩
    -- it is the first one then
    have hzero := hon 0 (by omega)
    rwa [slotAt, show UInt64.ofNat 0 * 256 = 0 from rfl, UInt64.add_zero] at hzero

theorem ChainFrom.head {cn x : UInt64} {cs : List UInt64} (h : img.ChainFrom cn (x :: cs)) :
    img.isValidCnum cn = true ∧ cn < img.entCount := by
  cases h with
  | cons hvalid hin _ => exact ⟨hvalid, hin⟩

end Image

end Fsl.Vfat
