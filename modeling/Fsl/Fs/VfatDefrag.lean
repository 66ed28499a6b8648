import Fsl.Fs.VfatTools
import Fsl.Tool.DefragScan

/-!
# Defragmenting a VFAT volume

The defragmentation tool on a VFAT volume: every file keeps its data, what was in a row stays where it
is, and a file that the scan has come to is in a row at the end, unless there is no run of free choices
for it. The last cluster is no choice.
-/

namespace Fsl.Vfat.Bpb

open Pread Linked RelType FirstFit
open Defrag (Move fileOf choicesAt moveAll row handed left)

/-- `ti_phys_offset` and `ti_size` -/
def infoPlace (rt : Rt) (t : TypeInfo) : UInt64 × UInt64 :=
  (t.offset, match t.size.run .little rt.io.disk with
    | .ok size => size
    | .error _ => 0)

/-- The `defrag` statement of the entry `de`, as the tool takes it. -/
def defragFile (b : Bpb) (fatSectors cc : UInt64) (fix : Fix → Wpkt Pkt) (depth turns : ℕ) (de : UInt64) :
    Defrag.File Rt :=
  fileOf infoPlace (b.fatDeReloc fatSectors cc fix depth turns de "defrag")

/-- The list goes through places in a row. -/
def InRow (c : ℕ → ℕ) (m : ℕ) : Prop := ∀ p, 1 ≤ p → p < m → c (p + 1) = c p + 1

section

variable {b : Bpb} {fatSectors total cc : UInt64} {ι : Type} {de : ι → UInt64} {len : ι → ℕ}
  {f g : ℕ → ℕ} {chain chain' : ι → ℕ → ℕ} {turns depth : ℕ} {rt rt₁ : Rt} {fix : Fix → Wpkt Pkt}

/-! ## One file -/

theorem Consistent.clusterBits_pos (h : Consistent b fatSectors total cc) : 0 < b.clusterBits.toNat := by
  obtain ⟨hbps, hspc, -⟩ := h.clusters_le
  rw [b.toNat_clusterBits.1]
  exact Nat.mul_pos hspc (Nat.mul_pos hbps (by norm_num))

/-- The instances of the selection. -/
theorem Stopped.follow_file (h : Stopped b fatSectors total cc de len rt f chain)
    (hmax : cc.toNat ≤ 2 ^ 31 - 7) (i : ι) {p : ℕ} (hp : 1 ≤ p) (hpm : p ≤ len i) :
    (b.defragFile fatSectors cc fix depth turns (de i)).follow rt
        (UInt64.ofNat p) =
      some (b.getCluster fatSectors (UInt64.ofNat (chain i p)), b.clusterBits) := by
  have hlen := h.volume.len_le i
  have hp64 : (UInt64.ofNat p).toNat = p := UInt64.toNat_ofNat_of_lt' (show p < 2 ^ 64 by omega)
  have hread := h.volume.run_getNthCnum i (p := UInt64.ofNat p) (by omega) (by omega)
  rw [hp64] at hread
  simp only [defragFile, fileOf, fatDeReloc, hread]
  rfl

/-- A file is in a row on disk if it is in a row in the FAT. -/
theorem Stopped.contiguous_iff (h : Stopped b fatSectors total cc de len rt f chain)
    (hmax : cc.toNat ≤ 2 ^ 31 - 7) (i : ι) :
    Defrag.Contiguous (b.defragFile fatSectors cc fix depth turns (de i)) rt
        1 (len i) ↔ InRow (chain i) (len i) := by
  have hnext : ∀ p, 1 ≤ p → p < len i →
      (b.getCluster fatSectors (UInt64.ofNat (chain i (p + 1))) =
          b.getCluster fatSectors (UInt64.ofNat (chain i p)) + b.clusterBits ↔
        chain i (p + 1) = chain i p + 1) := by
    intro p hp hpm
    have hdisk := h.volume.toOnDisk
    have hx := h.volume.range i p hp hpm.le
    have hy := h.volume.range i (p + 1) (by omega) hpm
    have hbounds := (hx.clusterAt_bounds hdisk).2
    have hsize := rt.io.disk.size_lt
    have hpos := hdisk.toConsistent.clusterBits_pos
    have hlo := hx.two_le
    have hlo' := hy.two_le
    have hat := hx.clusterAt_eq hdisk
    have hat' := hy.clusterAt_eq hdisk
    rw [← UInt64.toNat_inj, UInt64.toNat_add, Nat.mod_eq_of_lt (show _ < 2 ^ 64 from by
      show b.clusterAt fatSectors (chain i p) + b.clusterBits.toNat < 2 ^ 64
      omega)]
    show b.clusterAt fatSectors (chain i (p + 1)) =
      b.clusterAt fatSectors (chain i p) + b.clusterBits.toNat ↔ _
    rw [hat, hat', Nat.add_assoc, Nat.add_left_cancel_iff, ← Nat.succ_mul]
    constructor
    · intro heq
      have := Nat.eq_of_mul_eq_mul_right hpos heq
      omega
    · intro heq
      rw [heq]
      congr 1
      omega
  constructor
  · intro hrow p hp hpm
    obtain ⟨a, c, ha, hc, heq⟩ := hrow p hp hpm
    rw [h.follow_file hmax i hp hpm.le] at ha
    rw [h.follow_file hmax i (by omega) hpm] at hc
    rw [← Option.some.inj ha, ← Option.some.inj hc] at heq
    exact (hnext p hp hpm).mp heq
  · intro hrow p hp hpm
    exact ⟨_, _, h.follow_file hmax i hp hpm.le, h.follow_file hmax i (by omega) hpm,
      (hnext p hp hpm).mpr (hrow p hp hpm)⟩

variable [DecidableEq ι]

omit [DecidableEq ι] in
/-- What is free stays free but for the cluster that is taken. -/
theorem Stopped.exchange_free (h : Stopped b fatSectors total cc de len rt f chain) {i : ι} {j a x : ℕ}
    (hj : 1 ≤ j) (hm : j ≤ len i) (hx : f x = 0) (hne : x ≠ a) :
    exchange f (chain i) j a 0 x = 0 := by
  have hnot : ∀ p, 1 ≤ p → p ≤ len i → x ≠ chain i p := fun p hp hpm =>
    (h.volume.family.ne_free hx i hp hpm).symm
  rw [exchange_of_ne (hnot j hj hm) hne fun hlt => hnot (j - 1) (by omega) (by omega)]
  exact hx

theorem Stopped.relocate_file (fix : Fix → Wpkt Pkt) (turns : ℕ) (hroom : b.Roomy fatSectors cc depth)
    (h : Stopped b fatSectors total cc de len rt f chain) (hmax : cc.toNat ≤ 2 ^ 31 - 7) (i : ι)
    {j x : ℕ} (hj : 1 ≤ j) (hm : j ≤ len i) (hlo : 2 ≤ x) (hhi : x ≤ cc.toNat) (hfree : f x = 0) :
    ∃ rt', (b.defragFile fatSectors cc fix depth turns (de i)).relocate rt
        (UInt32.ofNat j) (UInt32.ofNat x) = some rt' ∧
      Stopped b fatSectors total cc de len rt' (exchange f (chain i) j x 0)
        (Family.exchanged chain i j x) ∧
      b.Kept fatSectors cc de len rt.io.disk f chain rt'.io.disk (exchange f (chain i) j x 0)
        (Family.exchanged chain i j x) := by
  have hlen := h.volume.len_le i
  have hx32 : (UInt32.ofNat x).toNat = x := UInt32.toNat_ofNat_of_lt' (show x < 2 ^ 32 by omega)
  have hj32 : (UInt32.ofNat j).toNat = j := UInt32.toNat_ofNat_of_lt' (show j < 2 ^ 32 by omega)
  have hread := h.volume.run_getNthCnum i (p := (UInt32.ofNat j).toUInt64)
    (show 1 ≤ (UInt32.ofNat j).toNat by omega) (show (UInt32.ofNat j).toNat ≤ len i by omega)
  obtain ⟨rt', hrun, hstopped, hkept⟩ := h.wpktRelocate hroom fix i
    (show 1 ≤ (UInt32.ofNat j).toNat by omega) (by omega)
    (hx32.symm ▸ hroom.inRange hlo (by omega)) (hx32.symm ▸ hfree)
  rw [hx32, hj32] at hstopped hkept
  refine ⟨rt', ?_, hstopped, hkept⟩
  simp only [defragFile, fileOf, fatDeReloc, hread, Option.bind_some]
  rw [show (UInt32.ofNat j).toUInt64.toNat = (UInt32.ofNat j).toNat from rfl, hrun]

/-- A file is moved to free clusters in a row, from its place `k + 1` on. -/
theorem Stopped.moveAll_row (fix : Fix → Wpkt Pkt) (turns : ℕ) (hroom : b.Roomy fatSectors cc depth)
    (h : Stopped b fatSectors total cc de len rt f chain) (hmax : cc.toNat ≤ 2 ^ 31 - 7) (i : ι)
    {n k c : ℕ} (hend : k + n ≤ len i) (hlo : 2 ≤ c) (hhi : c + k + n ≤ cc.toNat + 1)
    (hfree : ∀ x, c + k ≤ x → x < c + k + n → f x = 0) :
    ∃ rt' g chain', moveAll
        (b.defragFile fatSectors cc fix depth turns (de i))
        (row (UInt32.ofNat 1) c k n) rt = some rt' ∧
      Stopped b fatSectors total cc de len rt' g chain' ∧
      b.Kept fatSectors cc de len rt.io.disk f chain rt'.io.disk g chain' ∧
      (∀ j, k ≤ j → j < k + n → chain' i (1 + j) = c + j) ∧
      (∀ p, p ≤ k → chain' i p = chain i p) ∧ (∀ l, l ≠ i → chain' l = chain l) ∧
      ∀ x, f x = 0 → (x < c + k ∨ c + k + n ≤ x) → g x = 0 := by
  induction n generalizing k rt f chain with
  | zero =>
    exact ⟨rt, f, chain, rfl, h, .refl, fun j hj hlt => by omega, fun _ _ => rfl, fun _ _ => rfl,
      fun _ hx _ => hx⟩
  | succ n ih =>
    obtain ⟨rt₁, hstep, hstopped, hkept⟩ := h.relocate_file fix turns hroom hmax i
      (show 1 ≤ 1 + k by omega) (by omega) (show 2 ≤ c + k by omega) (by omega)
      (hfree (c + k) le_rfl (by omega))
    obtain ⟨rt', g, chain', hmoves, hstopped', hkept', hnew, hold, hother, hzero⟩ :=
      ih hstopped (k := k + 1) (by omega) (by omega) fun x hx hlt =>
        h.exchange_free (by omega) (by omega) (hfree x (by omega) (by omega)) (by omega)
    refine ⟨rt', g, chain', ?_, hstopped', hkept.trans hkept', fun j hj hlt => ?_, fun p hp => ?_,
      fun l hl => ?_, fun x hx hout => hzero x (h.exchange_free (by omega) (by omega) hx (by omega))
        (by omega)⟩
    · rw [show row (UInt32.ofNat 1) c k (n + 1) =
        ⟨UInt32.ofNat 1 + UInt32.ofNat k, UInt32.ofNat (c + k)⟩ :: row (UInt32.ofNat 1) c (k + 1) n from rfl,
        moveAll, ← UInt32.ofNat_add, hstep]
      exact hmoves
    · rcases Nat.eq_or_lt_of_le hj with rfl | hj
      · rw [hold _ (by omega), Family.exchanged_self, Function.update_self]
      · exact hnew j hj (by omega)
    · rw [hold p (by omega), Family.exchanged_self, Function.update_of_ne (by omega)]
    · rw [hother l hl, Family.exchanged_of_ne hl]

/-! ## The run -/

/-- The choices as they are when the first of them are loaded. -/
def firstChoices (b : Bpb) (fatSectors cc : UInt64) (mem : ℕ → ℕ → UInt8) (rt : Rt) : Defrag.Choices :=
  choicesAt (b.clusterChoices fatSectors cc mem) rt

/-- The state after the files in `done`, starting from the volume with the table `f` and the chains
`chain`: the tool's cache offers only clusters that are free, the clusters it has handed out are in files
that are in a row now, and only files that were not are somewhere else. -/
structure Defragged (b : Bpb) (fatSectors total cc : UInt64) (de : ι → UInt64) (len : ι → ℕ)
    (mem : ℕ → ℕ → UInt8) (rt : Rt) (f : ℕ → ℕ) (chain : ι → ℕ → ℕ) (done : List ι) (ms : List Move)
    (s : Defrag.State Rt) (g : ℕ → ℕ) (chain' : ι → ℕ → ℕ) : Prop where
  ready : Defrag.Ready (b.firstChoices fatSectors cc mem rt) ms s
  stopped : Stopped b fatSectors total cc de len s.world g chain'
  kept : b.Kept fatSectors cc de len rt.io.disk f chain s.world.io.disk g chain'
  fresh : s.ccache = none → s.world = rt
  free : ∀ x, 2 ≤ x → x ≤ cc.toNat → left (b.firstChoices fatSectors cc mem rt) ms x = true → g x = 0
  given : ∀ x ∈ handed ms, ∃ i p, 1 ≤ p ∧ p ≤ len i ∧ chain' i p = x ∧ InRow (chain' i) (len i)
  still : ∀ i, chain' i = chain i ∨ i ∈ done ∧ ¬ InRow (chain i) (len i) ∧ InRow (chain' i) (len i)
  rows : ∀ i ∈ done, InRow (chain' i) (len i) ∨
    ∀ c, ¬ Fits (left (b.firstChoices fatSectors cc mem rt) ms) (len i) 2 (cc.toNat + 1) c

variable {mem : ℕ → ℕ → UInt8} {done : List ι} {ms : List Move} {s s' : Defrag.State Rt}

omit [DecidableEq ι] in
theorem Defragged.start (h : Stopped b fatSectors total cc de len rt f chain)
    (hroom : b.Roomy fatSectors cc depth) (hmin : 2 < cc.toNat) (hmax : cc.toNat ≤ 2 ^ 31 - 7) :
    Defragged b fatSectors total cc de len mem rt f chain [] [] ⟨rt, none, 0⟩ f chain where
  ready := .start _ rt
  stopped := h
  kept := .refl
  fresh _ := rfl
  free x hlo hhi hleft := by
    have havail : (b.clusterChoices fatSectors cc mem).Avail rt x :=
      ⟨hlo, hhi, (Bool.and_eq_true_iff.mp hleft).1⟩
    exact ((h.avail_iff hroom (bounded_clusterChoices b fatSectors mem hmin hmax)).mp havail).2.2
  given _ hx := absurd hx List.not_mem_nil
  still _ := Or.inl rfl
  rows _ hi := absurd hi List.not_mem_nil

/-- The file can be moved to every run of clusters that the cache offers. -/
theorem Defragged.movable
    (h : Defragged b fatSectors total cc de len mem rt f chain done ms s g chain')
    (hroom : b.Roomy fatSectors cc depth) (hmax : cc.toNat ≤ 2 ^ 31 - 7) (i : ι) :
    Defrag.Movable (left (b.firstChoices fatSectors cc mem rt) ms) 2 cc.toNat
      (b.defragFile fatSectors cc fix depth turns (de i)) s.world 1
        (len i) := by
  have hlen := h.stopped.volume.len_le i
  have hpos := h.stopped.volume.pos i
  refine ⟨fun k hk hkm => ?_, fun c hc j hj w hw => ?_⟩
  · rw [h.stopped.follow_file hmax i hk hkm]
    rfl
  · have hge := hc.ge
    have hend := hc.le
    have hfree : ∀ x, c ≤ x → x < c + len i → g x = 0 := fun x hx hlt =>
      h.free x (by omega) (by omega) (hc.all x hx (by omega))
    obtain ⟨rt', g', chain'', hmoves, hstopped, -, -, -, -, hzero⟩ :=
      h.stopped.moveAll_row fix turns hroom hmax i (n := j) (k := 0) (c := c)
        (by omega) hge (by omega) fun x hx hlt => hfree x (by omega) (by omega)
    obtain rfl := Option.some.inj (hmoves.symm.trans hw)
    have hnext : (UInt32.ofNat 1 + UInt32.ofNat j).toUInt64 = UInt64.ofNat (1 + j) := by
      refine UInt64.toNat_inj.mp ?_
      rw [UInt32.toNat_toUInt64, ← UInt32.ofNat_add,
        UInt32.toNat_ofNat_of_lt' (show 1 + j < 2 ^ 32 by omega),
        UInt64.toNat_ofNat_of_lt' (show 1 + j < 2 ^ 64 by omega)]
    obtain ⟨rt'', hrel, -⟩ := hstopped.relocate_file fix turns hroom hmax i
      (j := 1 + j) (x := c + j) (by omega) (by omega) (by omega) (by omega)
      (hzero (c + j) (hfree _ (by omega) (by omega)) (by omega))
    rw [hnext, hstopped.follow_file hmax i (by omega) (by omega), ← UInt32.ofNat_add, hrel]
    exact ⟨rfl, rfl⟩

omit [DecidableEq ι] in
/-- A file that is left alone. -/
theorem Defragged.alone (h : Defragged b fatSectors total cc de len mem rt f chain done ms s g chain')
    {i : ι} (hworld : s'.world = s.world) (hloaded : s'.ccache.isSome)
    (hready : Defrag.Ready (b.firstChoices fatSectors cc mem rt) (ms ++ []) s')
    (hrow : InRow (chain' i) (len i) ∨
      ∀ c, ¬ Fits (left (b.firstChoices fatSectors cc mem rt) ms) (len i) 2 (cc.toNat + 1) c) :
    Defragged b fatSectors total cc de len mem rt f chain (done ++ [i]) (ms ++ []) s' g chain' := by
  rw [List.append_nil] at hready ⊢
  refine
    { ready := hready
      stopped := hworld ▸ h.stopped
      kept := hworld ▸ h.kept
      fresh := fun hnone => absurd hloaded (by rw [hnone]; exact Bool.noConfusion)
      free := h.free
      given := h.given
      still := fun l => (h.still l).imp_right fun hl => ⟨List.mem_append_left _ hl.1, hl.2⟩
      rows := fun l hl => ?_ }
  rcases List.mem_append.mp hl with hl | hl
  · exact h.rows l hl
  · obtain rfl := List.mem_singleton.mp hl
    exact hrow

/-- A file that is moved to a run of clusters. -/
theorem Defragged.moved (h : Defragged b fatSectors total cc de len mem rt f chain done ms s g chain')
    (hroom : b.Roomy fatSectors cc depth) (hmax : cc.toNat ≤ 2 ^ 31 - 7) {i : ι} {c : ℕ}
    (hbroken : ¬ InRow (chain' i) (len i))
    (hc : Fits (left (b.firstChoices fatSectors cc mem rt) ms) (len i) 2 (cc.toNat + 1) c)
    (hloaded : s'.ccache.isSome) (hready : Defrag.Ready (b.firstChoices fatSectors cc mem rt)
      (ms ++ row (UInt32.ofNat 1) c 0 (len i)) s')
    (hmoves : moveAll (b.defragFile fatSectors cc fix depth turns (de i))
      (row (UInt32.ofNat 1) c 0 (len i)) s.world = some s'.world) :
    ∃ g' chain'', Defragged b fatSectors total cc de len mem rt f chain (done ++ [i])
      (ms ++ row (UInt32.ofNat 1) c 0 (len i)) s' g' chain'' := by
  have hge := hc.ge
  have hend := hc.le
  have hlow : c + len i ≤ 2 ^ 32 := by omega
  obtain ⟨rt', g', chain'', hmoves', hstopped, hkept, hnew, -, hother, hzero⟩ :=
    h.stopped.moveAll_row fix turns hroom hmax i (n := len i) (k := 0) (c := c)
      (by omega) hge (by omega) fun x hx hlt =>
        h.free x (by omega) (by omega) (hc.all x (by omega) (by omega))
  obtain rfl := Option.some.inj (hmoves'.symm.trans hmoves)
  have hplace : ∀ p, 1 ≤ p → p ≤ len i → chain'' i p = c + (p - 1) := fun p hp hpm => by
    rw [← hnew (p - 1) (by omega) (by omega), show 1 + (p - 1) = p by omega]
  have hrow : InRow (chain'' i) (len i) := fun p hp hpm => by
    rw [hplace p hp hpm.le, hplace (p + 1) (by omega) hpm]
    omega
  have hleft : ∀ x, left (b.firstChoices fatSectors cc mem rt)
      (ms ++ row (UInt32.ofNat 1) c 0 (len i)) x = true →
      left (b.firstChoices fatSectors cc mem rt) ms x = true ∧ ¬ (c ≤ x ∧ x < c + len i) := by
    intro x hx
    rw [Defrag.left_append hlow, Defrag.without, Bool.and_eq_true_iff, decide_eq_true_iff] at hx
    exact hx
  refine ⟨g', chain'',
    { ready := hready
      stopped := hstopped
      kept := h.kept.trans hkept
      fresh := fun hnone => absurd hloaded (by rw [hnone]; exact Bool.noConfusion)
      free := fun x hlo hhi hx => ?_
      given := fun x hx => ?_
      still := fun l => ?_
      rows := fun l hl => ?_ }⟩
  · obtain ⟨hold, hout⟩ := hleft x hx
    exact hzero x (h.free x hlo hhi hold) (by omega)
  · rw [handed, List.map_append, ← handed, ← handed, Defrag.handed_row hlow] at hx
    rcases List.mem_append.mp hx with hx | hx
    · -- the cluster is in a file in a row, which is not the one that is moved
      obtain ⟨l, p, hp, hpm, heq, hl⟩ := h.given x hx
      have hne : l ≠ i := fun heq => hbroken (heq ▸ hl)
      exact ⟨l, p, hp, hpm, by rw [hother l hne]; exact heq, by rw [hother l hne]; exact hl⟩
    · obtain ⟨j, hj, rfl⟩ := List.mem_map.mp hx
      have hlt := List.mem_range.mp hj
      exact ⟨i, 1 + j, by omega, by omega, hnew j (by omega) (by omega), hrow⟩
  · by_cases hl : l = i
    · subst hl
      refine Or.inr ⟨List.mem_append_right _ List.mem_cons_self, fun hfirst => ?_, hrow⟩
      rcases h.still l with hsame | ⟨-, hnot, -⟩
      · exact hbroken (hsame ▸ hfirst)
      · exact hnot hfirst
    · rw [hother l hl]
      exact (h.still l).imp_right fun hmoved => ⟨List.mem_append_left _ hmoved.1, hmoved.2⟩
  · by_cases hli : l = i
    · exact Or.inl (hli ▸ hrow)
    · rw [hother l hli]
      have hmem : l ∈ done := (List.mem_append.mp hl).resolve_right fun hl =>
        hli (List.mem_singleton.mp hl)
      refine (h.rows l hmem).imp_right fun hnone c' hc' => hnone c' ⟨hc'.ge, hc'.le, fun x hx hlt => ?_⟩
      exact (hleft x (hc'.all x hx hlt)).1

/-- One file. -/
theorem Defragged.step (h : Defragged b fatSectors total cc de len mem rt f chain done ms s g chain')
    (hroom : b.Roomy fatSectors cc depth) (hmin : 2 < cc.toNat) (hmax : cc.toNat ≤ 2 ^ 31 - 7)
    (hfirst : Stopped b fatSectors total cc de len rt f chain)
    (hcount : ∀ i, (b.deClusterCount fatSectors cc turns (de i)).run .little rt.io.disk =
      .ok (some (UInt64.ofNat (len i)))) (i : ι) :
    ∃ ms' s', Returns (fun n => Defrag.handleTi infoPlace (b.clusterChoices fatSectors cc mem) n
        (b.fatDeRelocs fatSectors cc fix depth turns (de i)) s) (ms', s') ∧
      ∃ g' chain'', Defragged b fatSectors total cc de len mem rt f chain (done ++ [i]) (ms ++ ms') s' g'
        chain'' := by
  have hlen := h.stopped.volume.len_le i
  have hpos := h.stopped.volume.pos i
  have hb := bounded_clusterChoices b fatSectors mem hmin hmax
  -- the choices were loaded before anything was moved
  have hsame : ∀ n, Defrag.doDefrag (choicesAt (b.clusterChoices fatSectors cc mem) s.world)
        (b.defragFile fatSectors cc fix depth turns (de i)) n s =
      Defrag.doDefrag (b.firstChoices fatSectors cc mem rt)
        (b.defragFile fatSectors cc fix depth turns (de i)) n s := by
    intro n
    cases hcc : s.ccache with
    | none =>
      rw [h.fresh hcc]
      rfl
    | some cc => exact Defrag.doDefrag_loaded (by rw [hcc]; rfl) _ _ _ _
  have hselMax : ((b.defragFile fatSectors cc fix depth turns (de i)).selMax
      s.world).toNat = len i := by
    have hrun := h.kept.run_deClusterCount hfirst.volume h.stopped.volume turns i
    rw [hcount i] at hrun
    simp only [defragFile, fileOf, fatDeReloc, hrun]
    exact UInt64.toNat_ofNat_of_lt' (show len i < 2 ^ 64 by omega)
  have hselMin : ((b.defragFile fatSectors cc fix depth turns (de i)).selMin s.world).toNat = 1 := rfl
  obtain ⟨ms', s', hret, hready, hloaded, hres⟩ := h.ready.doDefrag_movable hb.le
    (show cc.toNat < 2 ^ 31 - 1 by omega) hb.size_le hselMin hselMax (by norm_num) (by omega)
    fun _ => h.movable hroom hmax i
  have hhandle : Returns (fun n => Defrag.handleTi infoPlace (b.clusterChoices fatSectors cc mem) n
      (b.fatDeRelocs fatSectors cc fix depth turns (de i)) s) (ms', s') := by
    refine Defrag.returns_handleTi (show some "reloc" ≠ some "defrag" by decide) rfl ?_
    obtain ⟨enough, hrun⟩ := hret
    exact ⟨enough, fun n hn => (hsame n).trans (hrun n hn)⟩
  refine ⟨ms', s', hhandle, ?_⟩
  rw [h.stopped.contiguous_iff hmax i, Nat.sub_add_cancel hpos] at hres
  rcases hres with ⟨rfl, hworld, hrow⟩ | ⟨hbroken, c, hc, rfl, hmoves⟩
  · exact ⟨g, chain', h.alone hworld hloaded hready hrow⟩
  · exact h.moved hroom hmax hbroken hc hloaded hready hmoves

/-- When the tool is done, every file has its data; what has been moved was not in a row and is now; and
a file that the scan came to is in a row, unless it has more clusters than any run of choices that were
free before and still are. The choices are the clusters from 2 to `get_cluster_count()`, so that the last
cluster, whose number is one more, is never one. -/
theorem defrag_keeps_files (hroom : b.Roomy fatSectors cc depth) (hmin : 2 < cc.toNat)
    (hmax : cc.toNat ≤ 2 ^ 31 - 7) (h : Stopped b fatSectors total cc de len rt f chain)
    (hcount : ∀ i, (b.deClusterCount fatSectors cc turns (de i)).run .little rt.io.disk =
      .ok (some (UInt64.ofNat (len i)))) (files : List ι) :
    ∃ ms s, Returns (fun n => Defrag.scan infoPlace (b.clusterChoices fatSectors cc mem) n
        (files.map fun i => b.fatDeRelocs fatSectors cc fix depth turns (de i)) ⟨rt, none, 0⟩) (ms, s) ∧
      ∃ g chain', Stopped b fatSectors total cc de len s.world g chain' ∧
        b.Kept fatSectors cc de len rt.io.disk f chain s.world.io.disk g chain' ∧
        (∀ i, chain' i = chain i ∨
          i ∈ files ∧ ¬ InRow (chain i) (len i) ∧ InRow (chain' i) (len i)) ∧
        ∀ i ∈ files, InRow (chain' i) (len i) ∨ ∀ c, 2 ≤ c → c + len i ≤ cc.toNat + 1 →
          ∃ x, c ≤ x ∧ x < c + len i ∧ ¬ (f x = 0 ∧ g x = 0) := by
  have hb := bounded_clusterChoices b fatSectors mem hmin hmax
  have hstep : ∀ done i ms s, i ∈ files →
      (∃ g chain', Defragged b fatSectors total cc de len mem rt f chain done ms s g chain') →
      ∃ ms' s', Returns (fun n => Defrag.handleTi infoPlace (b.clusterChoices fatSectors cc mem) n
          (b.fatDeRelocs fatSectors cc fix depth turns (de i)) s) (ms', s') ∧
        ∃ g' chain'', Defragged b fatSectors total cc de len mem rt f chain (done ++ [i]) (ms ++ ms') s'
          g' chain'' :=
    fun _ i _ _ _ ⟨_, _, hinv⟩ => hinv.step hroom hmin hmax h hcount i
  obtain ⟨ms, s, hret, g, chain', hend⟩ := Defrag.returns_scan hstep
    ⟨f, chain, .start h hroom hmin hmax⟩
  rw [List.nil_append, List.nil_append] at hend
  refine ⟨ms, s, hret, g, chain', hend.stopped, hend.kept, hend.still, fun i hi => ?_⟩
  refine (hend.rows i hi).imp_right fun hnone c hlo hhi => ?_
  by_contra hall
  push Not at hall
  refine hnone c ⟨hlo, hhi, fun x hx hlt => ?_⟩
  obtain ⟨hbefore, hafter⟩ := hall x hx hlt
  have havail := (h.avail_iff hroom hb).mpr ⟨show 2 ≤ x by omega, show x ≤ cc.toNat by omega, hbefore⟩
  refine Bool.and_eq_true_iff.mpr ⟨havail.ccond, decide_eq_true fun hmem => ?_⟩
  obtain ⟨l, p, hp, hpm, rfl, -⟩ := hend.given x hmem
  exact hend.stopped.volume.family.used l p hp hpm hafter

end

/-- The file on the volume of eight clusters, when the scan comes to it twice. -/
theorem defrag_keeps_files_sample :
    ∃ ms s, Returns (fun n => Defrag.scan infoPlace (sampleBpb.clusterChoices 1 8 fun _ _ => 0) n
        ([(), ()].map fun _ => sampleBpb.fatDeRelocs 1 8 (fun _ => ⟨[], []⟩) 3 9 20480)
          ⟨sampleRt 0xffffffff, none, 0⟩) (ms, s) ∧
      ∃ g chain', Stopped sampleBpb 1 10 8 (fun _ : Unit => 20480) (fun _ => 2) s.world g chain' ∧
        sampleBpb.Kept 1 8 (fun _ : Unit => 20480) (fun _ => 2) (sample 0xffffffff)
          (sampleFat 0xffffffff) (fun _ => sampleChain 0xffffffff) s.world.io.disk g chain' ∧
        (∀ i, chain' i = sampleChain 0xffffffff ∨
          i ∈ [(), ()] ∧ ¬ InRow (sampleChain 0xffffffff) 2 ∧ InRow (chain' i) 2) ∧
        ∀ i ∈ [(), ()], InRow (chain' i) 2 ∨ ∀ c, 2 ≤ c → c + 2 ≤ 8 + 1 →
          ∃ x, c ≤ x ∧ x < c + 2 ∧ ¬ (sampleFat 0xffffffff x = 0 ∧ g x = 0) :=
  defrag_keeps_files sample_roomy (by decide) (by decide) sample_stopped
    (fun _ => sample_deClusterCount 9) [(), ()]

end Fsl.Vfat.Bpb
