import Fsl.Fs.VfatVolume
import Fsl.Tool.Scatter
import Fsl.Tool.Thrash

/-!
# Moving the files of a VFAT volume

The scatter and the thrash-copy tool on a VFAT volume: whatever regular files a scan comes to, and
however often, at the end every file of the volume has its data.
-/

namespace Fsl.Vfat.Bpb

open Pread Linked RelType

variable (b : Bpb) (fatSectors cc : UInt64)

/-- The `relocate` statement `name` of the entry `de`. Nothing is selected where the number of clusters
cannot be read. -/
def fatDeReloc (fix : Fix → Wpkt Pkt) (depth turns : ℕ) (de : UInt64) (name : String) :
    RttReloc Rt TypeInfo where
  relName := some name
  selMin _ := 1
  selMax rt :=
    match (b.deClusterCount fatSectors cc turns de).run .little rt.io.disk with
    | .ok (some count) => count
    | _ => 0
  follow rt j :=
    match (b.getNthCnum fatSectors cc de j).run .little rt.io.disk with
    | .ok cn => some (b.clusterInfo fatSectors cn)
    | .error _ => none
  choice _ i := some (b.clusterInfo fatSectors i)
  relocate rt t sel choice :=
    match wpktRelocate .little (b.pkts fatSectors cc fix) depth (b.reloc fatSectors cc de) t sel choice
      rt with
    | .ok (some (), rt') => some rt'
    | _ => none

/-- The choices of all these statements. -/
def clusterChoices (mem : ℕ → ℕ → UInt8) : Choices Rt where
  choiceMin := 2
  choiceMax := cc
  ccond rt i :=
    match (b.isClusterAvail fatSectors cc i).run .little rt.io.disk with
    | .ok avail => avail
    | .error _ => false
  mem := mem

variable {b fatSectors cc} {total : UInt64} {ι : Type} {de : ι → UInt64} {len : ι → ℕ}
  {d e : Disk} {f g : ℕ → ℕ} {chain chain' : ι → ℕ → ℕ} {turns depth : ℕ} {rt rt' : Rt}

/-! ## The number of clusters -/

/-- The bits of the entries, but for the first cluster, are fixed. -/
theorem Volume.fixed_entry (h : Volume b fatSectors total cc de len d f chain) (i : ι) {k : ℕ}
    (hk : (de i).toNat ≤ k) (hk' : k < (de i).toNat + 256) (hfirst : ¬ InFirst (de i) k) :
    b.Fixed fatSectors cc de (Pool f 0 chain len) k := by
  have hbehind := (h.deIn i).behind
  refine Or.inr ⟨by omega, fun l => ?_, fun x hx hpool => ?_⟩
  · by_cases hl : l = i
    · exact hl ▸ hfirst
    · have hentries := h.entries l i hl
      unfold InFirst
      omega
  · have hapart := h.entry_apart i hx hpool
    omega

/-- What the count of a regular file depends on. -/
theorem DeIn.run_deClusterCount {ent : UInt64} (hde : b.DeIn fatSectors d ent) (hlines : 32 ∣ d.size)
    (hfile : (isDeFile ent).run .little d = .ok true) (turns : ℕ) :
    (b.deClusterCount fatSectors cc turns ent).run .little d =
      b.bytesPerCluster.run .little d >>= fun bpc =>
        .ok (some ((UInt64.ofNat (d.num (ent.toNat + 224) 32) + (bpc - 1)) / bpc)) := by
  obtain ⟨hfull, hattr⟩ := (hde.run_isDeFile_iff hlines).mp hfile
  have hsize := hde.run_field hlines 224 (k := 224) rfl Width.of32 (by decide)
  have hread := hde.run_field hlines 88 (k := 88) rfl Width.of8 (by decide)
  have hdir : 0x10 &&& UInt64.ofNat (d.num (ent.toNat + 88) 8) = 0 := by
    have hand : (0x10 : UInt64) = 0x10 &&& 0x58 := by decide
    rw [hand, UInt64.and_assoc, hattr]
    decide
  rw [deClusterCount, Prog.run_bind]
  refine congrArg _ (funext fun bpc => ?_)
  rw [Prog.run_bind, hsize, ok_bind, if_neg hfull]
  simp only [ne_eq, Prog.run_bind, hread, ok_bind, hdir, not_true, if_false, hsize]
  rfl

/-- Relocations do not change the number of clusters. -/
theorem Kept.run_deClusterCount (hvol : Volume b fatSectors total cc de len d f chain)
    (hvol' : Volume b fatSectors total cc de len e g chain')
    (hkept : b.Kept fatSectors cc de len d f chain e g chain') (turns : ℕ) (i : ι) :
    (b.deClusterCount fatSectors cc turns (de i)).run .little e =
      (b.deClusterCount fatSectors cc turns (de i)).run .little d := by
  have hnum : e.num ((de i).toNat + 224) 32 = d.num ((de i).toNat + 224) 32 :=
    Disk.num_congr fun k hk hk' => hkept.fixed k (hvol.fixed_entry i (by omega) (by omega) (by
      unfold InFirst
      omega))
  have hbpc : b.bytesPerCluster.run .little e = b.bytesPerCluster.run .little d := by
    unfold bytesPerCluster
    split <;> rfl
  rw [(hvol'.deIn i).run_deClusterCount hvol'.lines (hvol'.regular i),
    (hvol.deIn i).run_deClusterCount hvol.lines (hvol.regular i), hnum, hbpc]

/-- No file has more clusters than the volume. -/
theorem Volume.len_le (h : Volume b fatSectors total cc de len d f chain) (i : ι) :
    len i ≤ cc.toNat := by
  have hinj : Set.InjOn (fun p => chain i p - 2) (Finset.Icc 1 (len i) : Set ℕ) := by
    intro p hp q hq heq
    rw [Finset.coe_Icc, Set.mem_Icc] at hp hq
    have htwo := (h.range i p hp.1 hp.2).two_le
    have htwo' := (h.range i q hq.1 hq.2).two_le
    change chain i p - 2 = chain i q - 2 at heq
    exact (h.family.list i).inj p q hp.1 hp.2 hq.1 hq.2 (by omega)
  have hcard := Finset.card_le_card_of_injOn (t := Finset.range cc.toNat) _ (fun p hp => ?_) hinj
  · rwa [Nat.card_Icc, Finset.card_range, Nat.add_sub_cancel] at hcard
  · rw [Finset.coe_Icc, Set.mem_Icc] at hp
    have hlt := (h.range i p hp.1 hp.2).lt
    have htwo := (h.range i p hp.1 hp.2).two_le
    exact Finset.mem_coe.mpr (Finset.mem_range.mpr (by omega))

/-! ## The statements -/

/-- What holds after relocations of files of the volume, with a property of where the files then lie. -/
def Moved (b : Bpb) (fatSectors total cc : UInt64) (de : ι → UInt64) (len : ι → ℕ) (d : Disk)
    (f : ℕ → ℕ) (chain : ι → ℕ → ℕ) (K : (ι → ℕ → ℕ) → Prop) (rt : Rt) : Prop :=
  ∃ g chain', Stopped b fatSectors total cc de len rt g chain' ∧
    b.Kept fatSectors cc de len d f chain rt.io.disk g chain' ∧ K chain'

theorem bounded_clusterChoices (b : Bpb) (fatSectors : UInt64) (mem : ℕ → ℕ → UInt8)
    (hmin : 2 < cc.toNat) (hmax : cc.toNat ≤ 2 ^ 31 - 7) :
    (b.clusterChoices fatSectors cc mem).Bounded := by
  have htwo : (2 : UInt64).toNat = 2 := rfl
  refine ⟨?_, ?_, ?_⟩
  · show (2 : UInt64).toNat ≤ cc.toNat
    omega
  · show cc.toNat < 2 ^ 31
    omega
  · show cc.toNat - (2 : UInt64).toNat + 1 ≤ 2 ^ 31 - 8
    omega

section Sound

variable {mem : ℕ → ℕ → UInt8} {fix : Fix → Wpkt Pkt}

/-- The available choices are the free clusters. -/
theorem Stopped.avail_iff (h : Stopped b fatSectors total cc de len rt f chain)
    (hroom : b.Roomy fatSectors cc depth) (hb : (b.clusterChoices fatSectors cc mem).Bounded) {c : ℕ} :
    (b.clusterChoices fatSectors cc mem).Avail rt c ↔ 2 ≤ c ∧ c ≤ cc.toNat ∧ f c = 0 := by
  have hccond : ∀ i, (b.clusterChoices fatSectors cc mem).ccond rt i = true ↔
      (b.isClusterAvail fatSectors cc i).run .little rt.io.disk = .ok true := by
    intro i
    show (match (b.isClusterAvail fatSectors cc i).run .little rt.io.disk with
      | .ok avail => avail
      | .error _ => false) = true ↔ _
    split
    · next heq => rw [heq, Except.ok.injEq]
    · next heq => rw [heq]; exact ⟨fun hfalse => (nomatch hfalse), fun hok => (nomatch hok)⟩
  have hfree : 2 ≤ c → c ≤ cc.toNat →
      ((b.clusterChoices fatSectors cc mem).ccond rt (UInt64.ofNat c) = true ↔ f c = 0) := by
    intro hlo hhi
    have hnat := Choices.toNat_ofNat hb hhi
    rw [hccond, h.isClusterAvail_iff (hnat.symm ▸ hroom.inRange hlo (by omega)), hnat]
  exact ⟨fun hc => ⟨hc.le, hc.ge, (hfree hc.le hc.ge).mp hc.ccond⟩,
    fun ⟨hlo, hhi, hzero⟩ => ⟨hlo, hhi, (hfree hlo hhi).mpr hzero⟩⟩

variable [DecidableEq ι]

/-- The `relocate` statements of `fat_de` keep their promise on the volume. -/
theorem sound_fatDeReloc (hroom : b.Roomy fatSectors cc depth) (hmin : 2 < cc.toNat)
    (hmax : cc.toNat ≤ 2 ^ 31 - 7) (h : Stopped b fatSectors total cc de len rt f chain)
    (hcount : ∀ i, (b.deClusterCount fatSectors cc turns (de i)).run .little rt.io.disk =
      .ok (some (UInt64.ofNat (len i)))) (i : ι) (name : String) {K : (ι → ℕ → ℕ) → Prop}
    {may : Rt → TypeInfo → ℕ → Prop}
    (hK : ∀ rt' chain' j c, K chain' → 1 ≤ j → j ≤ len i → b.InRange fatSectors cc c →
      may rt' (b.clusterInfo fatSectors (UInt64.ofNat (chain' i j))) c →
        K (Family.exchanged chain' i j c)) :
    (b.clusterChoices fatSectors cc mem).Sound
      (Moved b fatSectors total cc de len rt.io.disk f chain K) may
      (b.fatDeReloc fatSectors cc fix depth turns (de i) name) 1 (len i) := by
  have hlen := h.volume.len_le i
  have hb := bounded_clusterChoices b fatSectors mem hmin hmax
  refine ⟨by norm_num, by omega, fun _ _ => rfl, fun rt₁ hmoved => ?_,
    fun rt₁ t j c hmoved hj hm hfollow hc hmay => ?_⟩
  · obtain ⟨g, chain', hstopped, hkept, -⟩ := hmoved
    have hrun := hkept.run_deClusterCount h.volume hstopped.volume turns i
    rw [hcount i] at hrun
    simp only [fatDeReloc, hrun]
    exact UInt64.toNat_ofNat_of_lt' (show len i < 2 ^ 64 by omega)
  · obtain ⟨g, chain', hstopped, hkept, hpos⟩ := hmoved
    obtain ⟨hlo, hhi, hfree⟩ := (hstopped.avail_iff hroom hb).mp hc
    have hx : b.InRange fatSectors cc c := hroom.inRange hlo (by omega)
    have hc32 : (UInt32.ofNat c).toNat = c := UInt32.toNat_ofNat_of_lt' (show c < 2 ^ 32 by omega)
    have hj32 : (UInt32.ofNat j).toNat = j := UInt32.toNat_ofNat_of_lt' (show j < 2 ^ 32 by omega)
    have hj64 : (UInt64.ofNat j).toNat = j := UInt64.toNat_ofNat_of_lt' (show j < 2 ^ 64 by omega)
    have hread := hstopped.volume.run_getNthCnum i (p := UInt64.ofNat j) (by omega) (by omega)
    rw [hj64] at hread
    simp only [fatDeReloc, hread] at hfollow
    obtain rfl := Option.some.inj hfollow
    have hrel := hstopped.wpktRelocate hroom fix i (show 1 ≤ (UInt32.ofNat j).toNat by omega)
      (by omega) (show b.InRange fatSectors cc (UInt32.ofNat c).toNat by rwa [hc32]) (by rwa [hc32])
    rw [hc32, hj32] at hrel
    obtain ⟨rt', hrun, hstopped', hkept'⟩ := hrel
    refine ⟨rt', by simp only [fatDeReloc, hrun], ⟨_, _, hstopped', hkept.trans hkept',
      hK rt₁ chain' j c hpos hj hm hx hmay⟩, fun c' hne hc' => ?_⟩
    obtain ⟨hlo', hhi', hfree'⟩ := (hstopped.avail_iff hroom hb).mp hc'
    refine (hstopped'.avail_iff hroom hb).mpr ⟨hlo', hhi', ?_⟩
    -- a free cluster is no place of the file
    have hnot : ∀ p, 1 ≤ p → p ≤ len i → c' ≠ chain' i p := fun p hp hpm =>
      (hstopped.volume.family.ne_free hfree' i hp hpm).symm
    rw [exchange_of_ne (hnot j hj hm) hne fun hlt => hnot (j - 1) (by omega) (by omega)]
    exact hfree'

/-- The two statements of an entry. -/
def fatDeRelocs (b : Bpb) (fatSectors cc : UInt64) (fix : Fix → Wpkt Pkt) (depth turns : ℕ) (de : UInt64) :
    List (RttReloc Rt TypeInfo) :=
  [b.fatDeReloc fatSectors cc fix depth turns de "reloc",
    b.fatDeReloc fatSectors cc fix depth turns de "defrag"]

/-- All statements that a scan comes to keep their promise. -/
theorem sound_fatDeRelocs (mem : ℕ → ℕ → UInt8) (fix : Fix → Wpkt Pkt) (K : (ι → ℕ → ℕ) → Prop)
    (may : RttReloc Rt TypeInfo → Rt → TypeInfo → ℕ → Prop) (hroom : b.Roomy fatSectors cc depth)
    (hmin : 2 < cc.toNat) (hmax : cc.toNat ≤ 2 ^ 31 - 7)
    (h : Stopped b fatSectors total cc de len rt f chain)
    (hcount : ∀ i, (b.deClusterCount fatSectors cc turns (de i)).run .little rt.io.disk =
      .ok (some (UInt64.ofNat (len i)))) (files : List ι)
    (hK : ∀ i name rt' chain' j c, K chain' → 1 ≤ j → j ≤ len i → b.InRange fatSectors cc c →
      may (b.fatDeReloc fatSectors cc fix depth turns (de i) name) rt'
        (b.clusterInfo fatSectors (UInt64.ofNat (chain' i j))) c → K (Family.exchanged chain' i j c)) :
    ∀ rels ∈ files.map fun i => b.fatDeRelocs fatSectors cc fix depth turns (de i), ∀ rel ∈ rels,
      rel.relName = some "reloc" → ∃ lo hi, (b.clusterChoices fatSectors cc mem).Sound
        (Moved b fatSectors total cc de len rt.io.disk f chain K) (may rel) rel lo hi := by
  intro rels hrels rel hrel _
  obtain ⟨i, -, rfl⟩ := List.mem_map.mp hrels
  rcases List.mem_pair.mp hrel with rfl | rfl
  · exact ⟨1, len i, sound_fatDeReloc hroom hmin hmax h hcount i "reloc" (hK i "reloc")⟩
  · exact ⟨1, len i, sound_fatDeReloc hroom hmin hmax h hcount i "defrag" (hK i "defrag")⟩

/-- Scattered over the volume, every file keeps its data. -/
theorem scatter_keeps_files (rand : ℕ → Fin (2 ^ 31)) (fragPercent : ℤ)
    (hroom : b.Roomy fatSectors cc depth) (hmin : 2 < cc.toNat) (hmax : cc.toNat ≤ 2 ^ 31 - 7)
    (h : Stopped b fatSectors total cc de len rt f chain)
    (hcount : ∀ i, (b.deClusterCount fatSectors cc turns (de i)).run .little rt.io.disk =
      .ok (some (UInt64.ofNat (len i)))) (files : List ι) :
    ∃ s, Returns (fun n => (Scatter.tool rand fragPercent (b.clusterChoices fatSectors cc mem)).scan n
        (files.map fun i => b.fatDeRelocs fatSectors cc fix depth turns (de i))
          ⟨rt, none, 0, 0, 0⟩) s ∧
      ∃ g chain', Stopped b fatSectors total cc de len s.world g chain' ∧
        b.Kept fatSectors cc de len rt.io.disk f chain s.world.io.disk g chain' := by
  have hsound := sound_fatDeRelocs mem fix (fun _ => True) (fun _ _ _ _ => True) hroom hmin hmax h
    hcount files fun _ _ _ _ _ _ _ _ _ _ _ => trivial
  obtain ⟨s, hret, hs⟩ := (Scatter.ends_tool rand fragPercent
    (bounded_clusterChoices b fatSectors mem hmin hmax) hmin hsound
    ⟨f, chain, h, .refl, trivial⟩).returns
  obtain ⟨g, chain', hstopped, hkept, -⟩ := hs.inv
  exact ⟨s, hret, g, chain', hstopped, hkept⟩

/-- Moved toward the end of the volume, every file keeps its data, and no cluster of a file comes to lie
before where it was. -/
theorem thrash_keeps_files (hroom : b.Roomy fatSectors cc depth) (hmin : 2 < cc.toNat)
    (hmax : cc.toNat ≤ 2 ^ 31 - 7) (h : Stopped b fatSectors total cc de len rt f chain)
    (hcount : ∀ i, (b.deClusterCount fatSectors cc turns (de i)).run .little rt.io.disk =
      .ok (some (UInt64.ofNat (len i)))) (files : List ι) :
    ∃ s, Returns (fun n => (Thrash.tool TypeInfo.offset (b.clusterChoices fatSectors cc mem)).scan n
        (files.map fun i => b.fatDeRelocs fatSectors cc fix depth turns (de i))
          ⟨rt, none, 0, 0, 0⟩) s ∧
      ∃ g chain', Stopped b fatSectors total cc de len s.world g chain' ∧
        b.Kept fatSectors cc de len rt.io.disk f chain s.world.io.disk g chain' ∧
        ∀ i p, 1 ≤ p → p ≤ len i →
          b.clusterAt fatSectors (chain i p) ≤ b.clusterAt fatSectors (chain' i p) := by
  have hsound := sound_fatDeRelocs mem fix (fun chain' => ∀ i p, 1 ≤ p → p ≤ len i →
      b.clusterAt fatSectors (chain i p) ≤ b.clusterAt fatSectors (chain' i p))
    (Thrash.Behind TypeInfo.offset) hroom hmin hmax h hcount files
    fun i name rt' chain' j c hK hj hm hx hbehind l p hp hpm => by
      rcases Family.exchanged_cases chain' i j c l p with ⟨rfl, rfl, hval⟩ | ⟨-, hval⟩
      · obtain ⟨u, hu, hlt⟩ := hbehind
        obtain rfl := Option.some.inj hu
        have hbefore : b.clusterAt fatSectors (chain' l p) < b.clusterAt fatSectors c :=
          UInt64.lt_iff_toNat_lt.mp hlt
        rw [hval]
        exact (hK l p hp hpm).trans hbefore.le
      · rw [hval]
        exact hK l p hp hpm
  obtain ⟨s, hret, hs⟩ := (Thrash.ends_tool TypeInfo.offset
    (bounded_clusterChoices b fatSectors mem hmin hmax) (show 1 ≤ (2 : UInt64).toNat by decide) hsound
    ⟨f, chain, h, .refl, fun _ _ _ _ => le_rfl⟩).returns
  obtain ⟨g, chain', hstopped, hkept, hback⟩ := hs.inv
  exact ⟨s, hret, g, chain', hstopped, hkept, hback⟩

end Sound

/-! ## A volume with one file -/

theorem sample_deClusterCount (turns : ℕ) :
    (sampleBpb.deClusterCount 1 8 turns 20480).run .little (sampleRt 0xffffffff).io.disk =
      .ok (some (UInt64.ofNat 2)) := by
  have hvol := sample_stopped.volume
  have hnum : (sample 0xffffffff).num ((20480 : UInt64).toNat + 224) 32 = 1024 := by
    rw [show (20480 : UInt64).toNat + 224 = 32 * 647 + 0 by decide,
      sample_num 0 (by norm_num) (by norm_num), show sampleCell 0xffffffff 647 = 1024 from rfl]
    norm_num
  rw [(hvol.deIn ()).run_deClusterCount hvol.lines (hvol.regular ()),
    show (sampleRt 0xffffffff).io.disk = sample 0xffffffff from rfl, hnum]
  decide

/-- The file on the volume of eight clusters, scattered twice. -/
theorem scatter_keeps_files_sample :
    ∃ s, Returns (fun n => (Scatter.tool (fun k => Fin.ofNat _ (5 * k)) 80
          (sampleBpb.clusterChoices 1 8 fun _ _ => 0)).scan n
        ([(), ()].map fun _ => sampleBpb.fatDeRelocs 1 8 (fun _ => ⟨[], []⟩) 3 9 20480)
          ⟨sampleRt 0xffffffff, none, 0, 0, 0⟩) s ∧
      ∃ g chain', Stopped sampleBpb 1 10 8 (fun _ : Unit => 20480) (fun _ => 2) s.world g chain' ∧
        sampleBpb.Kept 1 8 (fun _ : Unit => 20480) (fun _ => 2) (sample 0xffffffff)
          (sampleFat 0xffffffff) (fun _ => sampleChain 0xffffffff) s.world.io.disk g chain' :=
  scatter_keeps_files _ 80 sample_roomy (by decide) (by decide) sample_stopped
    (fun _ => sample_deClusterCount 9) [(), ()]

/-- The file on this volume, moved toward the end. -/
theorem thrash_keeps_files_sample :
    ∃ s, Returns (fun n => (Thrash.tool TypeInfo.offset
          (sampleBpb.clusterChoices 1 8 fun _ _ => 0)).scan n
        ([(), ()].map fun _ => sampleBpb.fatDeRelocs 1 8 (fun _ => ⟨[], []⟩) 3 9 20480)
          ⟨sampleRt 0xffffffff, none, 0, 0, 0⟩) s ∧
      ∃ g chain', Stopped sampleBpb 1 10 8 (fun _ : Unit => 20480) (fun _ => 2) s.world g chain' ∧
        sampleBpb.Kept 1 8 (fun _ : Unit => 20480) (fun _ => 2) (sample 0xffffffff)
          (sampleFat 0xffffffff) (fun _ => sampleChain 0xffffffff) s.world.io.disk g chain' ∧
        ∀ (_ : Unit) p, 1 ≤ p → p ≤ 2 →
          sampleBpb.clusterAt 1 (sampleChain 0xffffffff p) ≤ sampleBpb.clusterAt 1 (chain' () p) :=
  thrash_keeps_files sample_roomy (by decide) (by decide) sample_stopped
    (fun _ => sample_deClusterCount 9) [(), ()]

end Fsl.Vfat.Bpb
