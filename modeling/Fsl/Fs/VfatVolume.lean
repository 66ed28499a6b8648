import Fsl.Fs.VfatReloc

/-!
# The files of a VFAT volume

A relocation exchanges one cluster of one regular file for a free one. It leaves a volume on which all
files can be followed as before and have the same data; nothing behind the FATs changes but the first
clusters in the entries of files and the clusters that are free or a file's. So does any number of
relocations, in whatever order.
-/

namespace Fsl.Vfat.Bpb

open Pread Linked

variable (b : Bpb) (fatSectors total cc : UInt64)

/-- A directory entry lies in the root directory, or in a cluster that is not in the pool. -/
inductive EntryAt (pool : ℕ → Prop) : UInt64 → Prop
  | root {de : UInt64} (k : ℕ) (hk : k < b.rootDeC.toNat)
      (hde : de.toNat = (b.rootDir fatSectors).toNat + k * 256) : EntryAt pool de
  | cluster {de : UInt64} (x k : ℕ) (hx : InRange b fatSectors cc x) (hout : ¬ pool x)
      (hk : (k + 1) * 256 ≤ b.clusterBits.toNat) (hde : de.toNat = b.clusterAt fatSectors x + k * 256) :
      EntryAt pool de

/-- A bit of `first_cluster_hi` or `first_cluster_lo`. -/
def InFirst (de : UInt64) (k : ℕ) : Prop :=
  de.toNat + 160 ≤ k ∧ k < de.toNat + 176 ∨ de.toNat + 208 ≤ k ∧ k < de.toNat + 224

variable {ι : Type} (de : ι → UInt64) (len : ι → ℕ)

/-- A volume with the table `f` in its FATs and with regular files, of which each has its entry, its
chain and so many clusters. -/
structure Volume (d : Disk) (f : ℕ → ℕ) (chain : ι → ℕ → ℕ) : Prop
    extends OnDisk b fatSectors total cc d where
  copies : b.FatIs fatSectors cc d f
  regular : ∀ i, (isDeFile (de i)).run .little d = .ok true
  start : ∀ i, (firstCluster (de i)).run .little d = .ok (UInt64.ofNat (chain i 1))
  pos : ∀ i, 1 ≤ len i
  range : ∀ i p, 1 ≤ p → p ≤ len i → b.InRange fatSectors cc (chain i p)
  family : Family f 0 chain len
  ended : ∀ i, b.isValidCnum cc (UInt64.ofNat (chain i (len i + 1))) = false
  place : ∀ i, b.EntryAt fatSectors cc (Pool f 0 chain len) (de i)
  entries : ∀ i k, i ≠ k → (de i).toNat + 256 ≤ (de k).toNat ∨ (de k).toNat + 256 ≤ (de i).toNat

/-- A bit that no relocation writes: of the reserved sectors, or behind the FATs, but not in the first
cluster of an entry of a file or in a cluster of the pool. -/
def Fixed (pool : ℕ → Prop) (k : ℕ) : Prop :=
  k < b.sectorBits * b.reservedSectorC.toNat ∨
    b.fatsEnd fatSectors ≤ k ∧ (∀ i, ¬ InFirst (de i) k) ∧
      ∀ x, b.InRange fatSectors cc x → pool x →
        k < b.clusterAt fatSectors x ∨ b.clusterAt fatSectors x + b.clusterBits.toNat ≤ k

/-- What relocations keep: the data of every file, the ends of the chains, which clusters are free or a
file's and how many are free, the entries of the other clusters in the table, and the bits that are
fixed. -/
structure Kept (d : Disk) (f : ℕ → ℕ) (chain : ι → ℕ → ℕ) (e : Disk) (g : ℕ → ℕ)
    (chain' : ι → ℕ → ℕ) : Prop where
  data : ∀ i p, 1 ≤ p → p ≤ len i → ∀ k, k < b.clusterBits.toNat →
    e.bit (b.clusterAt fatSectors (chain' i p) + k) = d.bit (b.clusterAt fatSectors (chain i p) + k)
  ends : ∀ i, chain' i (len i + 1) = chain i (len i + 1)
  pool : Pool g 0 chain' len = Pool f 0 chain len
  free : ((Finset.range (cc.toNat + 2)).filter fun x => g x = 0).card =
    ((Finset.range (cc.toNat + 2)).filter fun x => f x = 0).card
  table : ∀ x, ¬ Pool f 0 chain len x → g x = f x
  fixed : ∀ k, b.Fixed fatSectors cc de (Pool f 0 chain len) k → e.bit k = d.bit k

variable {b fatSectors total cc de len} {d e : Disk} {f g : ℕ → ℕ} {chain chain' : ι → ℕ → ℕ}

theorem Kept.refl : b.Kept fatSectors cc de len d f chain d f chain :=
  ⟨fun _ _ _ _ _ _ => rfl, fun _ => rfl, rfl, rfl, fun _ _ => rfl, fun _ _ => rfl⟩

theorem Kept.trans {e' : Disk} {g' : ℕ → ℕ} {chain'' : ι → ℕ → ℕ}
    (h : b.Kept fatSectors cc de len d f chain e g chain')
    (h' : b.Kept fatSectors cc de len e g chain' e' g' chain'') :
    b.Kept fatSectors cc de len d f chain e' g' chain'' := by
  refine ⟨fun i p hp hpm k hk => ?_, fun i => (h'.ends i).trans (h.ends i), h'.pool.trans h.pool,
    h'.free.trans h.free, fun x hx => ?_, fun k hk => ?_⟩
  · exact (h'.data i p hp hpm k hk).trans (h.data i p hp hpm k hk)
  · exact (h'.table x (h.pool ▸ hx)).trans (h.table x hx)
  · exact (h'.fixed k (h.pool ▸ hk)).trans (h.fixed k hk)

/-! ## Where relocation writes -/

variable {c : ℕ → ℕ} {m j x : ℕ} {ent : UInt64}

theorem OnDisk.allFats_bounds (h : OnDisk b fatSectors total cc d)
    (hx : b.InRange fatSectors cc x) (val : UInt64) :
    ∀ we ∈ b.allFats fatSectors cc (UInt64.ofNat x) val,
      b.sectorBits * b.reservedSectorC.toNat ≤ we.bitAddr.toNat ∧
        we.bitAddr.toNat + we.bits ≤ b.fatsEnd fatSectors := by
  intro we hwe
  obtain ⟨n, hn, rfl⟩ := List.mem_map.mp hwe
  have hnat := hx.toNat_ofNat h
  obtain ⟨haddr, hbits⟩ := h.writeVal_ent (hnat.symm ▸ hx) (List.mem_range.mp hn) val
  rw [haddr, hbits, hnat]
  exact entAt_bounds (List.mem_range.mp hn) hx.hasEnt

/-- Outside of the FATs these writes change nothing. -/
theorem OnDisk.bit_allFats_outside (h : OnDisk b fatSectors total cc d)
    (hx : b.InRange fatSectors cc x) (val : UInt64) {k : ℕ}
    (hk : k < b.sectorBits * b.reservedSectorC.toNat ∨ b.fatsEnd fatSectors ≤ k) :
    (e.applyAll (b.allFats fatSectors cc (UInt64.ofNat x) val)).bit k = e.bit k := by
  refine Disk.bit_applyAll_of_apart fun we hwe => ?_
  have hbounds := h.allFats_bounds hx val we hwe
  omega

theorem DeIn.bit_deWrites (hde : b.DeIn fatSectors d ent) (newCn : UInt64) {k : ℕ}
    (hk : ¬ InFirst ent k) : (e.applyAll (b.deWrites cc ent newCn)).bit k = e.bit k := by
  have hinside := hde.inside
  have hsize := d.size_lt
  have haddr : ∀ n : UInt64, n.toNat ≤ 208 → (ent + n).toNat = ent.toNat + n.toNat := fun n hn => by
    rw [UInt64.toNat_add]
    exact Nat.mod_eq_of_lt (by omega)
  have hlo : (ent + 208).toNat = ent.toNat + 208 := haddr 208 (by decide)
  have hhi : (ent + 160).toNat = ent.toNat + 160 := haddr 160 (by decide)
  unfold InFirst at hk
  refine Disk.bit_applyAll_of_apart fun we hwe => ?_
  rcases List.mem_pair.mp hwe with rfl | rfl
  · show k < (ent + 208).toNat ∨ (ent + 208).toNat + 16 ≤ k
    omega
  · show k < (ent + 160).toNat ∨ (ent + 160).toNat + 16 ≤ k
    omega

/-- A relocation writes to the FATs, to the first cluster in the entry and to the new cluster. -/
theorem RegularFile.bit_relocatedDisk (h : OnDisk b fatSectors total cc d)
    (hfile : b.RegularFile fatSectors cc d f ent c m) (hj : 1 ≤ j) (hm : j ≤ m)
    (hx : b.InRange fatSectors cc x) (hnot : c j ≠ x) {k : ℕ}
    (hk : k < b.sectorBits * b.reservedSectorC.toNat ∨ b.fatsEnd fatSectors ≤ k)
    (hfirst : ¬ InFirst ent k)
    (hout : k < b.clusterAt fatSectors x ∨ b.clusterAt fatSectors x + b.clusterBits.toNat ≤ k) :
    (b.relocatedDisk fatSectors cc d ent c j x).bit k = d.bit k := by
  have hsel := hfile.range j hj hm
  have hcopied : (b.copied fatSectors cc d (c j) x).bit k = d.bit k := by
    rw [copied, (copyCluster_spec (h.of_size (Disk.size_applyAll _ _)) hsel hx hnot).2.2 k hout,
      h.bit_allFats_outside hx _ hk]
  rw [relocatedDisk, h.bit_allFats_outside hsel _ hk, relinkWrites, Disk.applyAll_append,
    h.bit_allFats_outside hx _ hk, ← hcopied]
  split
  · exact (hfile.place.deIn h).bit_deWrites _ hfirst
  · exact h.bit_allFats_outside (hfile.range (j - 1) (by omega) (by omega)) _ hk

/-! ## One relocation -/

theorem EntryAt.deAt {ent : UInt64} (h : b.EntryAt fatSectors cc (Pool f 0 chain len) ent) (i : ι) :
    b.DeAt fatSectors cc f (chain i) (len i) ent := by
  cases h with
  | root k hk hde => exact .root k hk hde
  | cluster x k hx hout hk hde =>
    exact .cluster x k hx (fun hfree => hout (Or.inl hfree))
      (fun p hp hpm heq => hout (Or.inr ⟨i, p, hp, hpm, heq⟩)) hk hde

variable {i : ι}

theorem Volume.regularFile (h : Volume b fatSectors total cc de len d f chain) (i : ι) :
    b.RegularFile fatSectors cc d f (de i) (chain i) (len i) where
  copies := h.copies
  place := (h.place i).deAt i
  regular := h.regular i
  start := h.start i
  pos := h.pos i
  range := h.range i
  list := h.family.list i
  ended := h.ended i

theorem Volume.deIn (h : Volume b fatSectors total cc de len d f chain) (i : ι) :
    b.DeIn fatSectors d (de i) := (h.regularFile i).place.deIn h.toOnDisk

/-- The entries are apart from the clusters of the pool. -/
theorem Volume.entry_apart (h : Volume b fatSectors total cc de len d f chain) (i : ι)
    (hx : b.InRange fatSectors cc x) (hpool : Pool f 0 chain len x) :
    b.clusterAt fatSectors x + b.clusterBits.toNat ≤ (de i).toNat ∨
      (de i).toNat + 256 ≤ b.clusterAt fatSectors x := by
  rcases hpool with hfree | ⟨k, p, hp, hpm, heq⟩
  · exact ((h.place i).deAt i).apart h.toOnDisk hx (Or.inl hfree)
  · exact ((h.place i).deAt k).apart h.toOnDisk hx (Or.inr ⟨p, hp, hpm, heq⟩)

/-- What an entry says beside the first cluster depends on its other bits. -/
theorem DeIn.isDeFile_congr {ent : UInt64} (hde : b.DeIn fatSectors d ent) (hlines : 32 ∣ d.size)
    (hsize : e.size = d.size)
    (hbits : ∀ k, ent.toNat ≤ k → k < ent.toNat + 256 → ¬ InFirst ent k → e.bit k = d.bit k) :
    (isDeFile ent).run .little e = .ok true ↔ (isDeFile ent).run .little d = .ok true := by
  have hde' : b.DeIn fatSectors e ent := ⟨hde.aligned, hde.behind, hsize ▸ hde.inside⟩
  have hnum : ∀ {off n}, off + n ≤ 256 → 224 ≤ off ∨ off + n ≤ 160 →
      e.num (ent.toNat + off) n = d.num (ent.toNat + off) n := fun hoff hfirst =>
    Disk.num_congr fun k hk hk' => hbits k (by omega) (by omega) (by unfold InFirst; omega)
  rw [hde.run_isDeFile_iff hlines, hde'.run_isDeFile_iff (hsize ▸ hlines),
    hnum (by norm_num) (by norm_num), hnum (by norm_num) (by norm_num)]

/-- The bits of the volume after a relocation. -/
theorem Volume.bit_relocatedDisk (h : Volume b fatSectors total cc de len d f chain) (hj : 1 ≤ j)
    (hm : j ≤ len i) (hx : b.InRange fatSectors cc x) (hfree : f x = 0) {k : ℕ}
    (hk : k < b.sectorBits * b.reservedSectorC.toNat ∨ b.fatsEnd fatSectors ≤ k)
    (hfirst : ¬ InFirst (de i) k)
    (hout : k < b.clusterAt fatSectors x ∨ b.clusterAt fatSectors x + b.clusterBits.toNat ≤ k) :
    (b.relocatedDisk fatSectors cc d (de i) (chain i) j x).bit k = d.bit k :=
  (h.regularFile i).bit_relocatedDisk h.toOnDisk hj hm hx (h.family.ne_free hfree i hj hm) hk hfirst
    hout

section Relocate

variable [DecidableEq ι]

/-- The data of every file is where the file has it then. -/
theorem Volume.data_relocatedDisk (h : Volume b fatSectors total cc de len d f chain) (hj : 1 ≤ j)
    (hm : j ≤ len i) (hx : b.InRange fatSectors cc x) (hfree : f x = 0) (l : ι) {p k : ℕ}
    (hp : 1 ≤ p) (hpm : p ≤ len l) (hk : k < b.clusterBits.toNat) :
    (b.relocatedDisk fatSectors cc d (de i) (chain i) j x).bit
        (b.clusterAt fatSectors (Family.exchanged chain i j x l p) + k) =
      d.bit (b.clusterAt fatSectors (chain l p) + k) := by
  by_cases hl : l = i
  · subst hl
    rw [Family.exchanged_self]
    exact ((h.regularFile l).relocated h.toOnDisk hj hm hx hfree fun q hq hqm =>
      h.family.ne_free hfree l hq hqm).data p hp hpm k hk
  · have hmem : Pool f 0 chain len (chain l p) := Or.inr ⟨l, p, hp, hpm, rfl⟩
    have hrange := h.range l p hp hpm
    have hbounds := (hrange.clusterAt_bounds h.toOnDisk).1
    have hend := h.fatsEnd_le
    have hentry := h.entry_apart i hrange hmem
    have hclusters : Apart b.clusterBits.toNat (b.clusterAt fatSectors (chain l p))
        (b.clusterAt fatSectors x) :=
      hrange.apart h.toOnDisk hx (h.family.ne_free hfree l hp hpm)
    unfold Apart at hclusters
    rw [Family.exchanged_of_ne hl]
    exact h.bit_relocatedDisk hj hm hx hfree (Or.inr (by omega)) (by unfold InFirst; omega) (by omega)

/-- Relocating a cluster of one file leaves a volume. -/
theorem Volume.relocatedDisk (h : Volume b fatSectors total cc de len d f chain) (hj : 1 ≤ j)
    (hm : j ≤ len i) (hx : b.InRange fatSectors cc x) (hfree : f x = 0) :
    Volume b fatSectors total cc de len (b.relocatedDisk fatSectors cc d (de i) (chain i) j x)
      (exchange f (chain i) j x 0) (Family.exchanged chain i j x) := by
  have hnot : ∀ l p, 1 ≤ p → p ≤ len l → chain l p ≠ x := fun l p hp hpm =>
    h.family.ne_free hfree l hp hpm
  have hpool : Pool (exchange f (chain i) j x 0) 0 (Family.exchanged chain i j x) len =
      Pool f 0 chain len := by
    funext y
    exact propext (h.family.pool_exchange hj hm hfree y)
  have hzero : x ≠ 0 := by
    have htwo := hx.two_le
    omega
  obtain ⟨hdisk, hfat, hstart, -⟩ := (h.regularFile i).relocatedDisk_spec h.toOnDisk hj hm hx hfree
    fun p hp hpj => hnot i p hp (by omega)
  have hsize : (b.relocatedDisk fatSectors cc d (de i) (chain i) j x).size = d.size := by
    rw [Bpb.relocatedDisk, Disk.size_applyAll, Disk.size_applyAll]
    exact (copied_spec h.toOnDisk h.copies (h.range i j hj hm) hx (hnot i j hj hm)).1
  -- the bits of the entries, but for the first cluster of file `i`
  have hentry : ∀ l k, (de l).toNat ≤ k → k < (de l).toNat + 256 → ¬ InFirst (de i) k →
      (b.relocatedDisk fatSectors cc d (de i) (chain i) j x).bit k = d.bit k := by
    intro l k hk hk' hfirst
    have hbehind := (h.deIn l).behind
    have hapart := h.entry_apart l hx (Or.inl hfree)
    exact h.bit_relocatedDisk hj hm hx hfree (Or.inr (by omega)) hfirst (by omega)
  have hother : ∀ l, l ≠ i → ∀ k, (de l).toNat ≤ k → k < (de l).toNat + 256 → ¬ InFirst (de i) k := by
    intro l hl k hk hk'
    have hentries := h.entries l i hl
    unfold InFirst
    omega
  refine
    { toOnDisk := hdisk
      copies := hfat
      regular := fun l => ((h.deIn l).isDeFile_congr h.lines hsize ?_).mpr (h.regular l)
      start := fun l => ?_
      pos := h.pos
      range := fun l p hp hpm => ?_
      family := h.family.exchange hj hm hfree hzero
      ended := fun l => ?_
      place := fun l => hpool.symm ▸ h.place l
      entries := h.entries }
  · intro k hk hk' hfirst
    by_cases hl : l = i
    · exact hentry l k hk hk' (hl ▸ hfirst)
    · exact hentry l k hk hk' (hother l hl k hk hk')
  · by_cases hl : l = i
    · subst hl
      rw [Family.exchanged_self]
      exact hstart
    · rw [Family.exchanged_of_ne hl, ← h.start l]
      exact ((h.deIn l).congr h.lines hsize fun k hk hk' =>
        hentry l k hk hk' (hother l hl k hk hk')).1
  · rcases Family.exchanged_cases chain i j x l p with ⟨-, -, hval⟩ | ⟨-, hval⟩
    · exact hval.symm ▸ hx
    · exact hval.symm ▸ h.range l p hp hpm
  · rcases Family.exchanged_cases chain i j x l (len l + 1) with ⟨rfl, hlast, -⟩ | ⟨-, hval⟩
    · omega
    · rw [hval]
      exact h.ended l

theorem Volume.kept_relocatedDisk (h : Volume b fatSectors total cc de len d f chain) (hj : 1 ≤ j)
    (hm : j ≤ len i) (hx : b.InRange fatSectors cc x) (hfree : f x = 0) :
    b.Kept fatSectors cc de len d f chain (b.relocatedDisk fatSectors cc d (de i) (chain i) j x)
      (exchange f (chain i) j x 0) (Family.exchanged chain i j x) := by
  have hzero : x ≠ 0 := by
    have htwo := hx.two_le
    omega
  refine ⟨fun l p hp hpm k hk => h.data_relocatedDisk hj hm hx hfree l hp hpm hk, fun l => ?_, ?_, ?_,
    fun y hy => Family.exchange_of_not_pool hj hm hfree hy, fun k hk => ?_⟩
  · rcases Family.exchanged_cases chain i j x l (len l + 1) with ⟨rfl, hlast, -⟩ | ⟨-, hval⟩
    · omega
    · exact hval
  · funext y
    exact propext (h.family.pool_exchange hj hm hfree y)
  · exact h.family.card_free_exchange hj hm hfree hzero
      (Finset.mem_range.mpr (h.range i j hj hm).lt) (Finset.mem_range.mpr hx.lt)
  · rcases hk with hk | ⟨hk, hfirst, hout⟩
    · have hbehind := (h.deIn i).behind
      have hbounds := (hx.clusterAt_bounds h.toOnDisk).1
      have hfats := entAt_bounds h.fats hx.hasEnt
      have hend := h.fatsEnd_le
      exact h.bit_relocatedDisk hj hm hx hfree (Or.inl hk) (by unfold InFirst; omega) (by omega)
    · exact h.bit_relocatedDisk hj hm hx hfree (Or.inr hk) (hfirst i) (hout x hx (Or.inl hfree))

end Relocate

/-! ## Runs -/

/-- `get_nth` and `wpkt_relocate` for the cluster `sel` of the entry `ent`. -/
def relocateNth (b : Bpb) (fatSectors cc : UInt64) (fix : Fix → Wpkt Pkt) (depth : ℕ) (ent : UInt64)
    (sel choice : UInt32) : RtM (Option Unit) := do
  let cn ← onIo ((b.getNthCnum fatSectors cc ent sel.toUInt64).exec .little)
  wpktRelocate .little (b.pkts fatSectors cc fix) depth (b.reloc fatSectors cc ent)
    (b.clusterInfo fatSectors cn) sel choice

/-- The logs have room for the packets, and the FATs for the entries of all clusters. -/
structure Roomy (b : Bpb) (fatSectors cc : UInt64) (depth : ℕ) : Prop where
  fats : b.fatCount.toNat ≤ 32
  depth : b.fatCount.toNat + 2 ≤ depth
  ents : b.HasEnt fatSectors cc (cc.toNat + 1)

theorem Roomy.inRange {depth : ℕ} (h : b.Roomy fatSectors cc depth) (hlo : 2 ≤ x)
    (hlt : x < cc.toNat + 2) : b.InRange fatSectors cc x :=
  ⟨hlo, hlt, (Nat.mul_le_mul_right _ (show x + 1 ≤ cc.toNat + 1 + 1 by omega)).trans h.ents⟩

section Run

variable [DecidableEq ι] {fix : Fix → Wpkt Pkt} {depth : ℕ} {rt rt' : Rt}

/-- The runtime between two relocations, with a volume for its file. -/
structure Stopped (b : Bpb) (fatSectors total cc : UInt64) (de : ι → UInt64) (len : ι → ℕ)
    (rt : Rt) (f : ℕ → ℕ) (chain : ι → ℕ → ℕ) : Prop where
  coherent : rt.io.Coherent
  wlog : rt.wlog = none
  volume : Volume b fatSectors total cc de len rt.io.disk f chain

omit [DecidableEq ι] in
theorem Volume.run_getNthCnum (h : Volume b fatSectors total cc de len d f chain) (i : ι) {p : UInt64}
    (hp : 1 ≤ p.toNat) (hpm : p.toNat ≤ len i) :
    (b.getNthCnum fatSectors cc (de i) p).run .little d = .ok (UInt64.ofNat (chain i p.toNat)) :=
  Bpb.run_getNthCnum h.toOnDisk h.copies (h.start i) hp
    (fun k hk hlt => h.range i k hk (by omega)) fun k hk hlt => (h.family.list i).link k hk (by omega)

/-- A cluster of a file can be relocated to every cluster that is available. -/
theorem Stopped.wpktRelocate (hroom : b.Roomy fatSectors cc depth)
    (h : Stopped b fatSectors total cc de len rt f chain) (fix : Fix → Wpkt Pkt) (i : ι)
    {sel choice : UInt32} (hj : 1 ≤ sel.toNat) (hm : sel.toNat ≤ len i)
    (hx : b.InRange fatSectors cc choice.toNat) (hfree : f choice.toNat = 0) :
    ∃ rt', wpktRelocate .little (b.pkts fatSectors cc fix) depth (b.reloc fatSectors cc (de i))
        (b.clusterInfo fatSectors (UInt64.ofNat (chain i sel.toNat))) sel choice rt =
          .ok (some (), rt') ∧
      Stopped b fatSectors total cc de len rt' (exchange f (chain i) sel.toNat choice.toNat 0)
        (Family.exchanged chain i sel.toNat choice.toNat) ∧
      b.Kept fatSectors cc de len rt.io.disk f chain rt'.io.disk
        (exchange f (chain i) sel.toNat choice.toNat 0)
        (Family.exchanged chain i sel.toNat choice.toNat) := by
  obtain ⟨io, wlog⟩ := rt
  obtain ⟨hc, hlog, hvol⟩ := h
  change wlog = none at hlog
  subst hlog
  have hnot : ∀ p, 1 ≤ p → p ≤ sel.toNat → chain i p ≠ choice.toNat := fun p hp hpj =>
    hvol.family.ne_free hfree i hp (by omega)
  have hfats := hroom.fats
  have hrel := (hvol.regularFile i).relocation fix sel choice hvol.toOnDisk hj hm hx hfree hnot
    (by split <;> omega) hroom.depth
  obtain ⟨io', hrun, hover⟩ := hrel.run ⟨rfl, hc⟩
  have hdisk : io'.disk = b.relocatedDisk fatSectors cc io.disk (de i) (chain i) sel.toNat
      choice.toNat := hover.1
  refine ⟨⟨io', none⟩, hrun, ⟨hover.2, rfl, ?_⟩, ?_⟩
  · rw [show (⟨io', none⟩ : Rt).io.disk = _ from hdisk]
    exact hvol.relocatedDisk hj hm hx hfree
  · rw [show (⟨io', none⟩ : Rt).io.disk = _ from hdisk]
    exact hvol.kept_relocatedDisk hj hm hx hfree

omit [DecidableEq ι] in
theorem Stopped.isClusterAvail_iff (h : Stopped b fatSectors total cc de len rt f chain)
    {c : UInt64} (hx : b.InRange fatSectors cc c.toNat) :
    (b.isClusterAvail fatSectors cc c).run .little rt.io.disk = .ok true ↔ f c.toNat = 0 := by
  rw [← Bpb.isClusterAvail_iff h.volume.toOnDisk h.volume.copies hx, UInt64.ofNat_toNat]

theorem Stopped.relocateNth (hroom : b.Roomy fatSectors cc depth)
    (h : Stopped b fatSectors total cc de len rt f chain) (fix : Fix → Wpkt Pkt) (i : ι)
    {sel choice : UInt32} (hj : 1 ≤ sel.toNat) (hm : sel.toNat ≤ len i)
    (hx : b.InRange fatSectors cc choice.toNat)
    (havail : (b.isClusterAvail fatSectors cc choice.toUInt64).run .little rt.io.disk = .ok true) :
    ∃ rt', b.relocateNth fatSectors cc fix depth (de i) sel choice rt = .ok (some (), rt') ∧
      Stopped b fatSectors total cc de len rt' (exchange f (chain i) sel.toNat choice.toNat 0)
        (Family.exchanged chain i sel.toNat choice.toNat) ∧
      b.Kept fatSectors cc de len rt.io.disk f chain rt'.io.disk
        (exchange f (chain i) sel.toNat choice.toNat 0)
        (Family.exchanged chain i sel.toNat choice.toNat) := by
  have hfree : f choice.toNat = 0 :=
    (h.isClusterAvail_iff (show b.InRange fatSectors cc choice.toUInt64.toNat from hx)).mp havail
  obtain ⟨io, wlog⟩ := rt
  obtain ⟨hc, hlog, hvol⟩ := h
  change wlog = none at hlog
  subst hlog
  have hread : Refines (Over io.disk) Eq ((b.getNthCnum fatSectors cc (de i) sel.toUInt64).exec .little)
      ((b.getNthCnum fatSectors cc (de i) sel.toUInt64).run .little io.disk) := Prog.exec_refines _
  rw [hvol.run_getNthCnum i (p := sel.toUInt64) hj hm] at hread
  obtain ⟨_, io₀, hget, rfl, hdisk, hc₀⟩ := hread io ⟨rfl, hc⟩
  change io₀.disk = io.disk at hdisk
  have hstopped : Stopped b fatSectors total cc de len (⟨io₀, none⟩ : Rt) f chain :=
    ⟨hc₀, rfl, by rw [show (⟨io₀, none⟩ : Rt).io.disk = _ from hdisk]; exact hvol⟩
  obtain ⟨rt', hrun, hstopped', hkept⟩ := hstopped.wpktRelocate hroom fix i hj hm hx hfree
  rw [show (⟨io₀, none⟩ : Rt).io.disk = _ from hdisk] at hkept
  refine ⟨rt', ?_, hstopped', hkept⟩
  rw [Bpb.relocateNth, run_bind_ok (onIo_ok hget)]
  exact hrun

/-- Relocations one after the other, each of some cluster of some file to a cluster that is available
then. -/
inductive Relocations (b : Bpb) (fatSectors cc : UInt64) (fix : Fix → Wpkt Pkt) (depth : ℕ)
    (de : ι → UInt64) (len : ι → ℕ) (rt : Rt) : Rt → Prop
  | refl : Relocations b fatSectors cc fix depth de len rt rt
  | step {rt₁ rt₂ : Rt} (i : ι) (sel choice : UInt32) :
      Relocations b fatSectors cc fix depth de len rt rt₁ → 1 ≤ sel.toNat → sel.toNat ≤ len i →
      2 ≤ choice.toNat → choice.toNat < cc.toNat + 2 →
      (b.isClusterAvail fatSectors cc choice.toUInt64).run .little rt₁.io.disk = .ok true →
      b.relocateNth fatSectors cc fix depth (de i) sel choice rt₁ = .ok (some (), rt₂) →
      Relocations b fatSectors cc fix depth de len rt rt₂

theorem Relocations.stopped (hroom : b.Roomy fatSectors cc depth)
    (h : Stopped b fatSectors total cc de len rt f chain)
    (hrun : Relocations b fatSectors cc fix depth de len rt rt') :
    ∃ g chain', Stopped b fatSectors total cc de len rt' g chain' ∧
      b.Kept fatSectors cc de len rt.io.disk f chain rt'.io.disk g chain' := by
  induction hrun with
  | refl => exact ⟨f, chain, h, .refl⟩
  | step i sel choice _ hj hm hlo hlt havail hcall ih =>
    obtain ⟨g, chain', hstopped, hkept⟩ := ih
    obtain ⟨rt₂, hcall', hstopped', hkept'⟩ := hstopped.relocateNth hroom fix i hj hm
      (hroom.inRange hlo hlt) havail
    obtain rfl : _ = rt₂ := congrArg Prod.snd (Except.ok.inj (hcall.symm.trans hcall'))
    exact ⟨_, _, hstopped', hkept.trans hkept'⟩

/-- In every run of relocations each file keeps its data and can be followed to it, no cluster gets lost,
nothing else changes, and every further relocation goes through. -/
theorem relocations_keep_files (hroom : b.Roomy fatSectors cc depth)
    (h : Stopped b fatSectors total cc de len rt f chain)
    (hrun : Relocations b fatSectors cc fix depth de len rt rt') :
    ∃ g chain', Stopped b fatSectors total cc de len rt' g chain' ∧
      b.Kept fatSectors cc de len rt.io.disk f chain rt'.io.disk g chain' ∧
      (∀ i (p : UInt64), 1 ≤ p.toNat → p.toNat ≤ len i →
        (b.getNthCnum fatSectors cc (de i) p).run .little rt'.io.disk =
          .ok (UInt64.ofNat (chain' i p.toNat))) ∧
      ∀ i (sel choice : UInt32), 1 ≤ sel.toNat → sel.toNat ≤ len i → 2 ≤ choice.toNat →
        choice.toNat < cc.toNat + 2 →
        (b.isClusterAvail fatSectors cc choice.toUInt64).run .little rt'.io.disk = .ok true →
        ∃ rt'', b.relocateNth fatSectors cc fix depth (de i) sel choice rt' = .ok (some (), rt'') := by
  obtain ⟨g, chain', hstopped, hkept⟩ := hrun.stopped hroom h
  refine ⟨g, chain', hstopped, hkept, fun i p hp hpm => hstopped.volume.run_getNthCnum i hp hpm,
    fun i sel choice hj hm hlo hlt havail => ?_⟩
  obtain ⟨rt'', hcall, -⟩ := hstopped.relocateNth hroom fix i hj hm (hroom.inRange hlo hlt) havail
  exact ⟨rt'', hcall⟩

end Run

/-! ## A volume with one file -/

theorem sample_roomy : sampleBpb.Roomy 1 8 3 :=
  ⟨by decide, by decide, show (8 + 1 + 1) * 32 ≤ 4096 * 1 by norm_num⟩

/-- The volume with the file of two clusters. -/
theorem sample_stopped : Stopped sampleBpb 1 10 8 (fun _ : Unit => 20480) (fun _ => 2)
    (sampleRt 0xffffffff) (sampleFat 0xffffffff) fun _ => sampleChain 0xffffffff := by
  have hfile : sampleBpb.RegularFile 1 8 (sample 0xffffffff) (sampleFat 0xffffffff) 20480
      (sampleChain 0xffffffff) 2 := sample_file (by norm_num) (by decide)
  have hchain : ∀ p, 1 ≤ p → p ≤ 2 → p = 1 ∨ p = 2 := by omega
  refine ⟨(reachable_init _ _).coherent, rfl,
    { toOnDisk := sample_onDisk _
      copies := hfile.copies
      regular := fun _ => hfile.regular
      start := fun _ => hfile.start
      pos := fun _ => hfile.pos
      range := fun _ => hfile.range
      family := ⟨fun _ => hfile.list, fun i k hne => absurd rfl hne, fun _ p hp hpm => ?_⟩
      ended := fun _ => hfile.ended
      place := fun _ => .cluster 5 0 (sample_inRange (by norm_num) (by norm_num)) ?_ (by decide)
        sample_clusterAt.symm
      entries := fun i k hne => absurd rfl hne }⟩
  · rcases hchain p hp hpm with rfl | rfl
    · exact show 3 ≠ 0 by norm_num
    · exact show 0xffffffff ≠ 0 by norm_num
  · rintro (hfree | ⟨_, p, hp, hpm, heq⟩)
    · exact absurd hfree (show 0xffffffff ≠ 0 by norm_num)
    · rcases hchain p hp hpm with rfl | rfl
      · exact absurd heq (show 2 ≠ 5 by norm_num)
      · exact absurd heq (show 3 ≠ 5 by norm_num)

/-- Its second cluster goes to cluster 4, and the file is as before. -/
theorem relocations_keep_files_sample :
    ∃ rt', sampleBpb.relocateNth 1 8 (fun _ => ⟨[], []⟩) 3 20480 2 4 (sampleRt 0xffffffff) =
        .ok (some (), rt') ∧
      ∃ g chain', Stopped sampleBpb 1 10 8 (fun _ : Unit => 20480) (fun _ => 2) rt' g chain' ∧
        sampleBpb.Kept 1 8 (fun _ : Unit => 20480) (fun _ => 2) (sample 0xffffffff)
          (sampleFat 0xffffffff) (fun _ => sampleChain 0xffffffff) rt'.io.disk g chain' := by
  have havail : (sampleBpb.isClusterAvail 1 8 (4 : UInt32).toUInt64).run .little
      (sampleRt 0xffffffff).io.disk = .ok true :=
    sample_isClusterAvail (x := 4) (by norm_num) (by decide) (by norm_num) (by norm_num) rfl
  obtain ⟨rt', hcall, -⟩ := sample_stopped.relocateNth sample_roomy (fun _ => ⟨[], []⟩) ()
    (show 1 ≤ (2 : UInt32).toNat by decide) (by decide) (sample_inRange (by decide) (by decide)) havail
  obtain ⟨g, chain', hstopped, hkept, -⟩ := relocations_keep_files sample_roomy sample_stopped
    (Relocations.step () 2 4 .refl (by decide) (by decide) (by decide) (by decide) havail hcall)
  exact ⟨rt', hcall, g, chain', hstopped, hkept⟩

end Fsl.Vfat.Bpb
