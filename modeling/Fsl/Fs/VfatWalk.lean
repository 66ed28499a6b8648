import Fsl.Fs.VfatChain
import Fsl.Lib.Orbit
import Fsl.Runtime.Prog

/-!
# Walks along a FAT

`fat_chain_count` goes on for as long as it reads valid cluster numbers. `get_nth_de` finds the slots
of a directory through `fat_chain_nth_cnum`, which counts the clusters of a chain from 1.
-/

namespace Fsl.Vfat

namespace Image

variable (img : Image)

/-! ## Counting a chain -/

/-- `fat_next`, as it is compiled: an index behind the array reads what `behind` says of the disk
there, and fails behind the end of the disk. -/
def fatRead (behind : UInt64 → Option UInt64) (cn : UInt64) : Option UInt64 :=
  if cn < img.entCount then some (img.ent cn) else behind cn

/-- `fat_chain_count`, after some turns of its loop. -/
def chainCount (behind : UInt64 → Option UInt64) (cur count : UInt64) : ℕ → Count
  | 0 => .running cur count
  | turns + 1 =>
    if img.isValidCnum cur then
      match img.fatRead behind cur with
      | some next => chainCount behind next (count + 1) turns
      | none => .outside
    else .done count

/-- `fat_chain_count` ends. -/
def Ends (behind : UInt64 → Option UInt64) (start : UInt64) : Prop :=
  ∃ turns, ∀ cur count, img.chainCount behind start 0 turns ≠ .running cur count

/-- The number that a valid cluster number leads to. -/
def link (behind : UInt64 → Option UInt64) (cn : UInt64) : Option UInt64 :=
  if img.isValidCnum cn then img.fatRead behind cn else none

variable {img} {behind : UInt64 → Option UInt64}

/-- The loop is running as long as the walk along the links goes on. -/
theorem chainCount_running_iff (cur count : UInt64) (turns : ℕ) :
    (∃ cur' count', img.chainCount behind cur count turns = .running cur' count') ↔
      Orbit.place (img.link behind) cur turns ≠ none := by
  induction turns generalizing cur count with
  | zero => exact iff_of_true ⟨cur, count, rfl⟩ (Option.some_ne_none cur)
  | succ turns ih =>
    rw [Orbit.place_succ, chainCount, link]
    by_cases hvalid : img.isValidCnum cur = true
    · rw [if_pos hvalid, if_pos hvalid]
      cases hread : img.fatRead behind cur with
      | none => exact iff_of_false (fun ⟨_, _, h⟩ => nomatch h) fun h => h rfl
      | some next => exact ih next (count + 1)
    · rw [if_neg hvalid, if_neg hvalid]
      exact iff_of_false (fun ⟨_, _, h⟩ => nomatch h) fun h => h rfl

/-- `fat_chain_count` ends exactly if the links from its start do not lead to a cluster number a second
time. -/
theorem ends_iff (img : Image) (behind : UInt64 → Option UInt64) (start : UInt64) :
    img.Ends behind start ↔ ¬ Orbit.Returns (img.link behind) start := by
  rw [← Orbit.halts_iff]
  refine exists_congr fun turns => ?_
  rw [← not_ne_iff, ← chainCount_running_iff start 0 turns]
  exact ⟨fun h ⟨cur, count, heq⟩ => h cur count heq, fun h cur count heq => h ⟨cur, count, heq⟩⟩

/-- A FAT16 image in which cluster 5 is linked to itself. -/
def sampleLoop : Image where
  bpb := sampleFat16.bpb
  clusterCount := sampleFat16.clusterCount
  count_eq := sampleFat16.count_eq
  passes := sampleFat16.passes
  ent := fun cn => if cn = 5 then 5 else 0xffff
  ent_lt := by
    intro cn
    split <;> decide

/-- The count of this chain does not end. -/
theorem not_ends_sampleLoop : sampleLoop.bpb.asserts = .ok true ∧ ¬ sampleLoop.Ends (fun _ => none) 5 := by
  refine ⟨rfl, fun hends => ?_⟩
  obtain ⟨turns, hturns⟩ := hends
  have hplace : ∀ n, Orbit.place (sampleLoop.link fun _ => none) 5 n = some 5 := by
    intro n
    induction n with
    | zero => rfl
    | succ n ih =>
      rw [Orbit.place, ih]
      decide
  have hgoes : Orbit.place (sampleLoop.link fun _ => none) 5 turns ≠ none := by
    rw [hplace]
    exact Option.some_ne_none _
  obtain ⟨cur, count, heq⟩ := (chainCount_running_iff 5 0 turns).mpr hgoes
  exact hturns cur count heq

end Image

/-! ## The slots of a directory -/

/-- The fields of `fat_de` that lead to its clusters. -/
structure FatDe where
  attr : UInt8
  firstClusterHi : UInt16
  firstClusterLo : UInt16
  fileSize : UInt32
  deriving DecidableEq, Repr

/-- `first_cluster_lo + (first_cluster_hi << 16)`. -/
def FatDe.first (de : FatDe) : UInt64 :=
  de.firstClusterLo.toUInt64 + (de.firstClusterHi.toUInt64 <<< 16)

namespace Image

variable (img : Image)

/-- `bytes_per_cluster` -/
def bytesPerCluster : UInt64 := img.bpb.sectorsPerCluster.toUInt64 * img.bpb.bytesPerSector.toUInt64

/-- `de_per_cluster`; `sizeof_bytes(fat_de)` is 32. -/
def dePerCluster : UInt64 := img.bytesPerCluster / 32

/-- `de_cluster_count`, with the number of turns that `fat_chain_count` has; none if it is not done
after these turns. -/
def deClusterCount (de : FatDe) (turns : ℕ) : Option UInt64 :=
  if de.fileSize = 0xffffffff then some 0
  else if 0x10 &&& de.attr ≠ 0 then
    match img.fatChainCount de.first 0 turns with
    | .done count => some count
    | _ => none
  else some ((de.fileSize.toUInt64 + (img.bytesPerCluster - 1)) / img.bytesPerCluster)

/-- `de_children_count` -/
def deChildrenCount (de : FatDe) (turns : ℕ) : Option UInt64 :=
  (img.deClusterCount de turns).map (· * img.dePerCluster)

/-- `get_nth_cnum`; `fat_chain_nth_cnum` takes `i - 1` turns at most. -/
def getNthCnum (de : FatDe) (i : UInt64) : Option UInt64 := img.fatChainNthCnum de.first (i.toNat - 1)

/-- `get_nth_de`: the index in `disk.clusters` and the one in `de_clus.de`. -/
def getNthDe (de : FatDe) (n : UInt64) : Option (UInt64 × UInt64) :=
  let byteOff := n * 32
  let deClusOff := (byteOff % img.bytesPerCluster) / 32
  let clusN := byteOff / img.bytesPerCluster
  (img.getNthCnum de clusN).map fun cn => (cn - 2, deClusOff)

/-- The clusters of the chain from a number: the last entry is no cluster number. -/
inductive ChainFrom : UInt64 → List UInt64 → Prop
  | nil {cn : UInt64} (h : img.isValidCnum cn = false) : ChainFrom cn []
  | cons {cn : UInt64} {cs : List UInt64} (h : img.isValidCnum cn = true) (hin : cn < img.entCount)
      (hcs : ChainFrom (img.ent cn) cs) : ChainFrom cn (cn :: cs)

/-- The slots of the clusters of a chain, in order. -/
def slots (cs : List UInt64) : List (UInt64 × UInt64) :=
  cs.flatMap fun cn => (List.range img.dePerCluster.toNat).map fun k => (cn - 2, UInt64.ofNat k)

/-- `get_nth_de` goes through the slots of a chain in order. -/
def Enumerates (de : FatDe) (cs : List UInt64) : Prop :=
  ∃ turns count, img.deChildrenCount de turns = some count ∧
    (List.range count.toNat).map (fun n => img.getNthDe de (UInt64.ofNat n)) = (img.slots cs).map some

/-- What `de_cluster_count` gives where the chain has `len` clusters. -/
def clustersOf (de : FatDe) (len : ℕ) : ℕ :=
  if de.fileSize = 0xffffffff then 0
  else if 0x10 &&& de.attr ≠ 0 then len
  else (de.fileSize.toNat + (img.bytesPerCluster.toNat - 1)) / img.bytesPerCluster.toNat

variable {img}

theorem udiv_ok {a b c : UInt64} (h : udiv a b = .ok c) : b ≠ 0 := by
  rintro rfl
  cases h

/-- The size of a cluster: a multiple of that of a sector, which is one of 512 bytes. -/
theorem exists_bytesPerCluster (img : Image) :
    ∃ p, 16 ≤ p ∧ p < 2 ^ 20 ∧ img.bytesPerCluster.toNat = p * 32 ∧ img.dePerCluster.toNat = p := by
  have hcount := img.count_eq
  unfold Bpb.getClusterCount at hcount
  obtain ⟨_, -, hcount⟩ := bind_eq_ok hcount
  obtain ⟨_, -, hcount⟩ := bind_eq_ok hcount
  obtain ⟨_, hroot, hcount⟩ := bind_eq_ok hcount
  obtain ⟨_, hclus, -⟩ := bind_eq_ok hcount
  have hbps : img.bpb.bytesPerSector.toUInt64 ≠ 0 := udiv_ok hroot
  have hspc : img.bpb.sectorsPerCluster.toUInt64 ≠ 0 := udiv_ok hclus
  have hpasses := img.passes
  unfold Bpb.asserts at hpasses
  obtain ⟨_, -, hpasses⟩ := bind_eq_ok hpasses
  obtain ⟨_, -, hpasses⟩ := bind_eq_ok hpasses
  obtain ⟨_, -, hpasses⟩ := bind_eq_ok hpasses
  have hand := Except.ok.inj hpasses
  simp only [Bool.and_eq_true, beq_iff_eq] at hand
  have hmask : img.bpb.bytesPerSector.toUInt64 &&& 511 = 0 := hand.1.1
  -- the mask takes the remainder by 512
  have hmod : img.bpb.bytesPerSector.toNat % 512 = 0 := by
    have hnat := congrArg UInt64.toNat hmask
    rw [UInt64.toNat_and] at hnat
    exact (Nat.and_two_pow_sub_one_eq_mod _ 9).symm.trans hnat
  have hb : img.bpb.bytesPerSector.toUInt64.toNat = img.bpb.bytesPerSector.toNat := rfl
  have hs : img.bpb.sectorsPerCluster.toUInt64.toNat = img.bpb.sectorsPerCluster.toNat := rfl
  have hblt := img.bpb.bytesPerSector.toNat_lt
  have hslt := img.bpb.sectorsPerCluster.toNat_lt
  have hb0 : img.bpb.bytesPerSector.toNat ≠ 0 := fun h0 => hbps (UInt64.toNat_inj.mp (hb.trans h0))
  have hs0 : img.bpb.sectorsPerCluster.toNat ≠ 0 := fun h0 => hspc (UInt64.toNat_inj.mp (hs.trans h0))
  obtain ⟨k, hk⟩ := Nat.dvd_of_mod_eq_zero hmod
  have hle : img.bpb.sectorsPerCluster.toNat * img.bpb.bytesPerSector.toNat ≤ 255 * 65535 :=
    Nat.mul_le_mul (by omega) (by omega)
  have hbytes : img.bytesPerCluster.toNat =
      img.bpb.sectorsPerCluster.toNat * img.bpb.bytesPerSector.toNat := by
    rw [bytesPerCluster, UInt64.toNat_mul, hs, hb]
    exact Nat.mod_eq_of_lt (by omega)
  have hmul : img.bpb.sectorsPerCluster.toNat * img.bpb.bytesPerSector.toNat =
      img.bpb.sectorsPerCluster.toNat * (16 * k) * 32 := by
    rw [hk]
    ring
  have hpos : 1 ≤ img.bpb.sectorsPerCluster.toNat * k := Nat.mul_pos (by omega) (by omega)
  have hperm : img.bpb.sectorsPerCluster.toNat * (16 * k) =
      16 * (img.bpb.sectorsPerCluster.toNat * k) := by ring
  refine ⟨img.bpb.sectorsPerCluster.toNat * (16 * k), by omega, by omega, hbytes.trans hmul, ?_⟩
  rw [dePerCluster, UInt64.toNat_div, hbytes, hmul]
  exact Nat.mul_div_cancel _ (by norm_num)

theorem getNthDe_ofNat (de : FatDe) {p n : ℕ} (hbytes : img.bytesPerCluster.toNat = p * 32)
    (hn : n < 2 ^ 59) :
    img.getNthDe de (UInt64.ofNat n) =
      (img.fatChainNthCnum de.first (n / p - 1)).map fun cn => (cn - 2, UInt64.ofNat (n % p)) := by
  have hnn : (UInt64.ofNat n).toNat = n := UInt64.toNat_ofNat_of_lt' (by norm_num [UInt64.size]; omega)
  have hoff : (UInt64.ofNat n * 32).toNat = n * 32 := by
    rw [UInt64.toNat_mul, hnn]
    exact Nat.mod_eq_of_lt (by show n * 32 < 2 ^ 64; omega)
  have hclus : (UInt64.ofNat n * 32 / img.bytesPerCluster).toNat = n / p := by
    rw [UInt64.toNat_div, hoff, hbytes, Nat.mul_div_mul_right _ _ (by norm_num)]
  have hslot : UInt64.ofNat n * 32 % img.bytesPerCluster / 32 = UInt64.ofNat (n % p) := by
    refine UInt64.toNat_inj.mp ?_
    have hlt : n % p < 2 ^ 64 := (Nat.mod_le n p).trans_lt (by omega)
    rw [UInt64.toNat_div, UInt64.toNat_mod, hoff, hbytes, Nat.mul_mod_mul_right,
      UInt64.toNat_ofNat_of_lt' hlt]
    exact Nat.mul_div_cancel _ (by norm_num)
  unfold getNthDe getNthCnum
  dsimp only
  rw [hclus, hslot]

/-- A cluster number of a chain leads to the rest of the chain. -/
theorem fatChainCount_of_chain {cn : UInt64} {cs : List UInt64} (h : img.ChainFrom cn cs)
    (count : UInt64) : img.fatChainCount cn count (cs.length + 1) = .done (count + UInt64.ofNat cs.length) := by
  induction h generalizing count with
  | nil hinv =>
    rw [fatChainCount, if_neg (by rw [hinv]; exact Bool.false_ne_true)]
    exact congrArg Count.done (UInt64.add_zero count).symm
  | cons hvalid hin _ ih =>
    rw [List.length_cons, fatChainCount, if_pos hvalid, fatNext, if_pos hin]
    refine (ih (count + 1)).trans (congrArg Count.done ?_)
    rw [UInt64.ofNat_add, UInt64.add_assoc, UInt64.add_comm 1]
    rfl

/-- Once done, the count does not change. -/
theorem fatChainCount_done_add {cn count c : UInt64} {turns : ℕ}
    (h : img.fatChainCount cn count turns = .done c) (more : ℕ) :
    img.fatChainCount cn count (turns + more) = .done c := by
  induction turns generalizing cn count with
  | zero => cases h
  | succ turns ih =>
    rw [Nat.succ_add, fatChainCount]
    rw [fatChainCount] at h
    by_cases hvalid : img.isValidCnum cn = true
    · rw [if_pos hvalid] at h ⊢
      cases hread : img.fatNext cn with
      | none =>
        rw [hread] at h
        cases h
      | some next =>
        rw [hread] at h
        exact ih h
    · rw [if_neg hvalid] at h ⊢
      exact h

theorem isValidCnum_toNat {cn : UInt64} (h : img.isValidCnum cn = true) : cn.toNat < 2 ^ 28 := by
  have hle := UInt64.le_iff_toNat_le.mp (isValidCnum_iff.mp h).2
  have hmax : img.fatType.max.toNat < 2 ^ 28 := by cases img.fatType <;> decide
  omega

theorem ChainFrom.head_eq {cn c : UInt64} {cs : List UInt64} (h : img.ChainFrom cn (c :: cs)) :
    cn = c := by
  cases h
  rfl

/-- A chain without a repetition is no longer than there are cluster numbers. -/
theorem ChainFrom.length_le {cn : UInt64} {cs : List UInt64} (h : img.ChainFrom cn cs)
    (hnodup : cs.Nodup) : cs.length ≤ 2 ^ 28 := by
  have hlt : ∀ x ∈ cs, x.toNat < 2 ^ 28 := by
    clear hnodup
    induction h with
    | nil _ => exact fun x hx => absurd hx List.not_mem_nil
    | cons hvalid _ _ ih =>
      intro x hx
      rcases List.mem_cons.mp hx with rfl | hx
      · exact isValidCnum_toNat hvalid
      · exact ih x hx
  have hsub : (cs.map UInt64.toNat).toFinset ⊆ Finset.range (2 ^ 28) := by
    intro y hy
    obtain ⟨x, hx, rfl⟩ := List.mem_map.mp (List.mem_toFinset.mp hy)
    exact Finset.mem_range.mpr (hlt x hx)
  have hinj : (cs.map UInt64.toNat).Nodup := hnodup.map fun a b => UInt64.toNat_inj.mp
  have hcard := Finset.card_le_card hsub
  rwa [List.toFinset_card_of_nodup hinj, List.length_map, Finset.card_range] at hcard

/-- `de_cluster_count` at the end of its loop. -/
theorem deClusterCount_of_chain (de : FatDe) {cs : List UInt64} (hchain : img.ChainFrom de.first cs)
    (hnodup : cs.Nodup) :
    (∃ count, img.deClusterCount de (cs.length + 1) = some count) ∧
      ∀ turns count, img.deClusterCount de turns = some count →
        count.toNat = img.clustersOf de cs.length := by
  have hlen := hchain.length_le hnodup
  have hdone := fatChainCount_of_chain hchain 0
  rw [UInt64.zero_add] at hdone
  have hnat : (UInt64.ofNat cs.length).toNat = cs.length :=
    UInt64.toNat_ofNat_of_lt' (by norm_num [UInt64.size]; omega)
  unfold deClusterCount clustersOf
  by_cases hfree : de.fileSize = 0xffffffff
  · simp only [if_pos hfree]
    exact ⟨⟨_, rfl⟩, fun _ count h => (Option.some.inj h) ▸ rfl⟩
  by_cases hdir : 0x10 &&& de.attr ≠ 0
  · simp only [if_neg hfree, if_pos hdir, hdone]
    refine ⟨⟨_, rfl⟩, fun turns count h => ?_⟩
    cases hturns : img.fatChainCount de.first 0 turns with
    | running cur c =>
      rw [hturns] at h
      cases h
    | outside =>
      rw [hturns] at h
      cases h
    | done c =>
      rw [hturns] at h
      -- both counts are that after all turns
      have hmore := fatChainCount_done_add hturns (cs.length + 1)
      rw [Nat.add_comm, fatChainCount_done_add hdone turns] at hmore
      rw [← Option.some.inj h, ← Count.done.inj hmore, hnat]
  · obtain ⟨p, hp16, hp20, hbytes, -⟩ := img.exists_bytesPerCluster
    have hsub : (img.bytesPerCluster - 1).toNat = img.bytesPerCluster.toNat - 1 := by
      have hle : (1 : UInt64) ≤ img.bytesPerCluster := by
        rw [UInt64.le_iff_toNat_le, hbytes]
        show 1 ≤ _
        omega
      rw [UInt64.toNat_sub_of_le _ _ hle]
      rfl
    have hsize : de.fileSize.toUInt64.toNat = de.fileSize.toNat := rfl
    have hslt := de.fileSize.toNat_lt
    simp only [if_neg hfree, if_neg hdir]
    refine ⟨⟨_, rfl⟩, fun _ count h => ?_⟩
    rw [← Option.some.inj h, UInt64.toNat_div, UInt64.toNat_add, hsub, hsize,
      Nat.mod_eq_of_lt (by omega)]

theorem clustersOf_lt (de : FatDe) {len : ℕ} (hlen : len ≤ 2 ^ 28) : img.clustersOf de len < 2 ^ 33 := by
  obtain ⟨p, hp16, hp20, hbytes, -⟩ := img.exists_bytesPerCluster
  have hslt := de.fileSize.toNat_lt
  unfold clustersOf
  split_ifs
  · omega
  · omega
  · refine (Nat.div_le_self _ _).trans_lt ?_
    omega

theorem length_slots (img : Image) (cs : List UInt64) :
    (img.slots cs).length = cs.length * img.dePerCluster.toNat := by
  simp only [slots, List.length_flatMap, List.length_map, List.length_range, List.map_const',
    List.sum_replicate, smul_eq_mul]

/-- The first slot of the second cluster. -/
theorem getElem?_slots_second (img : Image) (c₀ c₁ : UInt64) (rest : List UInt64)
    (hpos : 0 < img.dePerCluster.toNat) :
    (img.slots (c₀ :: c₁ :: rest))[img.dePerCluster.toNat]? = some (c₁ - 2, 0) := by
  rw [slots, List.flatMap_cons, List.getElem?_append_right (by simp), List.length_map,
    List.length_range, Nat.sub_self, List.flatMap_cons, List.getElem?_append_left (by simpa using hpos),
    List.getElem?_map, List.getElem?_range hpos]
  rfl

/-- The number of children, and the entry that `get_nth_de` finds. -/
theorem children_of_chain (img : Image) (de : FatDe) {cs : List UInt64}
    (hchain : img.ChainFrom de.first cs) (hnodup : cs.Nodup) :
    (∃ turns count, img.deChildrenCount de turns = some count) ∧
      (∀ turns count, img.deChildrenCount de turns = some count →
        count.toNat = img.clustersOf de cs.length * img.dePerCluster.toNat) ∧
      ∀ n, n < 2 ^ 59 → img.getNthDe de (UInt64.ofNat n) =
        (img.fatChainNthCnum de.first (n / img.dePerCluster.toNat - 1)).map
          fun cn => (cn - 2, UInt64.ofNat (n % img.dePerCluster.toNat)) := by
  obtain ⟨p, hp16, hp20, hbytes, hper⟩ := img.exists_bytesPerCluster
  obtain ⟨⟨count, hcount⟩, hcounts⟩ := deClusterCount_of_chain de hchain hnodup
  have hlt : img.clustersOf de cs.length < 2 ^ 33 := clustersOf_lt de (hchain.length_le hnodup)
  rw [hper]
  refine ⟨⟨cs.length + 1, count * img.dePerCluster, by rw [deChildrenCount, hcount]; rfl⟩, ?_,
    fun n hn => getNthDe_ofNat de hbytes hn⟩
  intro turns count hchildren
  obtain ⟨c, hc, rfl⟩ := Option.map_eq_some_iff.mp hchildren
  have hle : img.clustersOf de cs.length * p ≤ 2 ^ 33 * 2 ^ 20 := Nat.mul_le_mul hlt.le hp20.le
  rw [UInt64.toNat_mul, hcounts turns c hc, hper]
  exact Nat.mod_eq_of_lt (by omega)

theorem Enumerates.length_le {de : FatDe} {cs : List UInt64} (h : img.Enumerates de cs)
    (hchain : img.ChainFrom de.first cs) (hnodup : cs.Nodup) :
    img.clustersOf de cs.length = cs.length ∧ cs.length ≤ 1 := by
  obtain ⟨p, hp16, hp20, -, hper⟩ := img.exists_bytesPerCluster
  obtain ⟨-, hcounts, hread⟩ := img.children_of_chain de hchain hnodup
  rw [hper] at hcounts hread
  obtain ⟨turns, count, hchildren, hlist⟩ := h
  rw [hcounts turns count hchildren] at hlist
  have hlen := congrArg List.length hlist
  rw [List.length_map, List.length_range, List.length_map, length_slots, hper] at hlen
  have hK := Nat.eq_of_mul_eq_mul_right (by omega) hlen
  refine ⟨hK, ?_⟩
  by_contra hgt
  -- the first slot of the second cluster is looked for in the first cluster
  obtain ⟨c₀, c₁, rest, rfl⟩ : ∃ c₀ c₁ rest, cs = c₀ :: c₁ :: rest := by
    cases cs with
    | nil => exact absurd (Nat.zero_le 1) hgt
    | cons c₀ cs =>
      cases cs with
      | nil => exact absurd (le_refl 1) hgt
      | cons c₁ rest => exact ⟨c₀, c₁, rest, rfl⟩
  have hfirst : de.first = c₀ := hchain.head_eq
  have hat := congrArg (fun l => l[p]?) hlist
  have hin : p < img.clustersOf de (c₀ :: c₁ :: rest).length * p := by
    rw [hK, List.length_cons, List.length_cons]
    calc p < 2 * p := by omega
      _ ≤ (rest.length + 1 + 1) * p := Nat.mul_le_mul_right _ (by omega)
  have hcode : img.getNthDe de (UInt64.ofNat p) = some (c₀ - 2, 0) := by
    rw [hread p (by omega), Nat.div_self (by omega), Nat.mod_self, hfirst]
    rfl
  have hspec := getElem?_slots_second img c₀ c₁ rest (by omega)
  rw [hper] at hspec
  rw [List.getElem?_map, List.getElem?_range hin, List.getElem?_map, hspec] at hat
  have heq : img.getNthDe de (UInt64.ofNat p) = some (c₁ - 2, 0) := Option.some.inj hat
  rw [hcode] at heq
  have hcc : c₀ = c₁ := by
    have h2 := (Prod.mk.inj (Option.some.inj heq)).1
    grind
  rw [hcc] at hnodup
  exact (List.nodup_cons.mp hnodup).1 (List.mem_cons_self ..)

theorem enumerates_of_length_le {de : FatDe} {cs : List UInt64} (hchain : img.ChainFrom de.first cs)
    (hnodup : cs.Nodup) (hK : img.clustersOf de cs.length = cs.length) (hle : cs.length ≤ 1) :
    img.Enumerates de cs := by
  obtain ⟨p, hp16, hp20, -, hper⟩ := img.exists_bytesPerCluster
  obtain ⟨⟨turns, count, hchildren⟩, hcounts, hread⟩ := img.children_of_chain de hchain hnodup
  rw [hper] at hcounts hread
  refine ⟨turns, count, hchildren, ?_⟩
  rw [hcounts turns count hchildren, hK]
  rcases Nat.le_one_iff_eq_zero_or_eq_one.mp hle with hnil | hone
  · obtain rfl := List.length_eq_zero_iff.mp hnil
    simp [slots]
  · obtain ⟨c₀, rfl⟩ := List.length_eq_one_iff.mp hone
    have hfirst : de.first = c₀ := hchain.head_eq
    rw [List.length_singleton, Nat.one_mul, slots, List.flatMap_singleton, hper, List.map_map]
    refine List.map_congr_left fun n hn => ?_
    have hnp := List.mem_range.mp hn
    rw [hread n (by omega), Nat.div_eq_of_lt hnp, Nat.mod_eq_of_lt hnp, hfirst]
    rfl

/-- `get_nth_de` goes through the slots of a valid chain without a repetition exactly if
`de_cluster_count` is the length of the chain, and this is at most 1. -/
theorem enumerates_iff_of_chain (img : Image) (de : FatDe) {cs : List UInt64}
    (hchain : img.ChainFrom de.first cs) (hnodup : cs.Nodup) :
    img.Enumerates de cs ↔ img.clustersOf de cs.length = cs.length ∧ cs.length ≤ 1 := by
  constructor
  · exact fun h => h.length_le hchain hnodup
  · exact fun h => enumerates_of_length_le hchain hnodup h.1 h.2

/-- A FAT16 image with a directory in cluster 5 and cluster 6. -/
def sampleDirs : Image where
  bpb := sampleFat16.bpb
  clusterCount := sampleFat16.clusterCount
  count_eq := sampleFat16.count_eq
  passes := sampleFat16.passes
  ent := fun cn => if cn = 5 then 6 else 0xffff
  ent_lt := by
    intro cn
    split <;> decide

def sampleDe (cn : UInt16) : FatDe := ⟨0x10, 0, cn, 0⟩

/-- The slots of the second cluster are not found. -/
theorem not_enumerates_two :
    sampleDirs.ChainFrom (sampleDe 5).first [5, 6] ∧ [(5 : UInt64), 6].Nodup ∧
      ¬ sampleDirs.Enumerates (sampleDe 5) [5, 6] := by
  have hchain : sampleDirs.ChainFrom (sampleDe 5).first [5, 6] :=
    .cons (by decide) (by decide) (.cons (by decide) (by decide) (.nil (by decide)))
  refine ⟨hchain, by decide, fun h => ?_⟩
  exact absurd (h.length_le hchain (by decide)).2 (by decide)

end Image

end Fsl.Vfat
