import Fsl.Fs.Vfat

/-!
# Chains of a repaired FAT

`cluster_bad_range` stops below `get_fatmax()`, which `is_valid_cnum` still accepts, and
`fat_chain_nth_cnum` only stops at one of the values above it.
-/

namespace Fsl.Vfat

namespace FatType

theorem two_le_max (t : FatType) : 2 ≤ t.max := by cases t <;> decide

theorem eof_toNat_lt (t : FatType) : t.eof.toNat < 2 ^ t.entBits.toNat := by cases t <;> decide

theorem max_toUInt32 (t : FatType) : t.max.toUInt32.toUInt64 = t.max := by cases t <;> decide

end FatType

namespace Image

variable (img : Image)

/-- The repairs of `fat_ent12`, `fat_ent16` and `fat_ent32`: an entry of the bad range is set to the
end mark. This is the table that the packets of the repair describe; on FAT12 no run comes to it, since
`fsl_io_write` stops at a write of 12 bits. -/
def repair : Image where
  bpb := img.bpb
  clusterCount := img.clusterCount
  count_eq := img.count_eq
  passes := img.passes
  ent := fun cn =>
    if cn < img.entCount ∧ img.clusterBadRange (img.ent cn) = true then img.fatType.eof
    else img.ent cn
  ent_lt := by
    intro cn
    split
    · exact img.fatType.eof_toNat_lt
    · exact img.ent_lt cn

/-- A value that is neither repaired nor refused by `is_valid_cnum` is below the length of the FAT. -/
def Partitions : Prop :=
  ∀ v : UInt32, img.clusterBadRange v.toUInt64 = false → img.isValidCnum v.toUInt64 = true →
    v.toUInt64 < img.clusterCount + 2

/-- No walk from a cluster of the image leaves the FAT. -/
def StaysInside : Prop :=
  ∀ start, 2 ≤ start → start < img.entCount →
    (∀ turns, img.fatChainCount start 0 turns ≠ .outside) ∧
      ∀ turns, img.fatChainNthCnum start turns ≠ none

variable {img}

theorem clusterBadRange_iff {v : UInt64} :
    img.clusterBadRange v = true ↔ v = 1 ∨ img.clusterCount + 2 ≤ v ∧ v < img.fatType.max := by
  rw [clusterBadRange]
  by_cases h : v = 1
  · simp [h]
  · simp [h]

theorem isValidCnum_iff {v : UInt64} :
    img.isValidCnum v = true ↔ 2 ≤ v ∧ v ≤ img.fatType.max := by
  rw [isValidCnum]
  split
  next h => simpa using fun h' => absurd h (UInt64.not_lt.mpr h')
  next h =>
    split
    next h' => simpa using fun _ => h'
    next h' => simpa using ⟨UInt64.not_lt.mp h, UInt64.not_lt.mp h'⟩

theorem isEof_iff {v : UInt64} : img.isEof v = true ↔ v = img.fatType.eof := decide_eq_true_iff

theorem entCount_eq : img.entCount = img.clusterCount + 2 := UInt64.add_comm _ _

/-- The two classifications fit together exactly if `get_fatmax()` itself is a cluster. -/
theorem partitions_iff : img.Partitions ↔ img.fatType.max < img.entCount := by
  rw [entCount_eq]
  constructor
  · intro h
    have htop := h img.fatType.max.toUInt32
    rw [FatType.max_toUInt32] at htop
    apply htop
    · rw [Bool.eq_false_iff, Ne, clusterBadRange_iff]
      have htwo := img.fatType.two_le_max
      rintro (hone | ⟨-, hlt⟩)
      · rw [hone] at htwo
        exact absurd htwo (by decide)
      · exact absurd hlt (UInt64.lt_irrefl _)
    · rw [isValidCnum_iff]
      exact ⟨img.fatType.two_le_max, UInt64.le_refl _⟩
  · intro h v _ hvalid
    exact UInt64.lt_of_le_of_lt (isValidCnum_iff.mp hvalid).2 h

/-! ## Walks -/

/-- A value at which a walk goes on inside of the FAT, or stops. -/
def Linked (img : Image) (v : UInt64) : Prop := v < img.entCount ∨ v = img.fatType.eof

/-- A cluster whose entry a walk reads. -/
def Reads (img : Image) (cn : UInt64) : Prop :=
  2 ≤ cn ∧ cn < img.entCount ∧ cn ≠ img.fatType.eof

section Walks

variable (hmax : img.fatType.max < img.entCount)

include hmax

theorem clusterBadRange_iff_one {v : UInt64} : img.clusterBadRange v = true ↔ v = 1 := by
  rw [clusterBadRange_iff, ← entCount_eq]
  constructor
  · rintro (hone | ⟨hle, hlt⟩)
    · exact hone
    · grind
  · exact Or.inl

theorem one_lt_entCount : 1 < img.entCount := by
  have htwo := img.fatType.two_le_max
  grind

theorem repair_ent {cn : UInt64} (hcn : cn < img.entCount) :
    img.repair.ent cn = if img.ent cn = 1 then img.fatType.eof else img.ent cn := by
  show (if cn < img.entCount ∧ img.clusterBadRange (img.ent cn) = true then _ else _) = _
  simp only [clusterBadRange_iff_one hmax, hcn, true_and]

theorem linked_repair {cn : UInt64} (hcn : cn < img.entCount) :
    img.Linked (img.repair.ent cn) ↔ img.Linked (img.ent cn) := by
  rw [repair_ent hmax hcn]
  split
  next hone =>
    rw [hone]
    exact ⟨fun _ => Or.inl (one_lt_entCount hmax), fun _ => Or.inr rfl⟩
  next => exact Iff.rfl

theorem fatChainCount_ne_outside (cur count : UInt64) (turns : ℕ) :
    img.fatChainCount cur count turns ≠ .outside := by
  induction turns generalizing cur count with
  | zero => exact fun h => nomatch h
  | succ turns ih =>
    rw [fatChainCount]
    split
    next hvalid =>
      have hlt := UInt64.lt_of_le_of_lt (isValidCnum_iff.mp hvalid).2 hmax
      rw [fatNext, if_pos hlt]
      exact ih _ _
    next => exact fun h => nomatch h

end Walks

/-- What a walk keeps: it is at a cluster, at the end, or at entry 0 if that one leads on. -/
def OnChain (img : Image) (cn : UInt64) : Prop :=
  cn = img.fatType.eof ∨ 2 ≤ cn ∧ cn < img.entCount ∨ cn = 0 ∧ img.Linked (img.repair.ent 0)

section OnChain

variable (hmax : img.fatType.max < img.entCount)
variable (hlinks : ∀ cn, img.Reads cn → img.Linked (img.ent cn))
variable (hfree : ∀ cn, img.Reads cn → img.ent cn = 0 → img.Linked (img.ent 0))

include hmax

theorem repair_ent_ne_one {cn : UInt64} (hcn : cn < img.entCount) : img.repair.ent cn ≠ 1 := by
  rw [repair_ent hmax hcn]
  split
  next => cases img.fatType <;> decide
  next hone => exact hone

theorem repair_ent_eq_zero {cn : UInt64} (hcn : cn < img.entCount) :
    img.repair.ent cn = 0 ↔ img.ent cn = 0 := by
  rw [repair_ent hmax hcn]
  split
  next hone =>
    rw [hone]
    cases img.fatType <;> decide
  next => exact Iff.rfl

theorem onChain_ent {cn : UInt64} (hcn : cn < img.entCount)
    (hlinked : img.Linked (img.repair.ent cn))
    (hzero : img.repair.ent cn = 0 → img.Linked (img.repair.ent 0)) :
    img.OnChain (img.repair.ent cn) := by
  have hone := repair_ent_ne_one hmax hcn
  rcases hlinked with hlt | heof
  · by_cases h0 : img.repair.ent cn = 0
    · exact Or.inr (Or.inr ⟨h0, hzero h0⟩)
    · exact Or.inr (Or.inl ⟨by grind, hlt⟩)
  · exact Or.inl heof

include hlinks hfree

/-- One turn of a walk. -/
theorem OnChain.next {cn : UInt64} (h : img.OnChain cn) (hne : cn ≠ img.fatType.eof) :
    cn < img.entCount ∧ img.OnChain (img.repair.ent cn) := by
  have hpos : (0 : UInt64) < img.entCount :=
    UInt64.lt_trans (by decide) (one_lt_entCount hmax)
  rcases h with heof | ⟨htwo, hlt⟩ | ⟨rfl, hlinked⟩
  · exact absurd heof hne
  · refine ⟨hlt, onChain_ent hmax hlt ((linked_repair hmax hlt).mpr (hlinks cn ⟨htwo, hlt, hne⟩)) ?_⟩
    intro hzero
    have hent := (repair_ent_eq_zero hmax hlt).mp hzero
    exact (linked_repair hmax hpos).mpr (hfree cn ⟨htwo, hlt, hne⟩ hent)
  · exact ⟨hpos, onChain_ent hmax hpos hlinked fun _ => hlinked⟩

/-- Whole walks, by induction on the turns that are left. -/
theorem OnChain.nth_ne_none {cn : UInt64} (h : img.OnChain cn) (turns : ℕ) :
    img.repair.fatChainNthCnum cn turns ≠ none := by
  induction turns generalizing cn with
  | zero => exact Option.some_ne_none cn
  | succ turns ih =>
    rw [fatChainNthCnum]
    by_cases heof : img.repair.isEof cn = true
    · rw [if_pos heof]
      exact Option.some_ne_none cn
    · obtain ⟨hlt, hnext⟩ := h.next hmax hlinks hfree fun hn => heof (isEof_iff.mpr hn)
      have hread : img.repair.fatNext cn = some (img.repair.ent cn) := if_pos hlt
      rw [if_neg heof, hread]
      exact ih hnext

end OnChain

/-- A walk that reads an entry goes on to its value. -/
theorem fatChainNthCnum_succ (img : Image) {cn : UInt64} (hlt : cn < img.entCount) (hne : cn ≠ img.fatType.eof)
    (turns : ℕ) : img.fatChainNthCnum cn (turns + 1) = img.fatChainNthCnum (img.ent cn) turns := by
  have hread : img.fatNext cn = some (img.ent cn) := if_pos hlt
  rw [fatChainNthCnum, if_neg (fun hn => hne (isEof_iff.mp hn)), hread]
  rfl

/-- A walk that can take another turn is inside, or at its end. -/
theorem linked_of_nth (img : Image) {cn : UInt64} (h : img.fatChainNthCnum cn 1 ≠ none) : img.Linked cn := by
  by_cases heof : cn = img.fatType.eof
  · exact Or.inr heof
  · refine Or.inl (by_contra fun hlt => h ?_)
    have hread : img.fatNext cn = none := if_neg hlt
    rw [fatChainNthCnum, if_neg (fun hn => heof (isEof_iff.mp hn)), hread]
    rfl

/-- Values that are neither repaired nor refused are below the length of the FAT, and walks of the
repaired FAT stay inside, exactly if `get_fatmax()` is the number of a cluster, the entries of the
clusters hold a number inside of the FAT or the end mark, and so does entry 0 if a cluster is free. -/
theorem repaired_iff (img : Image) :
    img.Partitions ∧ img.repair.StaysInside ↔
      img.fatType.max < img.entCount ∧ (∀ cn, img.Reads cn → img.Linked (img.ent cn)) ∧
        ∀ cn, img.Reads cn → img.ent cn = 0 → img.Linked (img.ent 0) := by
  rw [partitions_iff]
  constructor
  · rintro ⟨hmax, hinside⟩
    have hpos : (0 : UInt64) < img.entCount :=
      UInt64.lt_trans (by decide) (one_lt_entCount hmax)
    have hnth : ∀ cn, img.Reads cn → ∀ turns,
        img.repair.fatChainNthCnum (img.repair.ent cn) turns ≠ none := by
      rintro cn ⟨htwo, hlt, hne⟩ turns
      have hwalk := (hinside cn htwo hlt).2 (turns + 1)
      rwa [fatChainNthCnum_succ img.repair hlt hne] at hwalk
    refine ⟨hmax, fun cn hcn => ?_, fun cn hcn hzero => ?_⟩
    · rw [← linked_repair hmax hcn.2.1]
      exact linked_of_nth img.repair (hnth cn hcn 1)
    · have hwalk := hnth cn hcn 2
      rw [(repair_ent_eq_zero hmax hcn.2.1).mpr hzero,
        fatChainNthCnum_succ img.repair hpos (by cases img.repair.fatType <;> decide)]
        at hwalk
      rw [← linked_repair hmax hpos]
      exact linked_of_nth img.repair hwalk
  · rintro ⟨hmax, hlinks, hfree⟩
    have hmax' : img.repair.fatType.max < img.repair.entCount := hmax
    refine ⟨hmax, fun start htwo hlt => ⟨fun turns => ?_, fun turns => ?_⟩⟩
    · exact fatChainCount_ne_outside hmax' start 0 turns
    · exact OnChain.nth_ne_none hmax hlinks hfree (Or.inr (Or.inl ⟨htwo, hlt⟩)) turns

/-- A FAT16 image of 9971 clusters; the entry of cluster 5 is `0xfff4`, all others are the end mark. -/
def sampleFat16 : Image where
  bpb := ⟨512, 4, 1, 2, 512, 40000, 40, 0, 0, 0⟩
  clusterCount := 9971
  count_eq := rfl
  passes := rfl
  ent := fun cn => if cn = 5 then 0xfff4 else 0xffff
  ent_lt := by
    intro cn
    split <;> decide

/-- `0xfff4` is not repaired, is a valid number, and is not in the FAT. -/
theorem not_repaired_sampleFat16 :
    (sampleFat16.clusterBadRange 0xfff4 = false ∧ sampleFat16.isValidCnum 0xfff4 = true ∧
      ¬ (0xfff4 : UInt64) < sampleFat16.clusterCount + 2) ∧
      sampleFat16.repair.fatChainCount 5 0 2 = .outside ∧
      ¬ (sampleFat16.Partitions ∧ sampleFat16.repair.StaysInside) := by
  refine ⟨by decide, by decide, fun h => ?_⟩
  exact absurd (h.1 0xfff4 (by decide) (by decide)) (by decide)

end Image

end Fsl.Vfat
