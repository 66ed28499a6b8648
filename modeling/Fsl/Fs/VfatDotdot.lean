import Fsl.Fs.VfatDirs

/-!
# Moving a directory of a VFAT volume

What `block_relink` emits for the first cluster of a directory, and where the '..' entries of the
directories in it lead after the commit. The directories are found by `get_nth_de`: those of a second
cluster are not.
-/

namespace Fsl.Vfat

namespace Image

open Bpb

variable {img : Image} {fatSectors total : UInt64} {d : Disk} {de a : UInt64}

/-! ## What the packets emit for a directory of one cluster -/

/-- The first of some elements, or none if it is filtered out, and then the others. -/
theorem exists_forall₂_filter_cons_iff {α β γ : Type} {F : α → β → Prop} {keep : α → Bool}
    {g : β → List γ} {x : α} {l : List α} {ws : List γ} :
    (∃ ws₁ ws₂, (if keep x = true then ∃ a, F x a ∧ ws₁ = g a else ws₁ = []) ∧
        (∃ as, List.Forall₂ F (l.filter keep) as ∧ ws₂ = as.flatMap g) ∧ ws = ws₁ ++ ws₂) ↔
      ∃ as, List.Forall₂ F ((x :: l).filter keep) as ∧ ws = as.flatMap g := by
  by_cases hx : keep x = true
  · rw [List.filter_cons_of_pos hx]
    simp only [if_pos hx]
    constructor
    · rintro ⟨_, _, ⟨a, ha, rfl⟩, ⟨as, has, rfl⟩, rfl⟩
      exact ⟨a :: as, .cons ha has, rfl⟩
    · rintro ⟨as, has, rfl⟩
      obtain ⟨a, as, ha, hrest, rfl⟩ := List.forall₂_cons_left_iff.mp has
      exact ⟨_, _, ⟨a, ha, rfl⟩, ⟨as, hrest, rfl⟩, rfl⟩
  · rw [List.filter_cons_of_neg hx]
    simp only [if_neg hx]
    constructor
    · rintro ⟨_, _, rfl, ⟨as, has, rfl⟩, rfl⟩
      exact ⟨as, has, rfl⟩
    · rintro ⟨as, has, rfl⟩
      exact ⟨[], _, rfl, ⟨as, has, rfl⟩, rfl⟩

/-- A directory with one cluster on a FAT16 or FAT32 volume. -/
structure OneCluster (img : Image) (fatSectors total : UInt64) (d : Disk) (de c : UInt64) : Prop where
  on : img.On fatSectors total d
  wide : img.fatType ≠ .fat12
  deOn : DeOn d de
  good : (isGoodDir de).run .little d = .ok true
  chain : img.ChainFrom (FatDe.ofDisk d de).first [c]

/-- The packets of `vfat.fsl`, with the number of turns that `fat_chain_count` has. -/
abbrev pkts (img : Image) (fatSectors : UInt64) (turns : ℕ) : Pkt → Wpkt Pkt :=
  img.bpb.pkts fatSectors img.clusterCount (img.bpb.fixPkts fatSectors img.clusterCount turns)

/-- `find_dotdot_de` gives the entry `a` for the directory in slot `k` of the cluster `c`. -/
def FindsDotdot (img : Image) (fatSectors : UInt64) (d : Disk) (c : UInt64) (k : ℕ) (a : UInt64) : Prop :=
  (img.bpb.findDotdotDe fatSectors img.clusterCount (img.slotAt fatSectors c k)).run .little d = .ok a

variable {c new : UInt64} {turns depth k n : ℕ} {ws : List WlogEnt}

namespace OneCluster

theorem onDisk (h : img.OneCluster fatSectors total d de c) :
    OnDisk img.bpb fatSectors total img.clusterCount d := h.on.onDisk h.wide

theorem first_eq (h : img.OneCluster fatSectors total d de c) : (FatDe.ofDisk d de).first = c :=
  h.chain.head_eq

/-- The cluster is one of the volume. -/
theorem bounds (h : img.OneCluster fatSectors total d de c) :
    2 ≤ c.toNat ∧ c < img.entCount ∧ c.toNat < img.clusterCount.toNat + 2 := by
  obtain ⟨hvalid, hin⟩ := h.chain.head
  rw [h.first_eq] at hvalid hin
  exact ⟨UInt64.le_iff_toNat_le.mp (isValidCnum_iff.mp hvalid).1, hin, h.on.toNat_lt_entCount hin⟩

theorem deOn_slotAt (h : img.OneCluster fatSectors total d de c) (hk : k < img.dePerCluster.toNat) :
    DeOn d (img.slotAt fatSectors c k) :=
  (On.toNat_slotAt h.onDisk h.bounds.1 h.bounds.2.2 hk).2

theorem run_getNthDe (h : img.OneCluster fatSectors total d de c) (hk : k < img.dePerCluster.toNat) :
    (img.bpb.getNthDe fatSectors img.clusterCount de (UInt64.ofNat k)).run .little d =
      .ok (img.slotAt fatSectors c k) := by
  rw [h.on.run_getNthDe_first h.deOn hk, h.first_eq]

theorem run_deChildrenCount (h : img.OneCluster fatSectors total d de c) (turns : ℕ) :
    (img.bpb.deChildrenCount fatSectors img.clusterCount turns de).run .little d =
      if turns ≤ 1 then .error .fault else .ok img.dePerCluster := by
  rw [h.on.run_deChildrenCount h.deOn h.good h.chain, List.length_singleton]
  by_cases hle : turns ≤ 1
  · rw [if_pos hle, if_pos hle]
  · rw [if_neg hle, if_neg hle]
    exact congrArg Except.ok (UInt64.one_mul _)

theorem run_writeDeCn_iff (h : img.OneCluster fatSectors total d de c) (a new : UInt64) :
    (emit (img.pkts fatSectors turns) (depth + 1) .writeDeCn [a, new]).run .little d = .ok ws ↔
      ws = img.bpb.deWrites img.clusterCount a new := by
  rw [run_writeDeCn h.wide a new depth, Except.ok.injEq, eq_comm]

/-- What `write_fix_dotdot_n` does for one entry. -/
theorem run_writeFixDotdotN_step (h : img.OneCluster fatSectors total d de c) (hturns : ¬ turns ≤ 1)
    (hn : n < img.dePerCluster.toNat) :
    (emit (img.pkts fatSectors turns) (depth + 2) (.fix .writeFixDotdotN)
        [de, new, UInt64.ofNat n]).run .little d = .ok ws ↔
      ∃ ws₁ ws₂,
        (if accepts d (img.slotAt fatSectors c n) = true then
            ∃ a, img.FindsDotdot fatSectors d c n a ∧ ws₁ = img.bpb.deWrites img.clusterCount a new
          else ws₁ = []) ∧
        (if decide (n + 1 < img.dePerCluster.toNat) = true then
            (emit (img.pkts fatSectors turns) (depth + 1) (.fix .writeFixDotdotN)
              [de, new, UInt64.ofNat (n + 1)]).run .little d = .ok ws₂
          else ws₂ = []) ∧ ws = ws₁ ++ ws₂ := by
  have hslot := h.run_getNthDe hn
  obtain ⟨good, hgood⟩ := (h.deOn_slotAt hn).exists_run_isGoodDir h.on.lines
  have hlt := img.dePerCluster.toNat_lt
  have hsucc : (UInt64.ofNat n + 1 < img.dePerCluster) ↔ n + 1 < img.dePerCluster.toNat := by
    rw [ofNat_succ, UInt64.lt_iff_toNat_lt, UInt64.toNat_ofNat_of_lt' (show n + 1 < 2 ^ 64 by omega)]
  have hchild : (img.bpb.getNthDe fatSectors img.clusterCount de (UInt64.ofNat n) >>=
      isGoodDir).run .little d = .ok good := by
    rw [Prog.run_bind, hslot, ok_bind, hgood]
  have hmore : (do return decide (UInt64.ofNat n + 1 <
      (← img.bpb.deChildrenCount fatSectors img.clusterCount turns de)) : Prog Bool).run .little d =
        .ok (decide (n + 1 < img.dePerCluster.toNat)) := by
    rw [Prog.run_bind, h.run_deChildrenCount, if_neg hturns, ok_bind, Prog.run_pure,
      decide_eq_decide.mpr hsucc]
  have hparams (ps : List UInt64) : (do
      let child ← img.bpb.getNthDe fatSectors img.clusterCount de (UInt64.ofNat n)
      return [← img.bpb.findDotdotDe fatSectors img.clusterCount child, new] :
        Prog (List UInt64)).run .little d = .ok ps ↔
      ∃ a, img.FindsDotdot fatSectors d c n a ∧ ps = [a, new] := by
    rw [Prog.run_bind, hslot, ok_bind, Prog.run_bind]
    constructor
    · intro hrun
      obtain ⟨a, ha, hrun⟩ := bind_eq_ok hrun
      exact ⟨a, ha, (Except.ok.inj hrun).symm⟩
    · rintro ⟨a, ha, rfl⟩
      exact congrArg (· >>= _) ha
  rw [run_emit_iff rfl]
  refine run_emitCalls_cons_iff.trans (exists_congr fun ws₁ => exists_congr fun ws₂ => ?_)
  refine and_congr ?_ (and_congr_left' ?_)
  · rw [run_emitCall_iff hchild, accepts_eq_of_run hgood]
    refine iff_of_eq (if_congr Iff.rfl (propext ⟨?_, ?_⟩) rfl)
    · rintro ⟨ps, hps, hws⟩
      obtain ⟨a, ha, rfl⟩ := (hparams ps).mp hps
      exact ⟨a, ha, (h.run_writeDeCn_iff a new).mp hws⟩
    · rintro ⟨a, ha, hws⟩
      exact ⟨[a, new], (hparams _).mpr ⟨a, ha, rfl⟩, (h.run_writeDeCn_iff a new).mpr hws⟩
  · rw [run_emitCalls_singleton_iff, run_emitCall_iff hmore]
    refine iff_of_eq (if_congr Iff.rfl (propext ⟨?_, fun hws => ⟨_, rfl, ?_⟩⟩) rfl)
    · rintro ⟨ps, hps, hws⟩
      obtain rfl := Except.ok.inj hps
      rwa [← ofNat_succ]
    · rwa [ofNat_succ]

/-- `write_fix_dotdot_n` goes on to the last slot. -/
theorem run_writeFixDotdotN_iff (h : img.OneCluster fatSectors total d de c) (hturns : ¬ turns ≤ 1)
    {len : ℕ} (hn : n + len + 1 = img.dePerCluster.toNat) :
    (emit (img.pkts fatSectors turns) (depth + len + 2) (.fix .writeFixDotdotN)
        [de, new, UInt64.ofNat n]).run .little d = .ok ws ↔
      ∃ as, List.Forall₂ (img.FindsDotdot fatSectors d c)
          ((List.range' n (len + 1)).filter fun k => accepts d (img.slotAt fatSectors c k)) as ∧
        ws = as.flatMap fun a => img.bpb.deWrites img.clusterCount a new := by
  induction len generalizing n ws with
  | zero =>
    rw [h.run_writeFixDotdotN_step hturns (by omega), List.range'_succ, ← exists_forall₂_filter_cons_iff]
    refine exists_congr fun ws₁ => exists_congr fun ws₂ => and_congr_right' (and_congr_left' ?_)
    rw [decide_eq_false (by omega), if_neg Bool.false_ne_true]
    simp
  | succ len ih =>
    rw [h.run_writeFixDotdotN_step hturns (by omega), List.range'_succ, ← exists_forall₂_filter_cons_iff]
    refine exists_congr fun ws₁ => exists_congr fun ws₂ => and_congr_right' (and_congr_left' ?_)
    rw [decide_eq_true (by omega), if_pos rfl]
    exact ih (by omega)

/-- The count of the children has been read. -/
theorem two_le_turns (h : img.OneCluster fatSectors total d de c)
    (hrun : (emit (img.pkts fatSectors turns) depth (.fix .writeFixDotdotN)
      [de, new, UInt64.ofNat n]).run .little d = .ok ws) : ¬ turns ≤ 1 := by
  intro hle
  cases depth with
  | zero => cases hrun
  | succ depth =>
    obtain ⟨_, _, -, hmore, -⟩ := run_emitCalls_cons_iff.mp ((run_emit_iff rfl).mp hrun)
    rw [run_emitCalls_singleton_iff, emitCall, Prog.run_bind] at hmore
    obtain ⟨_, hcond, -⟩ := bind_eq_ok hmore
    change (do return decide (UInt64.ofNat n + 1 <
      (← img.bpb.deChildrenCount fatSectors img.clusterCount turns de)) : Prog Bool).run .little d =
        _ at hcond
    rw [Prog.run_bind, h.run_deChildrenCount, if_pos hle] at hcond
    cases hcond

variable {dot next : UInt64}

/-- `write_fix_dir_refs` -/
theorem run_writeFixDirRefs_iff (h : img.OneCluster fatSectors total d de c)
    (hdot : (img.bpb.findDotDe (img.bpb.getCluster fatSectors new)).run .little d = .ok dot)
    (hdepth : img.dePerCluster.toNat < depth) :
    (emit (img.pkts fatSectors turns) (depth + 1) (.fix .writeFixDirRefs) [de, new]).run .little d =
        .ok ws ↔
      ¬ turns ≤ 1 ∧ ∃ as, List.Forall₂ (img.FindsDotdot fatSectors d c) (img.childDirs fatSectors d c) as ∧
        ws = (dot :: as).flatMap fun a => img.bpb.deWrites img.clusterCount a new := by
  obtain ⟨p, hp16, -, -, hper⟩ := img.exists_bytesPerCluster
  obtain ⟨k, rfl⟩ := Nat.exists_eq_add_of_lt hdepth
  have hself : (do return [← img.bpb.findDotDe (img.bpb.getCluster fatSectors new), new] :
      Prog (List UInt64)).run .little d = .ok [dot, new] := by
    rw [Prog.run_bind, hdot]
    rfl
  have hchildren (hturns : ¬ turns ≤ 1) (ws₂ : List WlogEnt) := @run_writeFixDotdotN_iff _ _ _ _ _ _ new
    _ k 0 ws₂ h hturns (img.dePerCluster.toNat - 1) (by omega)
  rw [Nat.sub_add_cancel (by omega), ← List.range_eq_range',
    show k + (img.dePerCluster.toNat - 1) + 2 = img.dePerCluster.toNat + k + 1 by omega] at hchildren
  rw [run_emit_iff rfl]
  refine run_emitCalls_cons_iff.trans ⟨?_, ?_⟩
  · rintro ⟨ws₁, ws₂, h₁, h₂, rfl⟩
    rw [run_emitCall_eq rfl hself] at h₁
    rw [run_emitCalls_singleton_iff, run_emitCall_eq rfl (q := [de, new, UInt64.ofNat 0]) rfl] at h₂
    obtain rfl := (h.run_writeDeCn_iff dot new).mp h₁
    have hturns := h.two_le_turns h₂
    obtain ⟨as, has, rfl⟩ := (hchildren hturns ws₂).mp h₂
    exact ⟨hturns, as, has, rfl⟩
  · rintro ⟨hturns, as, has, rfl⟩
    refine ⟨_, _, ?_, ?_, List.flatMap_cons⟩
    · rw [run_emitCall_eq rfl hself]
      exact (h.run_writeDeCn_iff dot new).mpr rfl
    · rw [run_emitCalls_singleton_iff, run_emitCall_eq rfl (q := [de, new, UInt64.ofNat 0]) rfl]
      exact (hchildren hturns _).mpr ⟨as, has, rfl⟩

theorem run_blockRelUpdateDe_iff (h : img.OneCluster fatSectors total d de c)
    (hdot : (img.bpb.findDotDe (img.bpb.getCluster fatSectors new)).run .little d = .ok dot)
    (hdepth : img.dePerCluster.toNat < depth) :
    (emit (img.pkts fatSectors turns) (depth + 2) .blockRelUpdateDe [de, new]).run .little d = .ok ws ↔
      ¬ turns ≤ 1 ∧ ∃ as, List.Forall₂ (img.FindsDotdot fatSectors d c) (img.childDirs fatSectors d c) as ∧
        ws = (de :: dot :: as).flatMap fun a => img.bpb.deWrites img.clusterCount a new := by
  rw [run_emit_iff rfl]
  refine run_emitCalls_cons_iff.trans ⟨?_, ?_⟩
  · rintro ⟨ws₁, ws₂, h₁, h₂, rfl⟩
    rw [run_emitCall_eq rfl (q := [de, new]) rfl] at h₁
    rw [run_emitCalls_singleton_iff, run_emitCall_eq h.good (q := [de, new]) rfl] at h₂
    obtain rfl := (h.run_writeDeCn_iff de new).mp h₁
    obtain ⟨hturns, as, has, rfl⟩ := (h.run_writeFixDirRefs_iff hdot hdepth).mp h₂
    exact ⟨hturns, as, has, rfl⟩
  · rintro ⟨hturns, as, has, rfl⟩
    refine ⟨_, _, ?_, ?_, List.flatMap_cons⟩
    · rw [run_emitCall_eq rfl (q := [de, new]) rfl]
      exact (h.run_writeDeCn_iff de new).mpr rfl
    · rw [run_emitCalls_singleton_iff, run_emitCall_eq h.good (q := [de, new]) rfl]
      exact (h.run_writeFixDirRefs_iff hdot hdepth).mpr ⟨hturns, as, has, rfl⟩

/-- `block_relink`, for the first cluster. -/
theorem run_blockRelink_iff (h : img.OneCluster fatSectors total d de c)
    (hdot : (img.bpb.findDotDe (img.bpb.getCluster fatSectors new)).run .little d = .ok dot)
    (hnext : (img.bpb.getNthCnum fatSectors img.clusterCount de 2).run .little d = .ok next)
    (hdepth : img.dePerCluster.toNat < depth) (hfats : img.bpb.fatCount.toNat ≤ depth) :
    (emit (img.pkts fatSectors turns) (depth + 3) .blockRelink [de, 1, new]).run .little d = .ok ws ↔
      ¬ turns ≤ 1 ∧ ∃ as, List.Forall₂ (img.FindsDotdot fatSectors d c) (img.childDirs fatSectors d c) as ∧
        ws = ((de :: dot :: as).flatMap fun a => img.bpb.deWrites img.clusterCount a new) ++
          img.bpb.allFats fatSectors img.clusterCount new next := by
  have hlast : (do return [new, ← img.bpb.getNthCnum fatSectors img.clusterCount de 2] :
      Prog (List UInt64)).run .little d = .ok [new, next] := by
    rw [Prog.run_bind, hnext]
    rfl
  have hwrite : (emit (img.pkts fatSectors turns) (depth + 2) .writeFat [new, next]).run .little d =
      .ok (img.bpb.allFats fatSectors img.clusterCount new next) :=
    run_writeFat new next h.on.fats (by omega)
  rw [run_emit_iff rfl]
  refine run_emitCalls_cons_iff.trans ⟨?_, ?_⟩
  · rintro ⟨ws₁, ws₂, h₁, h₂, rfl⟩
    obtain ⟨ws₃, ws₄, h₃, h₄, rfl⟩ := run_emitCalls_cons_iff.mp h₂
    rw [run_emitCall_eq rfl (q := [de, new]) rfl] at h₁
    rw [run_emitCall_false rfl] at h₃
    rw [run_emitCalls_singleton_iff, run_emitCall_eq rfl hlast] at h₄
    obtain ⟨hturns, as, has, rfl⟩ := (h.run_blockRelUpdateDe_iff hdot hdepth).mp h₁
    obtain rfl := Except.ok.inj h₃
    obtain rfl := Except.ok.inj (hwrite.symm.trans h₄)
    exact ⟨hturns, as, has, rfl⟩
  · rintro ⟨hturns, as, has, rfl⟩
    refine ⟨_, _, ?_, run_emitCalls_cons_iff.mpr ⟨[], _, run_emitCall_false rfl, ?_, rfl⟩, rfl⟩
    · rw [run_emitCall_eq rfl (q := [de, new]) rfl]
      exact (h.run_blockRelUpdateDe_iff hdot hdepth).mpr ⟨hturns, as, has, rfl⟩
    · rw [run_emitCalls_singleton_iff, run_emitCall_eq rfl hlast]
      exact hwrite

end OneCluster

/-! ## The disk after the writes -/

/-- Entries to which the same number is written, one after the other, have it in the end. -/
theorem applyAll_flatMap_deWrites (h : OnDisk img.bpb fatSectors total img.clusterCount d)
    (hnew : img.bpb.InRange fatSectors img.clusterCount new.toNat) {as : List UInt64}
    (has : ∀ a ∈ as, DeOn d a) :
    (∀ a ∈ as, (firstCluster a).run .little
        (d.applyAll (as.flatMap fun a => img.bpb.deWrites img.clusterCount a new)) = .ok new) ∧
      (∀ k, (∀ a ∈ as, k < a.toNat ∨ a.toNat + 256 ≤ k) →
        (d.applyAll (as.flatMap fun a => img.bpb.deWrites img.clusterCount a new)).bit k = d.bit k) ∧
      ∀ we ∈ as.flatMap fun a => img.bpb.deWrites img.clusterCount a new, we.Fits d.size := by
  induction as generalizing d with
  | nil =>
    exact ⟨fun a ha => absurd ha List.not_mem_nil, fun _ _ => rfl,
      fun we hwe => absurd hwe List.not_mem_nil⟩
  | cons a as ih =>
    have ha : DeOn d a := has a (List.mem_cons_self ..)
    have h8 : 8 ∣ a.toNat := (show 8 ∣ 256 by norm_num).trans ha.aligned
    obtain ⟨hfirst, hother, hfits⟩ := deWrites_spec h h8 ha.inside hnew
    rw [UInt64.ofNat_toNat] at hfirst hother hfits
    set d₁ := d.applyAll (img.bpb.deWrites img.clusterCount a new) with hd₁
    have hsize : d₁.size = d.size := Disk.size_applyAll _ _
    have hrest (a' : UInt64) (ha' : a' ∈ as) : DeOn d₁ a' :=
      ⟨(has a' (List.mem_cons_of_mem _ ha')).aligned, hsize ▸ (has a' (List.mem_cons_of_mem _ ha')).inside⟩
    obtain ⟨hfirst', hother', hfits'⟩ := ih (h.of_size hsize) hrest
    have happly : d.applyAll ((a :: as).flatMap fun a => img.bpb.deWrites img.clusterCount a new) =
        d₁.applyAll (as.flatMap fun a => img.bpb.deWrites img.clusterCount a new) := by
      rw [List.flatMap_cons, Disk.applyAll_append]
    rw [happly]
    refine ⟨fun x hx => ?_, fun k hk => ?_, fun we hwe => ?_⟩
    · by_cases hmem : x ∈ as
      · exact hfirst' x hmem
      · -- nothing that is written later is at the first entry
        obtain rfl : x = a := (List.mem_cons.mp hx).resolve_right hmem
        rw [← hfirst]
        refine DeOn.run_firstCluster_congr ⟨ha.aligned, hsize ▸ ha.inside⟩ (hsize ▸ h.lines)
          (Disk.size_applyAll _ _) fun k hk hk' => hother' k fun a' ha' => ?_
        have hapart := ha.apart (has a' (List.mem_cons_of_mem _ ha')) fun heq => hmem (heq ▸ ha')
        omega
    · rw [hother' k fun a' ha' => hk a' (List.mem_cons_of_mem _ ha')]
      exact hother k (hk a (List.mem_cons_self ..))
    · rw [List.flatMap_cons, List.mem_append] at hwe
      exact hwe.elim (hfits we) fun hwe => hsize ▸ hfits' we hwe

/-! ## Moving the first cluster -/

/-- The first cluster of the entry at `de` can be moved and leads to other directories: the volume is not
a FAT12 one, whose entries of 12 bits are never written, and the entry is that of a directory with a
cluster. -/
def Moves (img : Image) (d : Disk) (de : UInt64) (cs : List UInt64) : Prop :=
  img.fatType ≠ .fat12 ∧ (isGoodDir de).run .little d = .ok true ∧ cs ≠ []

/-- Linking `new` in for the first cluster updates the '..' entry of every directory in the clusters
`cs`: where its own first cluster is one of the volume and has a '..' entry. -/
def DotdotsFollow (img : Image) (fatSectors : UInt64) (d : Disk) (de new : UInt64) (cs : List UInt64) :
    Prop :=
  ∃ turns depth d', Commits .little (img.pkts fatSectors turns) depth .blockRelink [de, 1, new] d d' ∧
    ∀ c ∈ cs, ∀ k ∈ img.childDirs fatSectors d c, ∀ j, j < img.dePerCluster.toNat →
      2 ≤ (FatDe.ofDisk d (img.slotAt fatSectors c k)).first.toNat →
      (FatDe.ofDisk d (img.slotAt fatSectors c k)).first.toNat < img.clusterCount.toNat + 2 →
      img.DotdotAt fatSectors d (img.slotAt fatSectors c k) j →
      (firstCluster (img.slotAt fatSectors (FatDe.ofDisk d (img.slotAt fatSectors c k)).first j)).run
        .little d' = .ok new

/-- The log of 64 writes has room for those to the entry, to its '.' entry, to a '..' entry for each
directory in the cluster, and to the FATs. -/
def LogRoom (img : Image) (fatSectors : UInt64) (d : Disk) (c : UInt64) : Prop :=
  4 + 2 * (img.childDirs fatSectors d c).length + img.bpb.fatCount.toNat ≤ 64

theorem exists_forall₂_iff {α β : Type} {F : α → β → Prop} {l : List α} :
    (∃ as, List.Forall₂ F l as) ↔ ∀ x ∈ l, ∃ a, F x a := by
  induction l with
  | nil => simp
  | cons x l ih =>
    rw [List.forall_mem_cons, ← ih]
    constructor
    · rintro ⟨as, has⟩
      obtain ⟨a, as, ha, hrest, rfl⟩ := List.forall₂_cons_left_iff.mp has
      exact ⟨⟨a, ha⟩, as, hrest⟩
    · rintro ⟨⟨a, ha⟩, as, has⟩
      exact ⟨a :: as, .cons ha has⟩

theorem exists_mem_of_forall₂ {α β : Type} {F : α → β → Prop} {l : List α} {as : List β}
    (h : List.Forall₂ F l as) : (∀ x ∈ l, ∃ a ∈ as, F x a) ∧ ∀ a ∈ as, ∃ x ∈ l, F x a := by
  induction h with
  | nil => simp
  | cons hxa _ ih =>
    constructor
    · rintro x hx
      rcases List.mem_cons.mp hx with rfl | hx
      · exact ⟨_, List.mem_cons_self .., hxa⟩
      · obtain ⟨a, ha, hF⟩ := ih.1 x hx
        exact ⟨a, List.mem_cons_of_mem _ ha, hF⟩
    · rintro a ha
      rcases List.mem_cons.mp ha with rfl | ha
      · exact ⟨_, List.mem_cons_self .., hxa⟩
      · obtain ⟨x, hx, hF⟩ := ih.2 a ha
        exact ⟨x, List.mem_cons_of_mem _ hx, hF⟩

namespace OneCluster

theorem deOn_childDir (h : img.OneCluster fatSectors total d de c)
    (hk : k ∈ img.childDirs fatSectors d c) : DeOn d (img.slotAt fatSectors c k) :=
  h.deOn_slotAt (List.mem_range.mp (List.mem_filter.mp hk).1)

theorem searchable_iff (h : img.OneCluster fatSectors total d de c) :
    (∃ as, List.Forall₂ (img.FindsDotdot fatSectors d c) (img.childDirs fatSectors d c) as) ↔
      ∀ k ∈ img.childDirs fatSectors d c, img.Searchable fatSectors d (img.slotAt fatSectors c k) :=
  exists_forall₂_iff.trans (forall₂_congr fun _ hk =>
    (h.on.searchable_iff h.onDisk (h.deOn_childDir hk)).symm)

theorem exists_run_getNthCnum (h : img.OneCluster fatSectors total d de c) :
    ∃ next, (img.bpb.getNthCnum fatSectors img.clusterCount de 2).run .little d = .ok next := by
  have hin := h.bounds.2.1
  rw [Bpb.getNthCnum, Prog.run_bind, run_firstCluster_eq h.deOn h.on.lines, ok_bind, h.first_eq]
  by_cases heof : img.isEof c = true
  · exact ⟨c, h.on.run_fatChainNthCnum (t := 1) (by rw [Image.fatChainNthCnum, if_pos heof])⟩
  · refine ⟨img.ent c, h.on.run_fatChainNthCnum (t := 1) ?_⟩
    rw [Image.fatChainNthCnum, if_neg heof, fatNext, if_pos hin]
    rfl

/-- The writes of `block_relink`. -/
theorem length_relinkWrites {as : List UInt64} (new next : UInt64)
    (has : List.Forall₂ (img.FindsDotdot fatSectors d c) (img.childDirs fatSectors d c) as) :
    (((de :: dot :: as).flatMap fun a => img.bpb.deWrites img.clusterCount a new) ++
      img.bpb.allFats fatSectors img.clusterCount new next).length =
      4 + 2 * (img.childDirs fatSectors d c).length + img.bpb.fatCount.toNat := by
  have hpair : ∀ a, (img.bpb.deWrites img.clusterCount a new).length = 2 := fun _ => rfl
  rw [List.length_append, length_allFats, List.length_flatMap, has.length_eq]
  simp only [hpair, List.map_const', List.sum_replicate, List.length_cons, smul_eq_mul]
  omega

/-- The '..' entry that `find_dotdot_de` finds in a directory names the new cluster after the writes. -/
theorem run_firstCluster_relinked (h : img.OneCluster fatSectors total d de c)
    (hnew : img.bpb.InRange fatSectors img.clusterCount new.toNat) {as : List UInt64}
    (hall : ∀ a ∈ de :: dot :: as, DeOn d a)
    (has : List.Forall₂ (img.FindsDotdot fatSectors d c) (img.childDirs fatSectors d c) as)
    (next : UInt64) {k j : ℕ} (hk : k ∈ img.childDirs fatSectors d c) (hj : j < img.dePerCluster.toNat)
    (hlo : 2 ≤ (FatDe.ofDisk d (img.slotAt fatSectors c k)).first.toNat)
    (hlt : (FatDe.ofDisk d (img.slotAt fatSectors c k)).first.toNat < img.clusterCount.toNat + 2)
    (hdotdot : img.DotdotAt fatSectors d (img.slotAt fatSectors c k) j) :
    (firstCluster (img.slotAt fatSectors (FatDe.ofDisk d (img.slotAt fatSectors c k)).first j)).run
      .little (d.applyAll (((de :: dot :: as).flatMap fun a => img.bpb.deWrites img.clusterCount a new) ++
        img.bpb.allFats fatSectors img.clusterCount new next)) = .ok new := by
  obtain ⟨a, ha, hF⟩ := (exists_mem_of_forall₂ has).1 k hk
  -- `find_dotdot_de` has found this slot
  have hF' := (h.on.run_findDotdotDe_iff h.onDisk (h.deOn_childDir hk)).mpr
    (Or.inl ⟨j, hj, hdotdot, rfl⟩)
  obtain rfl := Except.ok.inj (hF.symm.trans hF')
  obtain ⟨hfirst, -, -⟩ := applyAll_flatMap_deWrites h.onDisk hnew hall
  obtain ⟨hat, hon⟩ := On.toNat_slotAt h.onDisk hlo hlt hj
  have hbounds := (h.onDisk.getCluster_bounds hlo hlt).1
  have hend := h.onDisk.fatsEnd_le
  rw [Disk.applyAll_append]
  set d₁ := d.applyAll ((de :: dot :: as).flatMap fun a => img.bpb.deWrites img.clusterCount a new)
    with hd₁
  have hsize : d₁.size = d.size := Disk.size_applyAll _ _
  rw [DeOn.run_firstCluster_congr ⟨hon.aligned, hsize ▸ hon.inside⟩ (hsize ▸ h.on.lines)
    (Disk.size_applyAll _ _) fun k hk _ =>
      (h.onDisk.of_size hsize).bit_allFats hnew next (by omega)]
  exact hfirst _ (List.mem_cons_of_mem _ (List.mem_cons_of_mem _ ha))

/-- The '..' entries of all directories in the cluster follow it exactly if the log has room for them and
the slots can be read among which they are looked for. -/
theorem dotdotsFollow_iff (h : img.OneCluster fatSectors total d de c)
    (hnew : img.bpb.InRange fatSectors img.clusterCount new.toNat) :
    img.DotdotsFollow fatSectors d de new [c] ↔ img.LogRoom fatSectors d c ∧
      ∀ k ∈ img.childDirs fatSectors d c, img.Searchable fatSectors d (img.slotAt fatSectors c k) := by
  obtain ⟨dot, hdot, hdotOn⟩ := On.exists_run_findDotDe h.onDisk hnew.two_le hnew.lt
  obtain ⟨next, hnext⟩ := h.exists_run_getNthCnum
  constructor
  · rintro ⟨turns, depth, d', ⟨ws, hemit, hroom, -, -⟩, -⟩
    have hmore := run_emit_mono (show depth ≤ depth + img.dePerCluster.toNat +
      img.bpb.fatCount.toNat + 1 + 3 by omega) hemit
    obtain ⟨-, as, has, rfl⟩ := (h.run_blockRelink_iff hdot hnext (by omega) (by omega)).mp hmore
    rw [length_relinkWrites new next has] at hroom
    exact ⟨hroom, h.searchable_iff.mp ⟨as, has⟩⟩
  · rintro ⟨hroom, hsearch⟩
    obtain ⟨as, has⟩ := h.searchable_iff.mpr hsearch
    have hfound (k : ℕ) (hk : k ∈ img.childDirs fatSectors d c) {a : UInt64}
        (ha : img.FindsDotdot fatSectors d c k a) : DeOn d a :=
      h.on.deOn_of_run_findDotdotDe h.onDisk (h.deOn_childDir hk) ha
    have hall : ∀ a ∈ de :: dot :: as, DeOn d a := by
      intro a ha
      rcases List.mem_cons.mp ha with rfl | ha
      · exact h.deOn
      rcases List.mem_cons.mp ha with rfl | ha
      · exact hdotOn
      · obtain ⟨k, hk, hF⟩ := (exists_mem_of_forall₂ has).2 a ha
        exact hfound k hk hF
    obtain ⟨-, -, hfits⟩ := applyAll_flatMap_deWrites h.onDisk hnew hall
    refine ⟨2, img.dePerCluster.toNat + img.bpb.fatCount.toNat + 1 + 3, _,
      ⟨_, (h.run_blockRelink_iff hdot hnext (by omega) (by omega)).mpr ⟨by norm_num, as, has, rfl⟩,
        (length_relinkWrites new next has).trans_le hroom, fun we hwe => ?_, rfl⟩, ?_⟩
    · rcases List.mem_append.mp hwe with hwe | hwe
      · exact hfits we hwe
      · exact h.onDisk.allFats_fits hnew next we hwe
    · rintro c' hc' k hk j hj hlo hlt hdotdot
      obtain rfl := List.mem_singleton.mp hc'
      exact h.run_firstCluster_relinked hnew hall has next hk hj hlo hlt hdotdot

end OneCluster

/-- `get_nth_de` goes through the slots of a valid chain without a repetition, and the '..' entries of the
directories there follow the first cluster, exactly if `de_cluster_count` is the length of the chain,
this is at most 1, the log has room, and the slots can be read among which `find_dotdot_de` looks. -/
theorem slots_enumerated_iff (h : img.On fatSectors total d) (hde : DeOn d de)
    (hnew : img.bpb.InRange fatSectors img.clusterCount new.toNat) {cs : List UInt64}
    (hchain : img.ChainFrom (FatDe.ofDisk d de).first cs) (hnodup : cs.Nodup) :
    (img.Enumerates (FatDe.ofDisk d de) cs ∧
        (img.Moves d de cs → img.DotdotsFollow fatSectors d de new cs)) ↔
      (img.clustersOf (FatDe.ofDisk d de) cs.length = cs.length ∧ cs.length ≤ 1) ∧
        (img.Moves d de cs → ∀ c ∈ cs, img.LogRoom fatSectors d c ∧
          ∀ k ∈ img.childDirs fatSectors d c,
            img.Searchable fatSectors d (img.slotAt fatSectors c k)) := by
  rw [enumerates_iff_of_chain img _ hchain hnodup]
  refine and_congr_right fun hone => forall_congr' fun hmoves => ?_
  obtain ⟨hwide, hgood, hne⟩ := hmoves
  obtain ⟨c, rfl⟩ : ∃ c, cs = [c] := List.length_eq_one_iff.mp
    (Nat.le_antisymm hone.2 (List.length_pos_of_ne_nil hne))
  rw [OneCluster.dotdotsFollow_iff ⟨h, hwide, hde, hgood, hchain⟩ hnew, List.forall_mem_singleton]

/-- The cells of a FAT32 volume of ten sectors: cluster 2 is a directory, whose entry is in cluster 5, and
cluster 3 is a directory in it. -/
def dirCell : ℕ → ℕ
  | 128 => 0x0ffffff8
  | 129 => 0xffffffff
  | 130 => 0xffffffff
  | 131 => 0xffffffff
  | 133 => 0xffffffff
  | 256 => 0x20202042
  | 257 => 0x20202020
  | 258 => 0x10202020
  | 262 => 3 * 2 ^ 16
  | 384 => 0x20202e2e
  | 385 => 0x20202020
  | 386 => 0x10202020
  | 390 => 2 * 2 ^ 16
  | 640 => 0x20202041
  | 641 => 0x20202020
  | 642 => 0x10202020
  | 646 => 2 * 2 ^ 16
  | _ => 0

theorem dirDisk_size : 5120 < 2 ^ 61 := by norm_num

def dirDisk : Disk := Disk.ofCells 5120 32 dirCell dirDisk_size

theorem dirCell_lt (k : ℕ) : dirCell k < 2 ^ 32 := by
  unfold dirCell
  split <;> norm_num

/-- The image of this volume. -/
def dirImage : Image where
  bpb := sampleBpb
  clusterCount := 8
  count_eq := rfl
  passes := rfl
  ent := fun cn => UInt64.ofNat (dirCell (128 + cn.toNat))
  ent_lt := by
    intro cn
    have hlt := dirCell_lt (128 + cn.toNat)
    rw [UInt64.toNat_ofNat_of_lt' (show _ < 2 ^ 64 by omega)]
    exact hlt

theorem dirDisk_num {k n : ℕ} (off : ℕ) (hoff : off + n ≤ 32) (hk : k < 1280) :
    dirDisk.num (32 * k + off) n = dirCell k / 2 ^ off % 2 ^ n :=
  Disk.num_ofCells_within _ hoff (by omega)

theorem dirImage_on : dirImage.On 1 10 dirDisk :=
  { toConsistent := (sample_onDisk 0).toConsistent
    lines := show 32 ∣ 5120 by norm_num
    inside := by
      show (sampleBpb.clusters 1).toNat + 8 * sampleBpb.clusterBits.toNat ≤ 8 * 5120
      decide
    reads := fun cn hcn => by
      have hlt : cn.toNat < 10 := UInt64.lt_iff_toNat_lt.mp hcn
      have haddr : (sampleBpb.ent 1 .fat32 0 cn).toNat = 32 * (128 + cn.toNat) + 0 := by
        have hent : (sampleBpb.ent 1 .fat32 0 cn).toNat = sampleBpb.entAt 1 8 0 cn.toNat :=
          toNat_ent (b := sampleBpb) (by decide) (by decide) (by omega)
        rw [hent]
        show 4096 * (1 + 0 * 1) + cn.toNat * 32 = _
        omega
      have hw : Pread.WriteWidth (sampleBpb.ent 1 .fat32 0 cn).toNat 32 := by
        rw [haddr]
        exact Or.inr (by omega)
      show (Prog.field (sampleBpb.ent 1 .fat32 0 cn) 32 Width.of32).run .little dirDisk = _
      have hin : 32 * (128 + cn.toNat) + 0 + 32 ≤ 8 * dirDisk.size := by
        show _ ≤ 8 * 5120
        omega
      rw [Prog.run_field_num (show 32 ∣ 5120 by norm_num) Width.of32 hw, haddr, if_pos hin,
        dirDisk_num 0 (by norm_num) (by omega), pow_zero, Nat.div_one, Nat.mod_eq_of_lt (dirCell_lt _)]
      rfl }

/-- The fields of an entry, from its cells. -/
theorem ofDisk_dirDisk {a : UInt64} {q : ℕ} (ha : a.toNat = 32 * q) (hq : q + 8 ≤ 1280) :
    FatDe.ofDisk dirDisk a = ⟨UInt8.ofNat (dirCell (q + 2) / 2 ^ 24 % 2 ^ 8),
      UInt16.ofNat (dirCell (q + 5) / 2 ^ 0 % 2 ^ 16), UInt16.ofNat (dirCell (q + 6) / 2 ^ 16 % 2 ^ 16),
      UInt32.ofNat (dirCell (q + 7) / 2 ^ 0 % 2 ^ 32)⟩ := by
  rw [FatDe.ofDisk, ha, show 32 * q + 88 = 32 * (q + 2) + 24 by omega,
    show 32 * q + 160 = 32 * (q + 5) + 0 by omega, show 32 * q + 208 = 32 * (q + 6) + 16 by omega,
    show 32 * q + 224 = 32 * (q + 7) + 0 by omega, dirDisk_num 24 (by norm_num) (by omega),
    dirDisk_num 0 (by norm_num) (by omega), dirDisk_num 16 (by norm_num) (by omega),
    dirDisk_num 0 (by norm_num) (by omega)]

/-- What `is_good_dir` and `is_dotdot_ref` read of an entry. -/
theorem dirDisk_fields {a : UInt64} {q : ℕ} (ha : a.toNat = 32 * q) (hdvd : 8 ∣ q) (hq : q + 8 ≤ 1280) :
    DeOn dirDisk a ∧
      (Prog.field a 8).run .little dirDisk = .ok (UInt64.ofNat (dirCell q / 2 ^ 0 % 2 ^ 8)) ∧
      (Prog.field (a + 8) 8).run .little dirDisk = .ok (UInt64.ofNat (dirCell q / 2 ^ 8 % 2 ^ 8)) ∧
      (Prog.field (a + 16) 8).run .little dirDisk = .ok (UInt64.ofNat (dirCell q / 2 ^ 16 % 2 ^ 8)) ∧
      (Prog.field (a + 88) 8).run .little dirDisk =
        .ok (UInt64.ofNat (dirCell (q + 2) / 2 ^ 24 % 2 ^ 8)) ∧
      (Prog.field (a + 224) 32).run .little dirDisk =
        .ok (UInt64.ofNat (dirCell (q + 7) / 2 ^ 0 % 2 ^ 32)) := by
  have hlines : 32 ∣ dirDisk.size := show 32 ∣ 5120 by norm_num
  have hon : DeOn dirDisk a := ⟨by omega, by rw [ha]; show _ ≤ 8 * 5120; omega⟩
  have hname (k : ℕ) (hk : k + 8 ≤ 32) : dirDisk.num (a.toNat + k) 8 = dirCell q / 2 ^ k % 2 ^ 8 := by
    rw [ha]
    exact dirDisk_num k hk (by omega)
  have hzero := hon.run_field hlines 0 (k := 0) rfl Width.of8 (by decide)
  rw [UInt64.add_zero, hname 0 (by norm_num)] at hzero
  refine ⟨hon, hzero, ?_, ?_, ?_, ?_⟩
  · rw [hon.run_field hlines 8 (k := 8) rfl Width.of8 (by decide), hname 8 (by norm_num)]
  · rw [hon.run_field hlines 16 (k := 16) rfl Width.of8 (by decide), hname 16 (by norm_num)]
  · rw [hon.run_field hlines 88 (k := 88) rfl Width.of8 (by decide), ha,
      show 32 * q + 88 = 32 * (q + 2) + 24 by omega, dirDisk_num 24 (by norm_num) (by omega)]
  · rw [hon.run_field hlines 224 (k := 224) rfl Width.of32 (by decide), ha,
      show 32 * q + 224 = 32 * (q + 7) + 0 by omega, dirDisk_num 0 (by norm_num) (by omega)]

/-- The entry `A` in cluster 5 and the entry `B` in cluster 2 are those of directories. -/
theorem dirDisk_isGoodDir {a : UInt64} {q : ℕ} (ha : a.toNat = 32 * q) (hq : q = 640 ∨ q = 256) :
    (isGoodDir a).run .little dirDisk = .ok true := by
  obtain ⟨-, hname, -, -, hattr, hsize⟩ := dirDisk_fields ha (by omega) (by omega)
  have hdir : (isDeDir a).run .little dirDisk = .ok true :=
    run_isDeDir_of_fields hsize hattr (by rcases hq with rfl | rfl <;> decide)
      (by rcases hq with rfl | rfl <;> decide)
  have hback : (isBackRef a).run .little dirDisk = .ok false := by
    rw [isBackRef, Prog.run_bind, hname, ok_bind, if_neg (by rcases hq with rfl | rfl <;> decide)]
    rfl
  rw [isGoodDir, Prog.run_bind, hdir, ok_bind, if_neg (by decide), Prog.run_bind, hback]
  rfl

/-- The first entry of cluster 3 is '..'. -/
theorem dirDisk_dotdot : Named dirDisk isDotdotRef 12288 := by
  obtain ⟨-, h0, h8, h16, hattr, hsize⟩ :=
    dirDisk_fields (a := 12288) (q := 384) rfl (by norm_num) (by norm_num)
  have hback : (isBackRef 12288).run .little dirDisk = .ok true := by
    rw [isBackRef, Prog.run_bind, h0, ok_bind, if_pos (by decide), Prog.run_bind, h8, ok_bind,
      if_neg (by decide), Prog.run_bind, h8, ok_bind, if_pos (by decide), Prog.run_bind, h16, ok_bind]
    rfl
  rw [Named, isDirRef, Prog.run_bind, run_isDeDir_of_fields hsize hattr (by decide) (by decide), ok_bind,
    if_pos rfl, isDotdotRef, Prog.run_bind, hback, ok_bind, if_neg (by decide), Prog.run_bind, h8, ok_bind,
    if_neg (by decide)]
  rfl

/-- Only the first entry of cluster 2 leads to a cluster. -/
theorem dirDisk_first {k : ℕ} (hk : k < 16) :
    (FatDe.ofDisk dirDisk (dirImage.slotAt 1 2 k)).first = if k = 0 then 3 else 0 := by
  have hslot : ∀ k, k < 16 → (dirImage.slotAt 1 2 k).toNat = 32 * (256 + 8 * k) := by decide
  have hcells : ∀ k, k < 16 → (UInt16.ofNat (dirCell (256 + 8 * k + 6) / 2 ^ 16 % 2 ^ 16)).toUInt64 +
      (UInt16.ofNat (dirCell (256 + 8 * k + 5) / 2 ^ 0 % 2 ^ 16)).toUInt64 <<< 16 =
        if k = 0 then 3 else 0 := by decide
  rw [ofDisk_dirDisk (hslot k hk) (by omega)]
  exact hcells k hk

/-- The '..' entry in cluster 3 follows the directory from cluster 2 to cluster 4. -/
theorem slots_enumerated_iff_one : dirImage.Enumerates (FatDe.ofDisk dirDisk 20480) [2] ∧
    ∃ turns depth d', Commits .little (dirImage.pkts 1 turns) depth .blockRelink [20480, 1, 4] dirDisk d' ∧
      (firstCluster 12288).run .little d' = .ok 4 := by
  have hde : FatDe.ofDisk dirDisk 20480 = ⟨0x10, 0, 2, 0⟩ := ofDisk_dirDisk (q := 640) rfl (by norm_num)
  have hon : DeOn dirDisk 20480 := (dirDisk_fields (q := 640) rfl (by norm_num) (by norm_num)).1
  have hchain : dirImage.ChainFrom (FatDe.ofDisk dirDisk 20480).first [2] := by
    rw [hde]
    exact .cons (by decide) (by decide) (.nil (by decide))
  have hnew : dirImage.bpb.InRange 1 dirImage.clusterCount (4 : UInt64).toNat :=
    sample_inRange (by decide) (by decide)
  have hslots : ∀ c : UInt64, c = 3 ∨ c = 0 → ∀ j, j < 16 → DeOn dirDisk (dirImage.slotAt 1 c j) := by
    have hthree : ∀ j, j < 16 → (dirImage.slotAt 1 3 j).toNat % 256 = 0 ∧
        (dirImage.slotAt 1 3 j).toNat + 256 ≤ 8 * 5120 := by decide
    have hnone : ∀ j, j < 16 → (dirImage.slotAt 1 0 j).toNat % 256 = 0 ∧
        (dirImage.slotAt 1 0 j).toNat + 256 ≤ 8 * 5120 := by decide
    rintro c (rfl | rfl) j hj
    · exact ⟨Nat.dvd_of_mod_eq_zero (hthree j hj).1, (hthree j hj).2⟩
    · exact ⟨Nat.dvd_of_mod_eq_zero (hnone j hj).1, (hnone j hj).2⟩
  have hroom : dirImage.LogRoom 1 dirDisk 2 := by
    have hle := List.length_filter_le (fun k => accepts dirDisk (dirImage.slotAt 1 2 k)) (List.range 16)
    have hper : dirImage.dePerCluster.toNat = 16 := by decide
    have hfats : dirImage.bpb.fatCount.toNat = 1 := rfl
    rw [List.length_range] at hle
    rw [LogRoom, childDirs, hper, hfats]
    omega
  obtain ⟨henum, hfollow⟩ := (slots_enumerated_iff dirImage_on hon hnew hchain (by decide)).mpr
    ⟨by rw [hde]; decide, fun _ c hc => by
      obtain rfl := List.mem_singleton.mp hc
      refine ⟨hroom, fun k hk => Or.inl fun j hj => hslots _ ?_ j hj⟩
      rw [dirDisk_first (List.mem_range.mp (List.mem_filter.mp hk).1)]
      split
      · exact Or.inl rfl
      · exact Or.inr rfl⟩
  obtain ⟨turns, depth, d', hcommits, hdotdots⟩ := hfollow
    ⟨by decide, dirDisk_isGoodDir (q := 640) rfl (Or.inl rfl), List.cons_ne_nil _ _⟩
  refine ⟨henum, turns, depth, d', hcommits, ?_⟩
  have hfirst : (FatDe.ofDisk dirDisk (dirImage.slotAt 1 2 0)).first = 3 := dirDisk_first (by norm_num)
  have hchild : (0 : ℕ) ∈ dirImage.childDirs 1 dirDisk 2 := List.mem_filter.mpr
    ⟨List.mem_range.mpr (by decide), accepts_eq_true_iff.mpr (dirDisk_isGoodDir (q := 256) (by decide)
      (Or.inr rfl))⟩
  have hdotdot := hdotdots 2 (List.mem_singleton.mpr rfl) 0 hchild 0 (by decide)
  rw [hfirst] at hdotdot
  refine hdotdot (by decide) (by decide) (foundAt_zero_iff.mpr ?_)
  rw [hfirst]
  exact dirDisk_dotdot

end Image

end Fsl.Vfat
