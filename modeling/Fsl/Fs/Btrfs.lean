import Fsl.Runtime.Prog

/-!
# btrfs chunks

`fs/btrfs_funcs.fsl`: logical addresses are translated by a scan of the leaf of the chunk tree. The keys
of a leaf stand at its front, and the data of its items, in the opposite order, at its end.
-/

namespace Fsl.Btrfs

/-- The fields of `btrfs_disk_key` that the scan reads. -/
structure DiskKey where
  keytype : UInt8
  offset : UInt64
  deriving DecidableEq, Repr

/-- The fields of `btrfs_chunk_item` that the scan reads: `length` and `stripe[0].offset`. -/
structure ChunkItem where
  length : UInt64
  stripeOffset : UInt64
  deriving DecidableEq, Repr

/-- `btrfs_item_dat(item_hdr)`: the key of its header, and what stands there, read as a chunk item. -/
structure ItemDat where
  itemHdr : DiskKey
  dat : ChunkItem

/-- `btrfs_node`: the header, `leaf.items[i].key`, and `leaf.itemdat[i]`, read as a chunk item. -/
structure Node where
  nritems : UInt32
  level : UInt8
  items : ℕ → DiskKey
  itemdat : ℕ → ChunkItem

/-- `BTRFS_CHUNK_ITEM_KEY` -/
def chunkItemKey : UInt8 := 228

/-- The field `chunk` is there only for a chunk item: `fsl_fail` stands for its offset in the others. -/
def ItemDat.chunk (itd : ItemDat) : Except Stop ChunkItem := do
  fslAssert (itd.itemHdr.keytype = chunkItemKey)
  return itd.dat

namespace Node

variable (l : Node)

def getLeafKeyNth (n : UInt64) : Except Stop DiskKey := do
  fslAssert (l.nritems.toUInt64 > n)
  fslAssert (l.level = 0)
  return l.items n.toNat

/-- The parameter of `itemdat` is `items[(nritems - 1) - @]`, but `replaceClosure` has put 0 in the place
of the index when the path is compiled, so that every element gets the header of the last item. -/
def getLeafDatNth (n : UInt64) : Except Stop ItemDat := do
  fslAssert (l.nritems.toUInt64 > n)
  fslAssert (l.level = 0)
  return ⟨l.items (l.nritems.toUInt64 - 1 - 0).toNat, l.itemdat (l.nritems.toUInt64 - (n + 1)).toNat⟩

/-- The loop of `chunktree_xlate_offset` from item `i` on, with `rest` items behind it. -/
def xlateLoop (off : UInt64) (i : ℕ) : ℕ → Except Stop UInt64
  | 0 => return 0
  | rest + 1 => do
    let k ← l.getLeafKeyNth (UInt64.ofNat i)
    if k.offset < off ∧ k.keytype = chunkItemKey then
      let itd ← l.getLeafDatNth (UInt64.ofNat i)
      let chunk ← itd.chunk
      if k.offset + chunk.length > off then return (off - k.offset) + chunk.stripeOffset
      else xlateLoop off (i + 1) rest
    else xlateLoop off (i + 1) rest

def chunktreeXlateOffset (off : UInt64) : Except Stop UInt64 := do
  fslAssert (l.level = 0)
  l.xlateLoop off 0 l.nritems.toNat

/-! ## Chunks -/

/-- The data of item `i`. -/
def dat (i : ℕ) : ChunkItem := l.itemdat (l.nritems.toNat - (i + 1))

/-- Item `i` is a chunk item. -/
def IsChunk (i : ℕ) : Prop := i < l.nritems.toNat ∧ (l.items i).keytype = chunkItemKey

/-- Address `off` lies in the range of chunk item `i`. -/
def InChunk (i : ℕ) (off : UInt64) : Prop :=
  l.IsChunk i ∧ (l.items i).offset.toNat ≤ off.toNat ∧
    off.toNat < (l.items i).offset.toNat + (l.dat i).length.toNat

/-- A leaf whose chunks are disjoint and end below `2 ^ 64`. -/
structure ChunkLeaf : Prop where
  level : l.level = 0
  fits : ∀ i, l.IsChunk i → (l.items i).offset.toNat + (l.dat i).length.toNat < 2 ^ 64
  disjoint : ∀ i j off, l.InChunk i off → l.InChunk j off → i = j

/-- The translation of an address: in its chunk, or 0 if it lies in none. -/
def Translates (off : UInt64) : Prop :=
  (∀ i, l.InChunk i off →
    l.chunktreeXlateOffset off = .ok ((l.dat i).stripeOffset + (off - (l.items i).offset))) ∧
    ((∀ i, ¬ l.InChunk i off) → l.chunktreeXlateOffset off = .ok 0)

/-- What the scan looks for. -/
def Found (off : UInt64) (i : ℕ) : Prop := l.InChunk i off ∧ (l.items i).offset < off

/-- The last item is a chunk item. -/
def LastIsChunk : Prop := l.IsChunk (l.nritems.toNat - 1)

/-- Chunk item `i` begins before the address, so that the scan reads its data. -/
def Reads (off : UInt64) (i : ℕ) : Prop := l.IsChunk i ∧ (l.items i).offset < off

variable {l} {off : UInt64}

section Turn

variable {i : ℕ} (hi : i < l.nritems.toNat)
include hi

theorem ofNat_lt_nritems : l.nritems.toUInt64 > UInt64.ofNat i ∧ (UInt64.ofNat i).toNat = i := by
  have hlt := l.nritems.toNat_lt
  have hn : l.nritems.toUInt64.toNat = l.nritems.toNat := rfl
  have hin : (UInt64.ofNat i).toNat = i := UInt64.toNat_ofNat_of_lt' (by norm_num [UInt64.size]; omega)
  refine ⟨?_, hin⟩
  rw [gt_iff_lt, UInt64.lt_iff_toNat_lt, hin, hn]
  exact hi

theorem ChunkLeaf.getLeafKeyNth_eq (h : l.ChunkLeaf) :
    l.getLeafKeyNth (UInt64.ofNat i) = .ok (l.items i) := by
  obtain ⟨hgt, hin⟩ := ofNat_lt_nritems hi
  unfold getLeafKeyNth
  rw [fslAssert_of hgt, fslAssert_of h.level, hin]
  rfl

/-- The element has the data of its item and the header of the last one. -/
theorem ChunkLeaf.getLeafDatNth_eq (h : l.ChunkLeaf) :
    l.getLeafDatNth (UInt64.ofNat i) = .ok ⟨l.items (l.nritems.toNat - 1), l.dat i⟩ := by
  obtain ⟨hgt, hin⟩ := ofNat_lt_nritems hi
  have hlt := l.nritems.toNat_lt
  have hn : l.nritems.toUInt64.toNat = l.nritems.toNat := rfl
  have hi1 : (UInt64.ofNat i + 1).toNat = i + 1 := by
    rw [UInt64.toNat_add, hin]
    exact Nat.mod_eq_of_lt (by show i + 1 < 2 ^ 64; omega)
  have hidx : (l.nritems.toUInt64 - (UInt64.ofNat i + 1)).toNat = l.nritems.toNat - (i + 1) := by
    rw [UInt64.toNat_sub_of_le _ _ (by rw [UInt64.le_iff_toNat_le, hi1, hn]; omega), hi1, hn]
  have hone : (1 : UInt64) ≤ l.nritems.toUInt64 := by
    rw [UInt64.le_iff_toNat_le, hn]
    exact Nat.one_le_of_lt hi
  have hlast : (l.nritems.toUInt64 - 1 - 0).toNat = l.nritems.toNat - 1 := by
    rw [UInt64.sub_zero, UInt64.toNat_sub_of_le _ _ hone, hn]
    rfl
  unfold getLeafDatNth
  rw [fslAssert_of hgt, fslAssert_of h.level, hidx, hlast]
  rfl

/-- Where the last item is no chunk, the data of a chunk cannot be read. -/
theorem ChunkLeaf.chunk_eq (h : l.ChunkLeaf) :
    (l.getLeafDatNth (UInt64.ofNat i) >>= ItemDat.chunk) =
      if (l.items (l.nritems.toNat - 1)).keytype = chunkItemKey then .ok (l.dat i)
      else .error .assertion := by
  rw [h.getLeafDatNth_eq hi, ok_bind, ItemDat.chunk]
  split
  · next hkey => rw [fslAssert_of hkey]; rfl
  · next hkey => rw [fslAssert_of_not hkey]; rfl

/-- One turn of the loop. The loop goes on after an item that begins no chunk before the address; after
one that does, the data are read; the item is the one, or the loop goes on. -/
theorem ChunkLeaf.xlateLoop_succ (h : l.ChunkLeaf) (off : UInt64) (rest : ℕ) :
    (l.Found off i → l.LastIsChunk → l.xlateLoop off i (rest + 1) =
        .ok ((l.dat i).stripeOffset + (off - (l.items i).offset))) ∧
      (¬ l.Found off i → (l.Reads off i → l.LastIsChunk) →
        l.xlateLoop off i (rest + 1) = l.xlateLoop off (i + 1) rest) ∧
      (l.Reads off i → ¬ l.LastIsChunk → l.xlateLoop off i (rest + 1) = .error .assertion) := by
  have hlt : l.nritems.toNat - 1 < l.nritems.toNat := by omega
  have hend : l.IsChunk i → ((l.items i).offset + (l.dat i).length > off ↔
      off.toNat < (l.items i).offset.toNat + (l.dat i).length.toNat) := by
    intro hchunk
    rw [gt_iff_lt, UInt64.lt_iff_toNat_lt, UInt64.toNat_add, Nat.mod_eq_of_lt (h.fits i hchunk)]
  have hloop : l.xlateLoop off i (rest + 1) =
      if (l.items i).offset < off ∧ (l.items i).keytype = chunkItemKey then
        (l.getLeafDatNth (UInt64.ofNat i) >>= ItemDat.chunk) >>= fun chunk =>
          if (l.items i).offset + chunk.length > off then
            .ok ((off - (l.items i).offset) + chunk.stripeOffset)
          else l.xlateLoop off (i + 1) rest
      else l.xlateLoop off (i + 1) rest := by
    rw [xlateLoop, h.getLeafKeyNth_eq hi, ok_bind, bind_assoc]
    rfl
  rw [hloop, h.chunk_eq hi]
  by_cases hcond : (l.items i).offset < off ∧ (l.items i).keytype = chunkItemKey
  · have hreads : l.Reads off i := ⟨⟨hi, hcond.2⟩, hcond.1⟩
    have hle := UInt64.lt_iff_toNat_lt.mp hcond.1
    rw [if_pos hcond]
    by_cases hkey : (l.items (l.nritems.toNat - 1)).keytype = chunkItemKey
    · have hlastChunk : l.LastIsChunk := ⟨hlt, hkey⟩
      rw [if_pos hkey, ok_bind]
      by_cases hlast : (l.items i).offset + (l.dat i).length > off
      · have hfound : l.Found off i := ⟨⟨hreads.1, hle.le, (hend hreads.1).mp hlast⟩, hcond.1⟩
        rw [if_pos hlast, UInt64.add_comm]
        exact ⟨fun _ _ => rfl, fun hnot => absurd hfound hnot, fun _ hnot => absurd hlastChunk hnot⟩
      · rw [if_neg hlast]
        exact ⟨fun hfound => absurd ((hend hreads.1).mpr hfound.1.2.2) hlast, fun _ _ => rfl,
          fun _ hnot => absurd hlastChunk hnot⟩
    · have hnot : ¬ l.LastIsChunk := fun hlastChunk => hkey hlastChunk.2
      rw [if_neg hkey]
      exact ⟨fun _ hlastChunk => absurd hlastChunk hnot, fun _ himp => absurd (himp hreads) hnot,
        fun _ _ => rfl⟩
  · rw [if_neg hcond]
    exact ⟨fun hfound => absurd ⟨hfound.2, hfound.1.1.2⟩ hcond, fun _ _ => rfl,
      fun hreads => absurd ⟨hreads.2, hreads.1.2⟩ hcond⟩

end Turn

/-- The whole loop, by induction on the items that are left. -/
theorem ChunkLeaf.xlateLoop_eq (h : l.ChunkLeaf) (off : UInt64) {i rest : ℕ}
    (hi : i + rest = l.nritems.toNat) (hreads : ∀ m, i ≤ m → l.Reads off m → l.LastIsChunk) :
    (∀ m, i ≤ m → l.Found off m → l.xlateLoop off i rest =
        .ok ((l.dat m).stripeOffset + (off - (l.items m).offset))) ∧
      ((∀ m, i ≤ m → ¬ l.Found off m) → l.xlateLoop off i rest = .ok 0) := by
  induction rest generalizing i with
  | zero =>
    refine ⟨fun m him hfound => ?_, fun _ => rfl⟩
    have hm := hfound.1.1.1
    omega
  | succ rest ih =>
    obtain ⟨hfirst, hnext, -⟩ := h.xlateLoop_succ (show i < l.nritems.toNat by omega) off rest
    obtain ⟨ihfound, ihnone⟩ := ih (i := i + 1) (by omega) fun m him => hreads m (by omega)
    by_cases hfi : l.Found off i
    · refine ⟨fun m him hfound => ?_, fun hnone => absurd hfi (hnone i le_rfl)⟩
      rw [h.disjoint m i off hfound.1 hfi.1]
      exact hfirst hfi (hreads i le_rfl ⟨hfi.1.1, hfi.2⟩)
    · rw [hnext hfi (hreads i le_rfl)]
      refine ⟨fun m him hfound => ihfound m ?_ hfound, fun hnone => ihnone fun m him => hnone m (by omega)⟩
      rcases Nat.lt_or_eq_of_le him with hlt | rfl
      · exact hlt
      · exact absurd hfound hfi

/-- Where the last item is no chunk, the loop stops at the first chunk that begins before the address. -/
theorem ChunkLeaf.xlateLoop_stops (h : l.ChunkLeaf) (hlast : ¬ l.LastIsChunk) {i rest m : ℕ}
    (hi : i + rest = l.nritems.toNat) (him : i ≤ m) (hm : l.Reads off m) :
    l.xlateLoop off i rest = .error .assertion := by
  induction rest generalizing i with
  | zero =>
    have hlt := hm.1.1
    omega
  | succ rest ih =>
    obtain ⟨-, hnext, hstop⟩ := h.xlateLoop_succ (show i < l.nritems.toNat by omega) off rest
    by_cases hri : l.Reads off i
    · exact hstop hri hlast
    · have hlt : i < m := by
        rcases Nat.lt_or_eq_of_le him with hlt | rfl
        · exact hlt
        · exact absurd hm hri
      rw [hnext (fun hfound => hri ⟨hfound.1.1, hfound.2⟩) fun hreads => absurd hreads hri]
      exact ih (by omega) hlt

/-- `chunktree_xlate_offset` translates an address exactly if the last item is a chunk item or no chunk
begins before the address, and it is not the first one of a chunk that lies elsewhere than at the
beginning of its device. -/
theorem translates_iff (l : Node) (off : UInt64) (h : l.ChunkLeaf) :
    l.Translates off ↔
      (∀ i, l.IsChunk i → (l.items i).offset < off → l.IsChunk (l.nritems.toNat - 1)) ∧
        ∀ i, l.InChunk i off → (l.items i).offset = off → (l.dat i).stripeOffset = 0 := by
  have hrun : l.chunktreeXlateOffset off = l.xlateLoop off 0 l.nritems.toNat := by
    unfold chunktreeXlateOffset
    rw [fslAssert_of h.level]
    rfl
  by_cases hreads : ∀ m, 0 ≤ m → l.Reads off m → l.LastIsChunk
  · obtain ⟨hfound, hnone⟩ := h.xlateLoop_eq off (Nat.zero_add l.nritems.toNat) hreads
    -- the first address of a chunk is found in no other chunk
    have hfirst : ∀ i, l.InChunk i off → (l.items i).offset = off →
        l.chunktreeXlateOffset off = .ok 0 := by
      intro i hi heq
      rw [hrun]
      refine hnone fun m _ hm => ?_
      rw [h.disjoint m i off hm.1 hi, Found, heq] at hm
      exact absurd hm.2 (UInt64.lt_irrefl off)
    constructor
    · rintro ⟨htrans, -⟩
      refine ⟨fun i hi hlt => hreads i (Nat.zero_le i) ⟨hi, hlt⟩, fun i hi heq => ?_⟩
      have hboth := (htrans i hi).symm.trans (hfirst i hi heq)
      rw [heq, UInt64.sub_self, UInt64.add_zero] at hboth
      exact Except.ok.inj hboth
    · rintro ⟨-, hzero⟩
      refine ⟨fun i hi => ?_, fun hout => ?_⟩
      · by_cases heq : (l.items i).offset = off
        · rw [hfirst i hi heq, heq, hzero i hi heq, UInt64.sub_self]
          rfl
        · rw [hrun]
          refine hfound i (Nat.zero_le i) ⟨hi, UInt64.lt_of_le_of_ne ?_ heq⟩
          exact UInt64.le_iff_toNat_le.mpr hi.2.1
      · rw [hrun]
        exact hnone fun m _ hm => hout m hm.1
  · push Not at hreads
    obtain ⟨m, -, hm, hlast⟩ := hreads
    have hstop : l.chunktreeXlateOffset off = .error .assertion :=
      hrun.trans (h.xlateLoop_stops hlast (Nat.zero_add l.nritems.toNat) (Nat.zero_le m) hm)
    constructor
    · rintro ⟨htrans, hout⟩
      exfalso
      by_cases hin : ∃ i, l.InChunk i off
      · obtain ⟨i, hi⟩ := hin
        cases hstop.symm.trans (htrans i hi)
      · cases hstop.symm.trans (hout fun i hi => hin ⟨i, hi⟩)
    · rintro ⟨himp, -⟩
      exact absurd (himp m hm.1 hm.2) hlast

end Node

/-- A leaf of two chunks, with an item of another type between them. -/
def sampleLeaf : Node where
  nritems := 3
  level := 0
  items
    | 0 => ⟨228, 4096⟩
    | 1 => ⟨216, 1⟩
    | _ => ⟨228, 65536⟩
  itemdat
    | 0 => ⟨8192, 1048576⟩
    | 1 => ⟨0, 0⟩
    | _ => ⟨4096, 524288⟩

theorem sampleLeaf_chunkLeaf : sampleLeaf.ChunkLeaf where
  level := rfl
  fits i hi := by
    obtain ⟨hlt, -⟩ := hi
    have hlt3 : i < 3 := hlt
    interval_cases i <;> decide
  disjoint i j off hi hj := by
    obtain ⟨⟨hlt, hkey⟩, hle, hend⟩ := hi
    obtain ⟨⟨hlt', hkey'⟩, hle', hend'⟩ := hj
    have hlt3 : i < 3 := hlt
    have hlt3' : j < 3 := hlt'
    have h0 : (sampleLeaf.items 0).offset.toNat = 4096 := rfl
    have h2 : (sampleLeaf.items 2).offset.toNat = 65536 := rfl
    have d0 : (sampleLeaf.dat 0).length.toNat = 4096 := rfl
    have d2 : (sampleLeaf.dat 2).length.toNat = 8192 := rfl
    have hone : (sampleLeaf.items 1).keytype ≠ chunkItemKey := by decide
    interval_cases i <;> interval_cases j <;> first | rfl | contradiction | omega

/-- An address inside of the second chunk. -/
theorem translates_iff_inside : sampleLeaf.Translates 65537 := by
  refine (Node.translates_iff sampleLeaf 65537 sampleLeaf_chunkLeaf).mpr
    ⟨fun _ _ _ => ⟨by decide, by decide⟩, fun i hi heq => ?_⟩
  have hlt3 : i < 3 := hi.1.1
  revert heq
  interval_cases i <;> decide

/-- The first address of the second chunk. -/
theorem not_translates_first :
    sampleLeaf.ChunkLeaf ∧ sampleLeaf.InChunk 2 65536 ∧
      sampleLeaf.chunktreeXlateOffset 65536 = .ok 0 ∧ ¬ sampleLeaf.Translates 65536 := by
  have hin : sampleLeaf.InChunk 2 65536 := by
    refine ⟨⟨by decide, by decide⟩, by decide, by decide⟩
  refine ⟨sampleLeaf_chunkLeaf, hin, rfl, fun h => ?_⟩
  have hres : (Except.ok 0 : Except Stop UInt64) = .ok (1048576 + (65536 - 65536)) := h.1 2 hin
  cases hres

/-- A chunk before an item of another type, and an address inside of it. -/
example : ({ sampleLeaf with nritems := 2 } : Node).chunktreeXlateOffset 4097 = .error .assertion := rfl

end Fsl.Btrfs
