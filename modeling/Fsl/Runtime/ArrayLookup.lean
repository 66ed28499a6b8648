import Fsl.Lib.Scan
import Fsl.Runtime.Bridge
import Fsl.Runtime.Choice
import Fsl.Runtime.KernelIo

/-!
# Looking up what was listed

In the kernel module `fsl_readdir_array_fbn` lists the elements of a child by their names, or by their
indices if they have none, and `fsl_array_lookup` takes a name of digits for an index and searches the
elements for any other. The listing reads up to 63 bytes of a name and the search up to 254.
-/

namespace Fsl.ArrayLookup

open Children Bridge Scan

/-! ## Names -/

/-- The type info that `typeinfo_lookup_follow_direct` returns for the field `name` of an element:
`ti_size` and `ti_phys_offset`. -/
structure NameTi where
  size : UInt64
  phys : UInt64

/-- An array node as a directory: `it_min` of a virtual type, the geometry of the device and what it
holds, whether `fsl_lookup_has` finds a `name` in the type of the elements, and the name of an element,
by the index it is followed with. -/
structure Dir where
  node : ArrayNode
  vtMin : UInt64
  geom : Kernel.Geom
  disk : Disk
  hasName : Bool
  nameTi : UInt64 → Except Stop (Option NameTi)

/-- The bytes before the first `NUL`. -/
def cString (buf : List UInt8) : List UInt8 := buf.takeWhile (· ≠ 0)

/-- The bytes of `sprintf("%d", i)`. -/
def decimal (i : ℕ) : List UInt8 :=
  if i = 0 then [48] else (Nat.digits 10 i).reverse.map fun c => UInt8.ofNat (48 + c)

/-- `fsl_is_int` -/
def isInt (s : List UInt8) : Bool := s.all fun c => decide (48 ≤ c ∧ c ≤ 57)

/-- `simple_strtol` on digits, as the `unsigned int` that it is passed as. -/
def strtol (s : List UInt8) : UInt32 :=
  s.foldl (fun n c => 10 * n + (c.toUInt32 - 48)) 0

/-- The index that an element is followed with: an element of a range is followed with its place there,
and `typeinfo_alloc_virt_idx` takes an `unsigned int`. -/
def followedWith : Child → UInt64 → UInt64
  | .field _, idx => idx
  | .pointsto p, idx => idx + p.itMin
  | .virt _, idx => idx.toUInt32.toUInt64

namespace Dir

variable (d : Dir)

/-- `typeinfo_to_buf`, with the `NUL` put behind it. -/
def toBuf (t : NameTi) (bytes : ℕ) : Except Stop (List UInt8) := do
  let srcSz := ((t.size + 7) / 8).toNat
  let buf ← Kernel.readBytes d.geom d.disk (t.phys / 8).toNat (min srcSz bytes)
  return cString buf

/-- `typeinfo_getname` of the element followed with `idx`, with a buffer of `len` bytes: the string in
it, or `NULL`. -/
def getname (idx : UInt64) (len : ℕ) : Except Stop (Option (List UInt8)) := do
  if d.hasName = false then return none
  else
    match ← d.nameTi idx with
    | none => return none
    | some t => return some (← d.toBuf t (len - 1))

/-! ## The listing -/

/-- What `fsl_readdir_array_fbn` lists the element `i` as. -/
def entryName (i : ℕ) : Except Stop (List UInt8) := do
  match ← d.getname (followedWith d.node.child (UInt64.ofNat i)) 64 with
  | none => return decimal i
  | some name => return if name.length < 1 then decimal i else name

/-- `i++` of an `int`, and the rest of the loop. -/
def incr {α : Type} (i : ℕ) (rest : Except Stop α) : Except Stop α :=
  if i + 1 < 2 ^ 31 then rest else .error .fault

/-- The loop of `fsl_readdir_array_fbn` from `i` on: where it ends, and the names and elements that were
passed to `fill`. `fill` is told all of them and says whether it is full. -/
def readdirLoop (fill : List (List UInt8 × ℕ) → Bool) :
    ℕ → ℕ → List (List UInt8 × ℕ) → Except Stop (Option (ℕ × List (List UInt8 × ℕ)))
  | 0, _, _ => .ok none
  | turns + 1, i, passed => do
    let r ← d.node.idxInto (UInt32.ofNat i)
    if r.1.isNone then
      if r.2 ≠ .badVerify then return some (i, passed)
      else incr i (readdirLoop fill turns (i + 1) passed)
    else do
      let name ← d.entryName i
      let passed := passed ++ [(name, i)]
      if fill passed then return some (i, passed)
      else incr i (readdirLoop fill turns (i + 1) passed)

/-- The values of `fp_realpos` after a number of calls of `fsl_readdir_array_fbn`. -/
inductive Realpos : ℕ → Prop
  | opened : Realpos 0
  | readdir {r r' turns : ℕ} {fill : List (List UInt8 × ℕ) → Bool} {passed : List (List UInt8 × ℕ)} :
      Realpos r → d.readdirLoop fill turns r [] = .ok (some (r', passed)) → Realpos r'

/-- The name is listed for the element `i`: a call passes them to `fill`, whether or not it returns. -/
def Listed (name : List UInt8) (i : ℕ) : Prop :=
  ∃ r fill turns r' passed, d.Realpos r ∧
    d.readdirLoop fill turns r [] = .ok (some (r', passed)) ∧ (name, i) ∈ passed

/-! ## The lookup -/

/-- Following an element with an index of 64 bits. -/
def followWith (idx : UInt64) : Except Stop (Bool × TiErr) :=
  match d.node.child with
  | .field f => do
    let off ← f.tiFieldOff idx.toUInt32
    return (← f.follow off idx, .ok)
  | .pointsto p => return (← p.follow idx, .ok)
  | .virt v => v.allocVirtIdx idx.toUInt32

/-- Whether the element's name is the one looked for, for the caller with a buffer of 255 bytes. -/
def hasThisName (name : List UInt8) (idx : UInt64) : Except Stop Bool := do
  let found ← d.getname idx 255
  return decide (found = some name)

/-- One round of a `typeinfo_follow_name_*`: the element is followed and its name compared; the search
goes on while there is no error but `TI_ERR_BADVERIFY`. What is found is the index the element was
followed with. -/
def round (inRange : UInt64 → Bool) (cut : UInt64 → UInt64) (name : List UInt8) (idx : UInt64) :
    Round Stop UInt64 :=
  if inRange idx = false then .stop
  else
    match d.followWith idx with
    | .error e => .stuck e
    | .ok (false, err) => if err = .ok ∨ err = .badVerify then .next else .stop
    | .ok (true, _) =>
      match d.hasThisName name (cut idx) with
      | .error e => .stuck e
      | .ok true => .found (cut idx)
      | .ok false => .next

/-- A search from `start` on for an element with the name. -/
def followNameFrom (inRange : UInt64 → Bool) (cut : UInt64 → UInt64) (name : List UInt8) (turns : ℕ)
    (start : UInt64) : Except Stop (Option (Option UInt64)) :=
  if d.hasName = false then .ok (some none)
  else scan (d.round inRange cut name) (· + 1) turns start

/-- `typeinfo_follow_name_tf`, which goes on to `tf_elemcount` itself -/
def followNameTf (f : FieldArray) (name : List UInt8) (turns : ℕ) :
    Except Stop (Option (Option UInt64)) :=
  d.followNameFrom (fun idx => decide (idx ≤ f.elemcount)) id name turns 0

/-- `typeinfo_follow_name_pt` -/
def followNamePt (p : PointsTo) (name : List UInt8) (turns : ℕ) :
    Except Stop (Option (Option UInt64)) :=
  if p.itMin = -1 then .ok (some none)
  else d.followNameFrom (fun idx => decide (idx ≤ p.itMax)) id name turns p.itMin

/-- `typeinfo_follow_name_vt` -/
def followNameVt (name : List UInt8) (turns : ℕ) : Except Stop (Option (Option UInt64)) :=
  if d.vtMin = -1 then .ok (some none)
  else d.followNameFrom (fun _ => true) (fun idx => idx.toUInt32.toUInt64) name turns d.vtMin

/-- `fsl_bridge_follow_pretty_name` -/
def followPrettyName (name : List UInt8) (turns : ℕ) : Except Stop (Option (Option UInt64)) :=
  match d.node.child with
  | .field f => d.followNameTf f name turns
  | .pointsto p => d.followNamePt p name turns
  | .virt _ => d.followNameVt name turns

/-- `fsl_array_lookup`: the index that the element found was followed with. -/
def arrayLookup (name : List UInt8) (turns : ℕ) : Except Stop (Option (Option UInt64)) :=
  if isInt name then do
    let r ← d.node.idxInto (strtol name)
    return some (if r.1.isSome then some (followedWith d.node.child (strtol name).toUInt64) else none)
  else d.followPrettyName name turns

end Dir

/-! ## Digits -/

theorem isInt_decimal (i : ℕ) : isInt (decimal i) = true := by
  unfold decimal
  split_ifs with h
  · rfl
  · rw [isInt, List.all_eq_true]
    intro b hb
    obtain ⟨c, hc, rfl⟩ := List.mem_map.mp hb
    have hlt : c < 10 := Nat.digits_lt_base (by norm_num) (List.mem_reverse.mp hc)
    interval_cases c <;> rfl

/-! ## Reading a name -/

theorem length_readBytes {g : Kernel.Geom} {disk : Disk} {off n : ℕ} {bs : List UInt8}
    (h : Kernel.readBytes g disk off n = .ok bs) : bs.length = n := by
  induction n using Nat.strong_induction_on generalizing bs with
  | _ n ih =>
    rw [Kernel.readBytes] at h
    obtain ⟨chunk, hchunk, h⟩ := bind_eq_ok h
    have hlen : chunk.length = min n g.page := by
      unfold Kernel.pageRead at hchunk
      split_ifs at hchunk
      cases hchunk
      rw [List.length_map, List.length_range]
    split_ifs at h with hlt
    · obtain ⟨rest, hrest, h⟩ := bind_eq_ok h
      have hpos := g.page_pos
      cases h
      rw [List.length_append, hlen, ih _ (by omega) hrest]
      omega
    · cases h
      omega

/-- Fewer bytes are the first ones of more. -/
theorem readBytes_take {g : Kernel.Geom} {disk : Disk} {off n m : ℕ} {bs : List UInt8}
    (h : Kernel.readBytes g disk off n = .ok bs) (hm : m ≤ n) :
    Kernel.readBytes g disk off m = .ok (bs.take m) := by
  induction n using Nat.strong_induction_on generalizing bs m with
  | _ n ih =>
    have hpos := g.page_pos
    rw [Kernel.readBytes] at h ⊢
    obtain ⟨chunk, hchunk, h⟩ := bind_eq_ok h
    unfold Kernel.pageRead at hchunk ⊢
    split_ifs at hchunk with hin
    cases hchunk
    rw [if_pos (by omega), ok_bind]
    split_ifs at h with hn
    · obtain ⟨rest, hrest, h⟩ := bind_eq_ok h
      cases h
      split_ifs with hm'
      · have hpage : min m g.page = min n g.page := by omega
        have hlen : ((List.range (min n g.page)).map fun k =>
            disk.byte (g.place off + k)).length = min n g.page := by simp
        have hall : ((List.range (min n g.page)).map fun k => disk.byte (g.place off + k)).take m =
            (List.range (min n g.page)).map fun k => disk.byte (g.place off + k) :=
          List.take_of_length_le (by omega)
        rw [hpage, ih _ (by omega) hrest (by omega), ok_bind, List.take_append, hlen, hall]
        rfl
      · have hpage : min m g.page = m := by omega
        rw [hpage, List.take_append_of_le_length (by simp; omega), ← List.map_take, List.take_range]
        have hmin : min m (min n g.page) = m := by omega
        rw [hmin]
        rfl
    · cases h
      rw [if_neg (by omega), ← List.map_take, List.take_range]
      have hmin : min m (min n g.page) = min m g.page := by omega
      rw [hmin]
      rfl

theorem cString_take (buf : List UInt8) (n : ℕ) : cString (buf.take n) = (cString buf).take n := by
  unfold cString
  induction buf generalizing n with
  | nil => simp
  | cons b buf ih =>
    cases n with
    | zero => rfl
    | succ n =>
      rw [List.take_succ_cons, List.takeWhile_cons, List.takeWhile_cons]
      split_ifs
      · rw [List.take_succ_cons, ih]
      · rfl

variable {d : Dir} {name : List UInt8} {i : ℕ}

theorem toBuf_take {t : NameTi} {m n : ℕ} {s : List UInt8} (h : d.toBuf t n = .ok s) (hm : m ≤ n) :
    d.toBuf t m = .ok (s.take m) := by
  obtain ⟨buf, hbuf, h⟩ := bind_eq_ok h
  cases h
  have hlen := length_readBytes hbuf
  have hle : min ((t.size + 7) / 8).toNat m ≤ min ((t.size + 7) / 8).toNat n := by omega
  have htake : buf.take (min ((t.size + 7) / 8).toNat m) = buf.take m := by
    rw [List.take_eq_take_iff]
    omega
  rw [Dir.toBuf, readBytes_take hbuf hle, htake, ok_bind, cString_take]
  rfl

/-- The listing sees the beginning of what the search sees. -/
theorem getname_take {idx : UInt64} {n : Option (List UInt8)} (h : d.getname idx 255 = .ok n) :
    d.getname idx 64 = .ok (n.map fun s => s.take 63) := by
  unfold Dir.getname at h ⊢
  split_ifs at h ⊢
  · cases h
    rfl
  · obtain ⟨t, ht, h⟩ := bind_eq_ok h
    rw [ht, ok_bind]
    cases t with
    | none =>
      cases h
      rfl
    | some t =>
      obtain ⟨s, hs, h⟩ := bind_eq_ok h
      cases h
      show (d.toBuf t 63 >>= fun s => .ok (some s)) = _
      rw [toBuf_take hs (by norm_num), ok_bind]
      rfl

/-! ## What is listed -/

namespace Dir

/-- The element is there and this is its name in the listing. -/
def NamedAs (d : Dir) (name : List UInt8) (i : ℕ) : Prop :=
  (∃ ti err, d.node.idxInto (UInt32.ofNat i) = .ok (some ti, err)) ∧ d.entryName i = .ok name

/-- The listing goes on behind `i`: there is an element with a name, or one that failed its
verification. -/
def GoesOn (d : Dir) (i : ℕ) : Prop :=
  d.node.idxInto (UInt32.ofNat i) = .ok (none, .badVerify) ∨ ∃ name, d.NamedAs name i

end Dir

variable {fill : List (List UInt8 × ℕ) → Bool} {passed passed' : List (List UInt8 × ℕ)}

theorem incr_eq_ok {α : Type} {rest : Except Stop α} {v : α} (h : Dir.incr i rest = .ok v) :
    i + 1 < 2 ^ 31 ∧ rest = .ok v := by
  unfold Dir.incr at h
  split_ifs at h with hlt
  exact ⟨hlt, h⟩

/-- What a call passes to `fill` and where it leaves off. -/
theorem readdirLoop_spec {turns r' : ℕ} (hi : i < 2 ^ 31)
    (h : d.readdirLoop fill turns i passed = .ok (some (r', passed'))) :
    r' < 2 ^ 31 ∧ i ≤ r' ∧ (∀ j, i ≤ j → j < r' → d.GoesOn j) ∧
      ∀ p ∈ passed', p ∈ passed ∨ p.2 ≤ r' ∧ d.NamedAs p.1 p.2 := by
  induction turns generalizing i passed with
  | zero => cases h
  | succ turns ih =>
    rw [Dir.readdirLoop] at h
    obtain ⟨⟨ti, err⟩, hti, h⟩ := bind_eq_ok h
    -- the rest of the loop, behind an element that it goes on behind
    have hrest : ∀ {passed₁}, d.GoesOn i →
        Dir.incr i (d.readdirLoop fill turns (i + 1) passed₁) = .ok (some (r', passed')) →
        r' < 2 ^ 31 ∧ i ≤ r' ∧ (∀ j, i ≤ j → j < r' → d.GoesOn j) ∧
          ∀ p ∈ passed', p ∈ passed₁ ∨ p.2 ≤ r' ∧ d.NamedAs p.1 p.2 := by
      intro passed₁ hgoes hincr
      obtain ⟨hlt, hloop⟩ := incr_eq_ok hincr
      obtain ⟨hr', hle, hall, hpassed⟩ := ih hlt hloop
      refine ⟨hr', by omega, fun j hij hjr => ?_, hpassed⟩
      rcases Nat.eq_or_lt_of_le hij with rfl | hlt'
      · exact hgoes
      · exact hall j hlt' hjr
    cases ti with
    | none =>
      rw [Option.isNone_none, if_pos rfl] at h
      by_cases herr : err = .badVerify
      · rw [if_neg (not_not.mpr herr)] at h
        exact hrest (Or.inl (by rw [hti, herr])) h
      · rw [if_pos herr] at h
        cases h
        exact ⟨hi, le_rfl, fun j hij hji => absurd hij (by omega), fun p hp => Or.inl hp⟩
    | some ti =>
      rw [Option.isNone_some, if_neg (by simp)] at h
      obtain ⟨name, hname, h⟩ := bind_eq_ok h
      have hnamed : d.NamedAs name i := ⟨⟨ti, err, hti⟩, hname⟩
      have hnew : ∀ p ∈ passed ++ [(name, i)], p ∈ passed ∨ p.2 ≤ i ∧ d.NamedAs p.1 p.2 := by
        intro p hp
        rcases List.mem_append.mp hp with hp | hp
        · exact Or.inl hp
        · rw [List.mem_singleton.mp hp]
          exact Or.inr ⟨le_rfl, hnamed⟩
      dsimp only at h
      split_ifs at h with hfull
      · cases h
        exact ⟨hi, le_rfl, fun j hij hji => absurd hij (by omega), hnew⟩
      · obtain ⟨hr', hle, hall, hpassed⟩ := hrest (Or.inr ⟨name, hnamed⟩) h
        refine ⟨hr', hle, hall, fun p hp => ?_⟩
        rcases hpassed p hp with hp | hp
        · exact (hnew p hp).imp_right fun hn => ⟨hn.1.trans hle, hn.2⟩
        · exact Or.inr hp

theorem goesOn_of_realpos {r : ℕ} (h : d.Realpos r) : r < 2 ^ 31 ∧ ∀ j, j < r → d.GoesOn j := by
  induction h with
  | opened => exact ⟨by norm_num, fun j hj => absurd hj (Nat.not_lt_zero j)⟩
  | readdir _ hloop ih =>
    obtain ⟨hr', -, hall, -⟩ := readdirLoop_spec ih.1 hloop
    refine ⟨hr', fun j hj => ?_⟩
    rcases Nat.lt_or_ge j _ with hlt | hge
    · exact ih.2 j hlt
    · exact hall j hge hj

/-- The loop gets to `i` where nothing before it ends it, and passes its name to `fill`. -/
theorem exists_readdirLoop (hi : i < 2 ^ 31) (hnamed : d.NamedAs name i) {n j : ℕ} (hn : j + n = i)
    (hall : ∀ k, j ≤ k → k < i → d.GoesOn k) (hout : ∀ p ∈ passed, p.2 ≠ i) :
    ∃ passed', d.readdirLoop (fun l => l.any fun p => p.2 == i) (n + 1) j passed =
      .ok (some (i, passed')) ∧ (name, i) ∈ passed' := by
  induction n generalizing j passed with
  | zero =>
    obtain rfl : j = i := hn
    obtain ⟨⟨ti, err, hti⟩, hname⟩ := hnamed
    refine ⟨passed ++ [(name, j)], ?_, List.mem_append_right _ (List.mem_singleton.mpr rfl)⟩
    rw [Dir.readdirLoop, hti, ok_bind, Option.isNone_some, if_neg (by simp), hname, ok_bind]
    dsimp only
    rw [if_pos (by simp)]
    rfl
  | succ n ih =>
    have hincr : ∀ {α : Type} (rest : Except Stop α), Dir.incr j rest = rest := fun rest =>
      if_pos (by omega)
    have hnext : ∀ k, j + 1 ≤ k → k < i → d.GoesOn k := fun k hk hki => hall k (by omega) hki
    rcases hall j le_rfl (by omega) with hskip | ⟨other, ⟨ti, err, hti⟩, hother⟩
    · obtain ⟨passed', hx, hmem⟩ := ih (by omega) hnext hout
      refine ⟨passed', ?_, hmem⟩
      rw [Dir.readdirLoop, hskip, ok_bind, Option.isNone_none, if_pos rfl, if_neg (by simp), hincr, hx]
    · have hout' : ∀ p ∈ passed ++ [(other, j)], p.2 ≠ i := by
        intro p hp
        rcases List.mem_append.mp hp with hp | hp
        · exact hout p hp
        · rw [List.mem_singleton.mp hp]
          show j ≠ i
          omega
      obtain ⟨passed', hx, hmem⟩ := ih (by omega) hnext hout'
      refine ⟨passed', ?_, hmem⟩
      have hfull : ¬ ((passed ++ [(other, j)]).any fun p => p.2 == i) = true := by
        rw [List.any_eq_true]
        rintro ⟨p, hp, heq⟩
        exact hout' p hp (by simpa using heq)
      rw [Dir.readdirLoop, hti, ok_bind, Option.isNone_some, if_neg (by simp), hother, ok_bind]
      dsimp only
      rw [if_neg hfull, hincr, hx]

/-- What the calls list, in terms of the elements. -/
theorem listed_iff :
    d.Listed name i ↔ i < 2 ^ 31 ∧ (∀ j, j < i → d.GoesOn j) ∧ d.NamedAs name i := by
  constructor
  · rintro ⟨r, fill, turns, r', passed, hr, hloop, hmem⟩
    obtain ⟨hr31, hbefore⟩ := goesOn_of_realpos hr
    obtain ⟨hr', -, hall, hpassed⟩ := readdirLoop_spec hr31 hloop
    rcases hpassed _ hmem with hmem | ⟨hle, hnamed⟩
    · exact absurd hmem List.not_mem_nil
    · dsimp only at hle hnamed
      refine ⟨by omega, fun j hj => ?_, hnamed⟩
      rcases Nat.lt_or_ge j r with hlt | hge
      · exact hbefore j hlt
      · exact hall j hge (by omega)
  · rintro ⟨hi, hall, hnamed⟩
    obtain ⟨passed', hx, hmem⟩ := exists_readdirLoop hi hnamed (Nat.zero_add i)
      (fun k _ hk => hall k hk) (fun p hp => absurd hp List.not_mem_nil)
    exact ⟨0, _, _, _, _, Dir.Realpos.opened, hx, hmem⟩

/-! ## Following an element -/

/-- The index that the element `i` of the listing is followed with. -/
def Dir.key (d : Dir) (i : ℕ) : UInt64 := followedWith d.node.child (UInt64.ofNat i)

theorem toUInt64_ofNat {i : ℕ} (hi : i < 2 ^ 32) : (UInt32.ofNat i).toUInt64 = UInt64.ofNat i := by
  rw [← UInt64.toNat_inj, UInt32.toNat_toUInt64, UInt32.toNat_ofNat', UInt64.toNat_ofNat']
  omega

/-- `fsl_bridge_idx_into` follows an element with the same index as the search. -/
theorem followElem_eq (d : Dir) (idx : UInt32) :
    followElem d.node.child idx = d.followWith (followedWith d.node.child idx.toUInt64) := by
  unfold Dir.followWith
  cases hchild : d.node.child with
  | field f =>
    simp only [followElem, followedWith, FieldArray.followIdx, UInt32.toUInt32_toUInt64, bind_assoc]
  | pointsto p => rfl
  | virt v => simp only [followElem, followedWith, UInt32.toUInt32_toUInt64]

theorem idxInto_of_lt {idx : UInt32} (h : idx.toUInt64 < d.node.arrMax) : d.node.idxInto idx = (do
    let r ← d.followWith (followedWith d.node.child idx.toUInt64)
    return (if r.1 then some (elem d.node.child idx) else none, r.2)) := by
  rw [ArrayNode.idxInto, if_neg (UInt64.not_le.mpr h), followElem_eq]

theorem lt_of_idxInto {idx : UInt32} {ti : Option TypeInfo} {err : TiErr}
    (h : d.node.idxInto idx = .ok (ti, err)) (hne : ti ≠ none ∨ err ≠ .badIdx) :
    idx.toUInt64 < d.node.arrMax := by
  rw [← UInt64.not_le]
  intro hle
  rw [ArrayNode.idxInto, if_pos hle] at h
  cases h
  rcases hne with hne | hne
  · exact hne rfl
  · exact hne rfl

/-- An element of the listing can be followed. -/
theorem followWith_of_some {idx : UInt32} {ti : TypeInfo} {err : TiErr}
    (h : d.node.idxInto idx = .ok (some ti, err)) :
    idx.toUInt64 < d.node.arrMax ∧
      d.followWith (followedWith d.node.child idx.toUInt64) = .ok (true, err) := by
  have hlt := lt_of_idxInto h (Or.inl (Option.some_ne_none ti))
  rw [idxInto_of_lt hlt] at h
  obtain ⟨⟨b, e⟩, hr, h⟩ := bind_eq_ok h
  obtain ⟨hti, rfl⟩ := Prod.mk.inj (Except.ok.inj h)
  dsimp only at hti
  split_ifs at hti with hb
  subst hb
  exact ⟨hlt, hr⟩

theorem followWith_of_none {idx : UInt32} (h : d.node.idxInto idx = .ok (none, .badVerify)) :
    d.followWith (followedWith d.node.child idx.toUInt64) = .ok (false, .badVerify) := by
  rw [idxInto_of_lt (lt_of_idxInto h (Or.inr (by simp)))] at h
  obtain ⟨⟨b, e⟩, hr, h⟩ := bind_eq_ok h
  obtain ⟨hti, rfl⟩ := Prod.mk.inj (Except.ok.inj h)
  dsimp only at hti
  split_ifs at hti with hb
  rw [Bool.not_eq_true] at hb
  subst hb
  exact hr

namespace Dir

/-- The element `i` can be followed. -/
def Taken (d : Dir) (i : ℕ) : Prop := ∃ ti err, d.node.idxInto (UInt32.ofNat i) = .ok (some ti, err)

/-- The search for the name goes on behind the element: it failed its verification or has another
name, and nothing has stopped the process. -/
def PassedOver (d : Dir) (name : List UInt8) (idx : UInt64) : Prop :=
  (∃ err, d.followWith idx = .ok (false, err) ∧ (err = .ok ∨ err = .badVerify)) ∨
    ∃ err n, d.followWith idx = .ok (true, err) ∧ d.getname idx 255 = .ok n ∧ n ≠ some name

/-- The element can be followed and has the name. -/
def HasName (d : Dir) (name : List UInt8) (idx : UInt64) : Prop :=
  (∃ err, d.followWith idx = .ok (true, err)) ∧ d.getname idx 255 = .ok (some name)

end Dir

section Search

variable {inRange : UInt64 → Bool} {cut : UInt64 → UInt64} {start idx k : UInt64}

theorem hasThisName_eq {idx : UInt64} {b : Bool} :
    d.hasThisName name idx = .ok b ↔
      ∃ n, d.getname idx 255 = .ok n ∧ decide (n = some name) = b := by
  unfold Dir.hasThisName
  cases h : d.getname idx 255 with
  | error e => simp
  | ok n => simp [pure, Except.pure]

theorem round_eq_next_iff (hcut : ∀ idx, d.followWith (cut idx) = d.followWith idx) :
    d.round inRange cut name idx = .next ↔ inRange idx = true ∧ d.PassedOver name (cut idx) := by
  unfold Dir.round Dir.PassedOver
  rw [hcut]
  by_cases hin : inRange idx = false
  · simp [hin]
  · rw [if_neg hin]
    rw [Bool.not_eq_false] at hin
    cases hf : d.followWith idx with
    | error e => simp
    | ok r =>
      obtain ⟨b, err⟩ := r
      cases b with
      | false => by_cases herr : err = .ok ∨ err = .badVerify <;> simp [herr, hin]
      | true =>
        cases hn : d.hasThisName name (cut idx) with
        | error e =>
          have hstuck : ∀ n, d.getname (cut idx) 255 ≠ .ok n := by
            intro n hget
            rw [hasThisName_eq.mpr ⟨n, hget, rfl⟩] at hn
            cases hn
          simp [hstuck]
        | ok b =>
          obtain ⟨n, hget, hb⟩ := hasThisName_eq.mp hn
          cases b with
          | false => simpa [hget, hin] using of_decide_eq_false hb
          | true => simpa [hget, hin] using of_decide_eq_true hb

theorem round_eq_found_iff (hcut : ∀ idx, d.followWith (cut idx) = d.followWith idx) :
    d.round inRange cut name idx = .found k ↔
      inRange idx = true ∧ cut idx = k ∧ d.HasName name k := by
  unfold Dir.round Dir.HasName
  by_cases hin : inRange idx = false
  · simp [hin]
  · rw [if_neg hin]
    rw [Bool.not_eq_false] at hin
    constructor
    · intro h
      cases hf : d.followWith idx with
      | error e =>
        rw [hf] at h
        cases h
      | ok r =>
        obtain ⟨b, err⟩ := r
        rw [hf] at h
        cases b with
        | false =>
          dsimp only at h
          split_ifs at h
        | true =>
          cases hn : d.hasThisName name (cut idx) with
          | error e =>
            simp only [hn] at h
            cases h
          | ok b =>
            simp only [hn] at h
            cases b with
            | false => cases h
            | true =>
              cases h
              obtain ⟨n, hget, hb⟩ := hasThisName_eq.mp hn
              rw [of_decide_eq_true hb] at hget
              exact ⟨hin, rfl, ⟨err, (hcut idx).trans hf⟩, hget⟩
    · rintro ⟨-, rfl, ⟨err, hf⟩, hget⟩
      rw [hcut] at hf
      simp only [hf, hasThisName_eq.mpr ⟨_, hget, decide_eq_true rfl⟩]

theorem iterate_add_one (s : UInt64) (t : ℕ) : (· + 1)^[t] s = s + UInt64.ofNat t := by
  induction t generalizing s with
  | zero => exact (UInt64.add_zero s).symm
  | succ t ih =>
    rw [Function.iterate_succ_apply, ih, UInt64.ofNat_add, UInt64.add_assoc, UInt64.add_comm 1]
    rfl

/-- The search finds the element at its place `T` if and only if this one has the name and those before
it are passed over. -/
theorem followNameFrom_iff (hcut : ∀ idx, d.followWith (cut idx) = d.followWith idx)
    (hname : d.hasName = true) {T : ℕ} (hT : cut (start + UInt64.ofNat T) = k)
    (hne : ∀ t, t < T → cut (start + UInt64.ofNat t) ≠ k)
    (hrange : ∀ t, t ≤ T → inRange (start + UInt64.ofNat t) = true) :
    Returns (fun turns => d.followNameFrom inRange cut name turns start) (some k) ↔
      d.HasName name k ∧ ∀ t, t < T → d.PassedOver name (cut (start + UInt64.ofNat t)) := by
  have hscan : ∀ turns, d.followNameFrom inRange cut name turns start =
      scan (d.round inRange cut name) (· + 1) turns start := fun turns => if_neg (by simp [hname])
  constructor
  · rintro ⟨enough, hret⟩
    have hrun := hret enough le_rfl
    dsimp only at hrun
    rw [hscan] at hrun
    obtain ⟨t, hpasses, hfound⟩ := found_of_scan hrun
    rw [iterate_add_one] at hfound
    obtain ⟨-, hkt, hhas⟩ := (round_eq_found_iff hcut).mp hfound
    have hfoundT : d.round inRange cut name ((· + 1)^[T] start) = .found k := by
      rw [iterate_add_one]
      exact (round_eq_found_iff hcut).mpr ⟨hrange T le_rfl, hT, hhas⟩
    have hle := hpasses.le_of_found hfoundT
    obtain rfl : t = T := by
      rcases Nat.eq_or_lt_of_le hle with heq | hlt
      · exact heq
      · exact absurd hkt (hne t hlt)
    refine ⟨hhas, fun u hu => ?_⟩
    have hnext := hpasses u hu
    rw [iterate_add_one] at hnext
    exact ((round_eq_next_iff hcut).mp hnext).2
  · rintro ⟨hhas, hpassed⟩
    refine ⟨T + 1, fun turns hturns => ?_⟩
    dsimp only
    rw [hscan]
    refine scan_of_found (fun u hu => ?_) ?_ hturns
    · rw [iterate_add_one]
      exact (round_eq_next_iff hcut).mpr ⟨hrange u hu.le, hpassed u hu⟩
    · rw [iterate_add_one]
      exact (round_eq_found_iff hcut).mpr ⟨hrange T le_rfl, hT, hhas⟩

end Search

/-! ## Listed names -/

namespace Dir

/-- The listed names are pairwise distinct. -/
def Distinct (d : Dir) : Prop := ∀ name i j, d.Listed name i → d.Listed name j → i = j

/-- The name of the element `i` can be read, as far as the search reads it. -/
def Reads (d : Dir) (i : ℕ) : Prop := ∃ n, d.getname (d.key i) 255 = .ok n

/-- A search that ends at the element `i` comes by the element `j` before it. That of a virtual type
starts at `it_min`. -/
def Searched (d : Dir) (i j : ℕ) : Prop :=
  match d.node.child with
  | .virt _ => d.vtMin.toUInt32.toNat ≤ j ∨ i < d.vtMin.toUInt32.toNat
  | _ => True

/-- The search comes to the element `i` from where it starts. Behind it that of a virtual type has to
pass over all the indices up to the last one, from which it goes on with 0. -/
def Starts (d : Dir) (name : List UInt8) (i : ℕ) : Prop :=
  match d.node.child with
  | .virt _ => d.vtMin ≠ -1 ∧ (d.vtMin.toUInt32.toNat ≤ i ∨
      ∀ j : UInt32, d.vtMin.toUInt32 ≤ j → d.PassedOver name j.toUInt64)
  | _ => True

/-- When the name that the element `i` is listed by resolves to it. -/
def Resolvable (d : Dir) (name : List UInt8) (i : ℕ) : Prop :=
  if isInt name then strtol name = UInt32.ofNat i
  else d.getname (d.key i) 255 = .ok (some name) ∧ d.Starts name i ∧
    ∀ j, j < i → d.Searched i j → d.Taken j → d.Reads j

end Dir

theorem length_of_getname {idx : UInt64} {len : ℕ} (h : d.getname idx len = .ok (some name)) :
    name.length ≤ len - 1 := by
  unfold Dir.getname at h
  split_ifs at h
  · cases h
  · obtain ⟨t, -, h⟩ := bind_eq_ok h
    cases t with
    | none => cases h
    | some t =>
      obtain ⟨s, hs, h⟩ := bind_eq_ok h
      cases h
      obtain ⟨buf, hbuf, hs⟩ := bind_eq_ok hs
      cases hs
      have hlen := length_readBytes hbuf
      have hle : (cString buf).length ≤ buf.length := (List.takeWhile_prefix _).length_le
      omega

theorem hasName_of_getname {idx : UInt64} {len : ℕ} (h : d.getname idx len = .ok (some name)) :
    d.hasName = true := by
  unfold Dir.getname at h
  split_ifs at h with hno
  · cases h
  · simpa using hno

/-- A listed name that is not one of digits was read. -/
theorem getname_of_entryName (h : d.entryName i = .ok name) (hint : isInt name = false) :
    d.getname (d.key i) 64 = .ok (some name) ∧ 1 ≤ name.length := by
  obtain ⟨n, hn, h⟩ := bind_eq_ok h
  cases n with
  | none =>
    cases h
    rw [isInt_decimal] at hint
    cases hint
  | some s =>
    have hs := Except.ok.inj h
    split_ifs at hs with hlt
    · subst hs
      rw [isInt_decimal] at hint
      cases hint
    · subst hs
      exact ⟨hn, Nat.le_of_not_lt hlt⟩

theorem entryName_of_getname (h : d.getname (d.key i) 64 = .ok (some name)) (hlen : 1 ≤ name.length) :
    d.entryName i = .ok name := by
  show (d.getname (d.key i) 64 >>= _) = _
  rw [h, ok_bind]
  exact congrArg Except.ok (if_neg (Nat.not_lt.mpr hlen))

/-- No element before the one that a name is listed for has the name, even where more of it is read. -/
theorem ne_of_listed (hdist : d.Distinct) (hl : d.Listed name i) (hint : isInt name = false) {j : ℕ}
    (hj : j < i) (htaken : d.Taken j) : d.getname (d.key j) 255 ≠ .ok (some name) := by
  intro hget
  obtain ⟨hi, hall, -, hentry⟩ := listed_iff.mp hl
  obtain ⟨hread, hpos⟩ := getname_of_entryName hentry hint
  -- the listing cuts nothing off this name
  have hcut : name.take 63 = name := List.take_of_length_le (length_of_getname hread)
  have hshort : d.getname (d.key j) 64 = .ok (some name) := by
    rw [getname_take hget, Option.map_some, hcut]
  have hlj : d.Listed name j := listed_iff.mpr
    ⟨by omega, fun k hk => hall k (by omega), htaken, entryName_of_getname hshort hpos⟩
  have heq := hdist name i j hl hlj
  omega

theorem followWith_key {i : ℕ} (hi : i < 2 ^ 32) :
    d.followWith (d.key i) = d.followWith (followedWith d.node.child (UInt32.ofNat i).toUInt64) := by
  rw [Dir.key, toUInt64_ofNat hi]

/-- For a listed name the search goes on behind an element before it if it can read its name. -/
theorem passedOver_iff (hdist : d.Distinct) (hl : d.Listed name i) (hint : isInt name = false) {j : ℕ}
    (hj : j < i) : d.PassedOver name (d.key j) ↔ (d.Taken j → d.Reads j) := by
  obtain ⟨hi, hall, -⟩ := listed_iff.mp hl
  constructor
  · rintro (⟨err, hfollow, -⟩ | ⟨err, n, -, hget, -⟩) htaken
    · obtain ⟨ti, err', hti⟩ := htaken
      rw [followWith_key (by omega), (followWith_of_some hti).2] at hfollow
      cases hfollow
    · exact ⟨n, hget⟩
  · intro hreads
    rcases hall j hj with hskip | ⟨other, htaken, -⟩
    · refine Or.inl ⟨.badVerify, ?_, Or.inr rfl⟩
      rw [followWith_key (by omega)]
      exact followWith_of_none hskip
    · obtain ⟨n, hget⟩ := hreads htaken
      obtain ⟨ti, err, hti⟩ := htaken
      refine Or.inr ⟨err, n, ?_, hget, ?_⟩
      · rw [followWith_key (by omega)]
        exact (followWith_of_some hti).2
      · rintro rfl
        exact ne_of_listed hdist hl hint hj ⟨ti, err, hti⟩ hget

/-- A listed element has a name if the search reads it. -/
theorem hasName_iff (hl : d.Listed name i) :
    d.HasName name (d.key i) ↔ d.getname (d.key i) 255 = .ok (some name) := by
  obtain ⟨hi, -, ⟨ti, err, hti⟩, -⟩ := listed_iff.mp hl
  refine and_iff_right ⟨err, ?_⟩
  rw [followWith_key (by omega)]
  exact (followWith_of_some hti).2

/-! ## Resolving listed names -/

section Resolving

variable {f : FieldArray} {p : PointsTo} {v : Virtual}

theorem key_field (hchild : d.node.child = .field f) (i : ℕ) : d.key i = UInt64.ofNat i := by
  rw [Dir.key, hchild]
  rfl

theorem key_pointsto (hchild : d.node.child = .pointsto p) (i : ℕ) :
    d.key i = p.itMin + UInt64.ofNat i := by
  rw [Dir.key, hchild, UInt64.add_comm]
  rfl

theorem key_virt (hchild : d.node.child = .virt v) (i : ℕ) :
    d.key i = (UInt64.ofNat i).toUInt32.toUInt64 := by
  rw [Dir.key, hchild]
  rfl

/-- A search that gets to a listed element finds it if it can read the names up to there. -/
theorem search_iff (hl : d.Listed name i) (hint : isInt name = false) {inRange : UInt64 → Bool}
    {cut : UInt64 → UInt64} {start : UInt64} {T : ℕ}
    (hcut : ∀ idx, d.followWith (cut idx) = d.followWith idx)
    (hT : cut (start + UInt64.ofNat T) = d.key i)
    (hne : ∀ t, t < T → cut (start + UInt64.ofNat t) ≠ d.key i)
    (hrange : ∀ t, t ≤ T → inRange (start + UInt64.ofNat t) = true) :
    Returns (fun turns => d.followNameFrom inRange cut name turns start) (some (d.key i)) ↔
      d.getname (d.key i) 255 = .ok (some name) ∧
        ∀ t, t < T → d.PassedOver name (cut (start + UInt64.ofNat t)) := by
  obtain ⟨-, -, -, hentry⟩ := listed_iff.mp hl
  have hname := hasName_of_getname (getname_of_entryName hentry hint).1
  rw [followNameFrom_iff hcut hname hT hne hrange, hasName_iff hl]

/-- The elements before a listed one are below the bound of the node. -/
theorem lt_arrMax_of_listed (hl : d.Listed name i) : i < d.node.arrMax.toNat := by
  obtain ⟨hi, -, ⟨ti, err, hti⟩, -⟩ := listed_iff.mp hl
  have hlt := UInt64.lt_iff_toNat_lt.mp (followWith_of_some hti).1
  rwa [toUInt64_ofNat (by omega), UInt64.toNat_ofNat_of_lt' (by simp [UInt64.size]; omega)] at hlt

theorem ofNat_ne {i j : ℕ} (hi : i < 2 ^ 64) (hj : j < 2 ^ 64) (h : j ≠ i) :
    UInt64.ofNat j ≠ UInt64.ofNat i := by
  intro heq
  have hnat := congrArg UInt64.toNat heq
  rw [UInt64.toNat_ofNat', UInt64.toNat_ofNat', Nat.mod_eq_of_lt hi, Nat.mod_eq_of_lt hj] at hnat
  exact h hnat

theorem field_iff (ho : Obtained d.node) (hchild : d.node.child = .field f) (hdist : d.Distinct)
    (hl : d.Listed name i) (hint : isInt name = false) :
    Returns (d.followNameTf f name) (some (d.key i)) ↔
      d.getname (d.key i) 255 = .ok (some name) ∧ ∀ j, j < i → d.Taken j → d.Reads j := by
  have hi := (listed_iff.mp hl).1
  have hmax := lt_arrMax_of_listed hl
  rw [ho.arrMax_eq, hchild] at hmax
  have hplace : ∀ t : ℕ, id (0 + UInt64.ofNat t) = d.key t := by
    intro t
    rw [key_field hchild, id, UInt64.zero_add]
  have hcut : ∀ idx, d.followWith (id idx) = d.followWith idx := fun _ => rfl
  unfold Dir.followNameTf
  rw [search_iff hl hint hcut (hplace i)]
  · refine and_congr_right fun _ => forall₂_congr fun j hj => ?_
    rw [hplace, passedOver_iff hdist hl hint hj]
  · intro t ht
    rw [hplace, key_field hchild, key_field hchild]
    exact ofNat_ne (by omega) (by omega) (by omega)
  · intro t ht
    rw [decide_eq_true_eq, UInt64.zero_add, UInt64.le_iff_toNat_le, UInt64.toNat_ofNat',
      Nat.mod_eq_of_lt (by omega)]
    have hcount : i < f.elemcount.toNat := hmax
    omega

/-- The node of a range has an end that is not below its start. -/
theorem range_of_obtained (ho : Obtained d.node) (hchild : d.node.child = .pointsto p) :
    p.itMin ≠ -1 ∧ p.itMin ≤ p.itMax ∧ d.node.arrMax = p.itMax - p.itMin + 1 := by
  rcases ho with ⟨f, cond, h⟩ | ⟨c, h⟩
  · unfold followTf at h
    split_ifs at h
    rw [← Option.some.inj h] at hchild
    cases hchild
  · cases c with
    | field f => cases h
    | pointsto q =>
      simp only [followName] at h
      split_ifs at h with hmin hlt
      rw [← Option.some.inj h] at hchild ⊢
      cases hchild
      exact ⟨hmin, UInt64.not_lt.mp hlt, rfl⟩
    | virt v =>
      rw [← Option.some.inj h] at hchild
      cases hchild

theorem pointsto_iff (ho : Obtained d.node) (hchild : d.node.child = .pointsto p) (hdist : d.Distinct)
    (hl : d.Listed name i) (hint : isInt name = false) :
    Returns (d.followNamePt p name) (some (d.key i)) ↔
      d.getname (d.key i) 255 = .ok (some name) ∧ ∀ j, j < i → d.Taken j → d.Reads j := by
  have hi := (listed_iff.mp hl).1
  obtain ⟨hmin, hle, hmax⟩ := range_of_obtained ho hchild
  have hlt := lt_arrMax_of_listed hl
  rw [hmax] at hlt
  have hplace : ∀ t : ℕ, id (p.itMin + UInt64.ofNat t) = d.key t := by
    intro t
    rw [key_pointsto hchild, id]
  have hsearch : ∀ turns, d.followNamePt p name turns =
      d.followNameFrom (fun idx => decide (idx ≤ p.itMax)) id name turns p.itMin := fun turns =>
    if_neg hmin
  have hcut : ∀ idx, d.followWith (id idx) = d.followWith idx := fun _ => rfl
  simp only [funext hsearch]
  rw [search_iff hl hint hcut (hplace i)]
  · refine and_congr_right fun _ => forall₂_congr fun j hj => ?_
    rw [hplace, passedOver_iff hdist hl hint hj]
  · intro t ht
    rw [hplace, key_pointsto hchild, key_pointsto hchild]
    exact fun heq => ofNat_ne (by omega) (by omega) (by omega) ((UInt64.add_right_inj _).mp heq)
  · intro t ht
    -- there is no wrap below the end of the range
    have hle' := UInt64.le_iff_toNat_le.mp hle
    have hend := p.itMax.toNat_lt
    rw [UInt64.toNat_add, UInt64.toNat_sub_of_le _ _ hle] at hlt
    have hone : (1 : UInt64).toNat = 1 := rfl
    rw [decide_eq_true_eq, UInt64.le_iff_toNat_le, UInt64.toNat_add, UInt64.toNat_ofNat']
    omega

theorem toNat_place (start : UInt64) (t : ℕ) :
    (start + UInt64.ofNat t).toUInt32.toUInt64.toNat = (start.toUInt32.toNat + t) % 2 ^ 32 := by
  rw [UInt32.toNat_toUInt64, UInt64.toNat_toUInt32, UInt64.toNat_toUInt32, UInt64.toNat_add,
    UInt64.toNat_ofNat']
  omega

theorem toNat_key_virt (hchild : d.node.child = .virt v) (hi : i < 2 ^ 32) : (d.key i).toNat = i := by
  rw [key_virt hchild, UInt32.toNat_toUInt64, UInt64.toNat_toUInt32, UInt64.toNat_ofNat']
  omega

theorem followWith_cut (hchild : d.node.child = .virt v) (idx : UInt64) :
    d.followWith idx.toUInt32.toUInt64 = d.followWith idx := by
  simp only [Dir.followWith, hchild, UInt32.toUInt32_toUInt64]

/-- The places that the search of a virtual type comes by before a listed element. -/
theorem passes_virt_iff (hchild : d.node.child = .virt v) (hi : i < 2 ^ 32) {m : ℕ}
    (hm : d.vtMin.toUInt32.toNat = m) :
    (∀ t, t < (if m ≤ i then i - m else 2 ^ 32 - m + i) →
        d.PassedOver name (d.vtMin + UInt64.ofNat t).toUInt32.toUInt64) ↔
      (m ≤ i ∨ ∀ j : UInt32, d.vtMin.toUInt32 ≤ j → d.PassedOver name j.toUInt64) ∧
        ∀ j, j < i → m ≤ j ∨ i < m → d.PassedOver name (d.key j) := by
  have hplace : ∀ {t j : ℕ}, j < 2 ^ 32 → (m + t) % 2 ^ 32 = j →
      (d.vtMin + UInt64.ofNat t).toUInt32.toUInt64 = d.key j := by
    intro t j hj heq
    rw [← UInt64.toNat_inj, toNat_place, toNat_key_virt hchild hj, hm, heq]
  have hm32 : m < 2 ^ 32 := hm ▸ d.vtMin.toUInt32.toNat_lt
  split_ifs with hle
  · constructor
    · intro h
      refine ⟨Or.inl hle, fun j hj hmj => ?_⟩
      have hmj' : m ≤ j := by omega
      rw [← hplace (by omega) (by omega : (m + (j - m)) % 2 ^ 32 = j)]
      exact h (j - m) (by omega)
    · rintro ⟨-, h⟩ t ht
      rw [hplace (by omega) (by omega : (m + t) % 2 ^ 32 = m + t)]
      exact h (m + t) (by omega) (Or.inl (by omega))
  · have hplace' : ∀ {t : ℕ} {j : UInt32}, m + t = j.toNat →
        (d.vtMin + UInt64.ofNat t).toUInt32.toUInt64 = j.toUInt64 := by
      intro t j heq
      have hj := j.toNat_lt
      rw [← UInt64.toNat_inj, toNat_place, UInt32.toNat_toUInt64, hm]
      omega
    constructor
    · intro h
      refine ⟨Or.inr fun j hj => ?_, fun j hj _ => ?_⟩
      · have hmj := UInt32.le_iff_toNat_le.mp hj
        have hj32 := j.toNat_lt
        rw [← hplace' (by omega : m + (j.toNat - m) = j.toNat)]
        exact h (j.toNat - m) (by omega)
      · rw [← hplace (by omega) (by omega : (m + (2 ^ 32 - m + j)) % 2 ^ 32 = j)]
        exact h (2 ^ 32 - m + j) (by omega)
    · rintro ⟨hwrap, h⟩ t ht
      rcases Nat.lt_or_ge (m + t) (2 ^ 32) with hlt | hge
      · have hnat : (UInt32.ofNat (m + t)).toNat = m + t := by
          rw [UInt32.toNat_ofNat']
          omega
        rw [hplace' hnat.symm]
        refine (hwrap.resolve_left hle) _ (UInt32.le_iff_toNat_le.mpr ?_)
        omega
      · rw [hplace (by omega) (by omega : (m + t) % 2 ^ 32 = m + t - 2 ^ 32)]
        exact h (m + t - 2 ^ 32) (by omega) (Or.inr (by omega))

theorem virt_iff (hchild : d.node.child = .virt v) (hdist : d.Distinct) (hl : d.Listed name i)
    (hint : isInt name = false) :
    Returns (d.followNameVt name) (some (d.key i)) ↔
      d.getname (d.key i) 255 = .ok (some name) ∧ d.Starts name i ∧
        ∀ j, j < i → d.Searched i j → d.Taken j → d.Reads j := by
  have hi := (listed_iff.mp hl).1
  have hstarts : d.Starts name i ↔ d.vtMin ≠ -1 ∧ (d.vtMin.toUInt32.toNat ≤ i ∨
      ∀ j : UInt32, d.vtMin.toUInt32 ≤ j → d.PassedOver name j.toUInt64) := by
    rw [Dir.Starts, hchild]
  have hsearched : ∀ j, d.Searched i j ↔ d.vtMin.toUInt32.toNat ≤ j ∨ i < d.vtMin.toUInt32.toNat := by
    intro j
    rw [Dir.Searched, hchild]
  rw [hstarts]
  by_cases hmin : d.vtMin = -1
  · -- the search gives up
    have hnone : Returns (d.followNameVt name) none := ⟨0, fun turns _ => if_pos hmin⟩
    constructor
    · intro hret
      cases hret.unique hnone
    · rintro ⟨-, ⟨hne, -⟩, -⟩
      exact absurd hmin hne
  · have hm32 := d.vtMin.toUInt32.toNat_lt
    have hsearch : ∀ turns, d.followNameVt name turns =
        d.followNameFrom (fun _ => true) (fun idx => idx.toUInt32.toUInt64) name turns d.vtMin :=
      fun turns => if_neg hmin
    simp only [funext hsearch]
    rw [search_iff hl hint (followWith_cut hchild)
      (T := if d.vtMin.toUInt32.toNat ≤ i then i - d.vtMin.toUInt32.toNat
        else 2 ^ 32 - d.vtMin.toUInt32.toNat + i)]
    · rw [passes_virt_iff hchild (by omega) rfl, and_iff_right hmin]
      refine and_congr_right fun _ => and_congr_right fun _ => forall₂_congr fun j hj => ?_
      rw [hsearched, passedOver_iff hdist hl hint hj]
    · rw [← UInt64.toNat_inj, toNat_place, toNat_key_virt hchild (by omega)]
      split_ifs <;> omega
    · intro t ht heq
      rw [← UInt64.toNat_inj, toNat_place, toNat_key_virt hchild (by omega)] at heq
      split_ifs at ht <;> omega
    · exact fun _ _ => rfl

theorem followedWith_inj {c : Child} {idx idx' : UInt32}
    (h : followedWith c idx.toUInt64 = followedWith c idx'.toUInt64) : idx = idx' := by
  cases c with
  | field f => exact UInt32.toUInt64_inj.mp h
  | pointsto p => exact UInt32.toUInt64_inj.mp ((UInt64.add_left_inj _).mp h)
  | virt v =>
    simp only [followedWith, UInt32.toUInt32_toUInt64] at h
    exact UInt32.toUInt64_inj.mp h

theorem digits_iff (hl : d.Listed name i) (hint : isInt name = true) :
    Returns (d.arrayLookup name) (some (d.key i)) ↔ strtol name = UInt32.ofNat i := by
  obtain ⟨hi, -, ⟨ti, err, hti⟩, -⟩ := listed_iff.mp hl
  have hkey : d.key i = followedWith d.node.child (UInt32.ofNat i).toUInt64 := by
    rw [Dir.key, toUInt64_ofNat (by omega)]
  constructor
  · rintro ⟨enough, hret⟩
    have hrun := hret enough le_rfl
    unfold Dir.arrayLookup at hrun
    rw [if_pos hint] at hrun
    obtain ⟨r, -, hrun⟩ := bind_eq_ok hrun
    have hsome := Option.some.inj (Except.ok.inj hrun)
    split_ifs at hsome
    exact followedWith_inj ((Option.some.inj hsome).trans hkey)
  · intro heq
    refine ⟨0, fun turns _ => ?_⟩
    unfold Dir.arrayLookup
    rw [if_pos hint, heq, hti, ok_bind, hkey]
    rfl

theorem arrayLookup_of_not_int (hint : isInt name = false) :
    d.arrayLookup name = d.followPrettyName name := by
  funext turns
  exact if_neg (by simp [hint])

theorem followPrettyName_field (hchild : d.node.child = .field f) :
    d.followPrettyName name = d.followNameTf f name := by
  funext turns
  simp only [Dir.followPrettyName, hchild]

theorem followPrettyName_pointsto (hchild : d.node.child = .pointsto p) :
    d.followPrettyName name = d.followNamePt p name := by
  funext turns
  simp only [Dir.followPrettyName, hchild]

theorem followPrettyName_virt (hchild : d.node.child = .virt v) :
    d.followPrettyName name = d.followNameVt name := by
  funext turns
  simp only [Dir.followPrettyName, hchild]

/-- What a listed name resolves to, for all three kinds of children. -/
theorem resolves_iff (ho : Obtained d.node) (hdist : d.Distinct) (hl : d.Listed name i) :
    Returns (d.arrayLookup name) (some (d.key i)) ↔ d.Resolvable name i := by
  unfold Dir.Resolvable
  split_ifs with hint
  · exact digits_iff hl hint
  · rw [Bool.not_eq_true] at hint
    rw [arrayLookup_of_not_int hint]
    cases hchild : d.node.child with
    | field f =>
      rw [followPrettyName_field hchild]
      simpa only [Dir.Starts, Dir.Searched, hchild, true_and, forall_const]
        using field_iff ho hchild hdist hl hint
    | pointsto p =>
      rw [followPrettyName_pointsto hchild]
      simpa only [Dir.Starts, Dir.Searched, hchild, true_and, forall_const]
        using pointsto_iff ho hchild hdist hl hint
    | virt v =>
      rw [followPrettyName_virt hchild]
      exact virt_iff hchild hdist hl hint

end Resolving

/-! ## Elements behind the last one -/

/-- The index of an element in its child, by the index it was followed with. -/
def indexOf : Child → UInt64 → UInt64
  | .pointsto p, k => k - p.itMin
  | _, k => k

/-- The number of elements; that of a virtual type is not known and the bridge takes `~0` for it. -/
def elemCount : Child → ℕ
  | .field f => f.elemcount.toNat
  | .pointsto p => p.itMax.toNat - p.itMin.toNat + 1
  | .virt _ => (-1 : UInt64).toNat

namespace Dir

/-- The element followed with `k` is found by a name that is not one of digits and that no element
followed with an index of `before` has. -/
def FoundBehind (d : Dir) (before : UInt64 → Prop) (k : UInt64) : Prop :=
  ∃ name, isInt name = false ∧ d.hasName = true ∧ d.HasName name k ∧
    ∀ idx, before idx → d.PassedOver name idx

/-- An element that is not one of the child is found: that behind the last one of a field, or where a
range ends with the greatest index one before its first. -/
def PastEnd (d : Dir) : Prop :=
  match d.node.child with
  | .field f => d.FoundBehind (· < f.elemcount) f.elemcount
  | .pointsto p => p.itMax = -1 ∧ ∃ k, k < p.itMin ∧ d.FoundBehind (fun idx => p.itMin ≤ idx ∨ idx < k) k
  | .virt _ => False

/-- Every listed name resolves to the element it is listed for. -/
def Resolves (d : Dir) : Prop :=
  ∀ name i, d.Listed name i → Returns (d.arrayLookup name) (some (d.key i))

/-- A lookup returns only elements of the child. -/
def StaysBelow (d : Dir) : Prop :=
  ∀ name k, Returns (d.arrayLookup name) (some k) →
    (indexOf d.node.child k).toNat < elemCount d.node.child

end Dir

section Behind

variable {f : FieldArray} {p : PointsTo} {v : Virtual} {k : UInt64}

/-- An element that is looked up by its index is one of the child. -/
theorem below_of_digits (ho : Obtained d.node) (hint : isInt name = true)
    (hret : Returns (d.arrayLookup name) (some k)) :
    (indexOf d.node.child k).toNat < elemCount d.node.child := by
  obtain ⟨enough, hret⟩ := hret
  have hrun := hret enough le_rfl
  unfold Dir.arrayLookup at hrun
  rw [if_pos hint] at hrun
  obtain ⟨⟨ti, err⟩, hti, hrun⟩ := bind_eq_ok hrun
  have hsome := Option.some.inj (Except.ok.inj hrun)
  cases ti with
  | none => cases hsome
  | some ti =>
    obtain rfl := Option.some.inj hsome
    have hlt := UInt64.lt_iff_toNat_lt.mp (followWith_of_some hti).1
    cases hchild : d.node.child with
    | field f =>
      rw [ho.arrMax_eq, hchild] at hlt
      exact hlt
    | pointsto p =>
      obtain ⟨-, hle, hmax⟩ := range_of_obtained ho hchild
      have hle' := UInt64.le_iff_toNat_le.mp hle
      have hone : (1 : UInt64).toNat = 1 := rfl
      rw [hmax, UInt64.toNat_add, UInt64.toNat_sub_of_le _ _ hle] at hlt
      simp only [indexOf, followedWith, elemCount, UInt64.add_sub_cancel]
      omega
    | virt v =>
      rw [ho.arrMax_eq, hchild] at hlt
      simp only [indexOf, followedWith, elemCount, UInt32.toUInt32_toUInt64]
      exact hlt

/-- Where a search found an element, it had come by those before it. -/
theorem exists_of_returns {inRange : UInt64 → Bool} {cut : UInt64 → UInt64} {start : UInt64}
    (hcut : ∀ idx, d.followWith (cut idx) = d.followWith idx)
    (hret : Returns (fun turns => d.followNameFrom inRange cut name turns start) (some k)) :
    d.hasName = true ∧ ∃ t, cut (start + UInt64.ofNat t) = k ∧
      (∀ u, u ≤ t → inRange (start + UInt64.ofNat u) = true) := by
  obtain ⟨enough, hret⟩ := hret
  have hrun := hret enough le_rfl
  unfold Dir.followNameFrom at hrun
  split_ifs at hrun with hname
  · cases hrun
  · obtain ⟨t, hpasses, hfound⟩ := found_of_scan hrun
    rw [iterate_add_one] at hfound
    obtain ⟨hin, hkt, -⟩ := (round_eq_found_iff hcut).mp hfound
    refine ⟨by simpa using hname, t, hkt, fun u hu => ?_⟩
    rcases Nat.eq_or_lt_of_le hu with rfl | hlt
    · exact hin
    · have hnext := hpasses u hlt
      rw [iterate_add_one] at hnext
      exact ((round_eq_next_iff hcut).mp hnext).1

/-- The search finds an element by a name if the elements it comes by first do not have it. -/
theorem returns_behind_iff {inRange : UInt64 → Bool} {start : UInt64} {T : ℕ} {before : UInt64 → Prop}
    (hname : d.hasName = true) (hT : start + UInt64.ofNat T = k)
    (hbefore : ∀ idx, before idx ↔ ∃ t, t < T ∧ start + UInt64.ofNat t = idx) (hk : ¬ before k)
    (hrange : ∀ t, t ≤ T → inRange (start + UInt64.ofNat t) = true) :
    Returns (fun turns => d.followNameFrom inRange id name turns start) (some k) ↔
      d.HasName name k ∧ ∀ idx, before idx → d.PassedOver name idx := by
  have hcut : ∀ idx, d.followWith (id idx) = d.followWith idx := fun _ => rfl
  rw [followNameFrom_iff hcut hname hT (fun t ht heq => hk ((hbefore k).mpr ⟨t, ht, heq⟩)) hrange]
  refine and_congr_right fun _ => ⟨fun h idx hidx => ?_, fun h t ht => h _ ((hbefore _).mpr ⟨t, ht, rfl⟩)⟩
  obtain ⟨t, ht, rfl⟩ := (hbefore idx).mp hidx
  exact h t ht

theorem toNat_start_add (start : UInt64) (t : ℕ) :
    (start + UInt64.ofNat t).toNat = (start.toNat + t) % 2 ^ 64 := by
  rw [UInt64.toNat_add, UInt64.toNat_ofNat', Nat.add_mod_mod]

theorem behind_field_iff (hname : d.hasName = true) :
    Returns (d.followNameTf f name) (some f.elemcount) ↔
      d.HasName name f.elemcount ∧ ∀ idx, idx < f.elemcount → d.PassedOver name idx := by
  have hlt := f.elemcount.toNat_lt
  have hzero : (0 : UInt64).toNat = 0 := rfl
  refine returns_behind_iff hname (T := f.elemcount.toNat) ?_ (fun idx => ?_) (UInt64.lt_irrefl _) ?_
  · rw [← UInt64.toNat_inj, toNat_start_add]
    omega
  · rw [UInt64.lt_iff_toNat_lt]
    constructor
    · intro h
      refine ⟨idx.toNat, h, ?_⟩
      rw [← UInt64.toNat_inj, toNat_start_add]
      omega
    · rintro ⟨t, ht, rfl⟩
      rw [toNat_start_add]
      omega
  · intro t ht
    rw [decide_eq_true_eq, UInt64.le_iff_toNat_le, toNat_start_add]
    omega

/-- Where a range ends with the greatest index the search goes on with the index 0. -/
theorem behind_pointsto_iff (hname : d.hasName = true) (hmin : p.itMin ≠ -1) (hmax : p.itMax = -1)
    (hk : k < p.itMin) : Returns (d.followNamePt p name) (some k) ↔
      d.HasName name k ∧ ∀ idx, p.itMin ≤ idx ∨ idx < k → d.PassedOver name idx := by
  have hk' := UInt64.lt_iff_toNat_lt.mp hk
  have hlt := p.itMin.toNat_lt
  have hsearch : ∀ turns, d.followNamePt p name turns =
      d.followNameFrom (fun idx => decide (idx ≤ p.itMax)) id name turns p.itMin := fun turns =>
    if_neg hmin
  simp only [funext hsearch]
  refine returns_behind_iff hname (T := 2 ^ 64 - p.itMin.toNat + k.toNat) ?_ (fun idx => ?_) ?_ ?_
  · rw [← UInt64.toNat_inj, toNat_start_add]
    omega
  · rw [UInt64.le_iff_toNat_le, UInt64.lt_iff_toNat_lt]
    constructor
    · have hidx := idx.toNat_lt
      intro h
      refine ⟨(idx.toNat + (2 ^ 64 - p.itMin.toNat)) % 2 ^ 64, by omega, ?_⟩
      rw [← UInt64.toNat_inj, toNat_start_add]
      omega
    · rintro ⟨t, ht, rfl⟩
      rw [toNat_start_add]
      omega
  · rintro (hle | hlt')
    · exact absurd hk (UInt64.not_lt.mpr hle)
    · exact UInt64.lt_irrefl _ hlt'
  · intro t _
    rw [decide_eq_true_eq, hmax, UInt64.le_iff_toNat_le]
    have hend : (-1 : UInt64).toNat = 2 ^ 64 - 1 := rfl
    have hplace := (p.itMin + UInt64.ofNat t).toNat_lt
    omega

theorem staysBelow_field_iff (ho : Obtained d.node) (hchild : d.node.child = .field f) :
    d.StaysBelow ↔ ¬ d.FoundBehind (· < f.elemcount) f.elemcount := by
  constructor
  · rintro hbelow ⟨name, hint, hname, hhas⟩
    have hret : Returns (d.arrayLookup name) (some f.elemcount) := by
      rw [arrayLookup_of_not_int hint, followPrettyName_field hchild]
      exact (behind_field_iff hname).mpr hhas
    have hlt := hbelow name f.elemcount hret
    rw [hchild] at hlt
    exact absurd hlt (Nat.lt_irrefl _)
  · intro hpast name k hret
    cases hint : isInt name with
    | true => exact below_of_digits ho hint hret
    | false =>
      rw [arrayLookup_of_not_int hint, followPrettyName_field hchild] at hret
      have hcut : ∀ idx, d.followWith (id idx) = d.followWith idx := fun _ => rfl
      obtain ⟨hname, t, hk, hin⟩ := exists_of_returns hcut hret
      have hle := UInt64.le_iff_toNat_le.mp (of_decide_eq_true (hin t le_rfl))
      rw [id] at hk
      rw [hk] at hle
      rw [hchild]
      refine lt_of_le_of_ne hle fun heq => hpast ⟨name, hint, hname, ?_⟩
      obtain rfl := UInt64.toNat_inj.mp heq
      exact (behind_field_iff hname).mp hret

theorem staysBelow_pointsto_iff (ho : Obtained d.node) (hchild : d.node.child = .pointsto p) :
    d.StaysBelow ↔ ¬ (p.itMax = -1 ∧ ∃ k, k < p.itMin ∧
      d.FoundBehind (fun idx => p.itMin ≤ idx ∨ idx < k) k) := by
  obtain ⟨hmin, hle, -⟩ := range_of_obtained ho hchild
  have hle' := UInt64.le_iff_toNat_le.mp hle
  have hend := p.itMax.toNat_lt
  have hlast : (-1 : UInt64).toNat = 2 ^ 64 - 1 := rfl
  constructor
  · rintro hbelow ⟨hmax, k, hk, name, hint, hname, hhas⟩
    have hret : Returns (d.arrayLookup name) (some k) := by
      rw [arrayLookup_of_not_int hint, followPrettyName_pointsto hchild]
      exact (behind_pointsto_iff hname hmin hmax hk).mpr hhas
    have hlt := hbelow name k hret
    have hk' := UInt64.lt_iff_toNat_lt.mp hk
    rw [hchild] at hlt
    simp only [indexOf, elemCount, UInt64.toNat_sub, hmax, hlast] at hlt
    omega
  · intro hpast name k hret
    cases hint : isInt name with
    | true => exact below_of_digits ho hint hret
    | false =>
      rw [arrayLookup_of_not_int hint, followPrettyName_pointsto hchild] at hret
      have hsearch := hret
      have hcut : ∀ idx, d.followWith (id idx) = d.followWith idx := fun _ => rfl
      unfold Dir.followNamePt at hsearch
      simp only [if_neg hmin] at hsearch
      obtain ⟨hname, t, rfl, hin⟩ := exists_of_returns hcut hsearch
      have hplace : ∀ u, u ≤ t → (p.itMin.toNat + u) % 2 ^ 64 ≤ p.itMax.toNat := by
        intro u hu
        rw [← toNat_start_add]
        exact UInt64.le_iff_toNat_le.mp (of_decide_eq_true (hin u hu))
      rcases UInt64.lt_or_le (id (p.itMin + UInt64.ofNat t)) p.itMin with hk | hk
      · -- the search came by the end of the range, so that this is no end
        have hk' := UInt64.lt_iff_toNat_lt.mp hk
        rw [id, toNat_start_add] at hk'
        have hmax : p.itMax = -1 := by
          rw [← UInt64.toNat_inj, hlast]
          by_contra hne
          have hstep := hplace (p.itMax.toNat + 1 - p.itMin.toNat) (by omega)
          omega
        exact absurd ⟨hmax, _, hk, name, hint, hname,
          (behind_pointsto_iff hname hmin hmax hk).mp hret⟩ hpast
      · have hk' := UInt64.le_iff_toNat_le.mp hk
        have hin' := hplace t le_rfl
        rw [← toNat_start_add] at hin'
        rw [hchild]
        simp only [indexOf, elemCount]
        rw [UInt64.toNat_sub_of_le _ _ hk]
        rw [id] at hk' ⊢
        omega

theorem staysBelow_virt (ho : Obtained d.node) (hchild : d.node.child = .virt v) : d.StaysBelow := by
  intro name k hret
  cases hint : isInt name with
  | true => exact below_of_digits ho hint hret
  | false =>
    rw [arrayLookup_of_not_int hint, followPrettyName_virt hchild] at hret
    unfold Dir.followNameVt at hret
    split_ifs at hret with hmin
    · obtain ⟨enough, hret⟩ := hret
      cases hret enough le_rfl
    · obtain ⟨-, t, rfl, -⟩ := exists_of_returns (followWith_cut hchild) hret
      rw [hchild]
      have hlast : (-1 : UInt64).toNat = 2 ^ 64 - 1 := rfl
      simp only [indexOf, elemCount]
      rw [toNat_place, hlast]
      omega

/-- When a lookup returns only elements of the child. -/
theorem staysBelow_iff (ho : Obtained d.node) : d.StaysBelow ↔ ¬ d.PastEnd := by
  unfold Dir.PastEnd
  cases hchild : d.node.child with
  | field f => exact staysBelow_field_iff ho hchild
  | pointsto p => exact staysBelow_pointsto_iff ho hchild
  | virt v => exact iff_of_true (staysBelow_virt ho hchild) not_false

end Behind

/-- Every listed name resolves to its element and a lookup returns only elements of the child, if and
only if the listed names are resolvable and no element behind the last one is found. -/
theorem lookup_exact_iff (d : Dir) (ho : Obtained d.node) (hdist : d.Distinct) :
    d.Resolves ∧ d.StaysBelow ↔
      (∀ name i, d.Listed name i → d.Resolvable name i) ∧ ¬ d.PastEnd := by
  refine and_congr ?_ (staysBelow_iff ho)
  exact forall₂_congr fun name i => forall_congr' fun hl => resolves_iff ho hdist hl

/-! ## Two letters -/

/-- A disk that begins with `abc`. -/
def lettersDisk : Disk where
  size := 3
  byte i := if i < 3 then UInt8.ofNat (97 + i) else 0
  size_lt := by norm_num
  byte_eq_zero := fun _ h => if_neg (Nat.not_lt.mpr h)

/-- The first two of the letters. -/
def twoLetters : FieldArray where
  elemcount := 2
  fieldbitoff := 0
  typesize := 8
  fixed := true
  size _ _ := .ok 8
  follow _ _ := .ok true

/-- The directory of the two letters, each of which is its own name. -/
def letters : Dir where
  node := ⟨.field twoLetters, 2⟩
  vtMin := -1
  geom := ⟨4096, 4096, by norm_num, by norm_num, dvd_rfl⟩
  disk := lettersDisk
  hasName := true
  nameTi idx := .ok (some ⟨8, 8 * idx⟩)

theorem getname_letters {i len : ℕ} (hi : i < 3) (hlen : 1 < len) :
    letters.getname (UInt64.ofNat i) len = .ok (some [UInt8.ofNat (97 + i)]) := by
  have hbytes : letters.toBuf ⟨8, 8 * UInt64.ofNat i⟩ (len - 1) = .ok [UInt8.ofNat (97 + i)] := by
    have hsize : (((8 : UInt64) + 7) / 8).toNat = 1 := rfl
    have hoff : (8 * UInt64.ofNat i / 8).toNat = i := by interval_cases i <;> rfl
    have hone : min 1 (len - 1) = 1 := by omega
    unfold Dir.toBuf
    dsimp only
    rw [hsize, hoff, hone, Kernel.readBytes]
    interval_cases i <;> rfl
  show (do
    let s ← letters.toBuf ⟨8, 8 * UInt64.ofNat i⟩ (len - 1)
    return some s) = _
  rw [hbytes]
  rfl

theorem entryName_letters {i : ℕ} (hi : i < 3) : letters.entryName i = .ok [UInt8.ofNat (97 + i)] :=
  entryName_of_getname (getname_letters hi (by norm_num)) le_rfl

theorem followWith_letters {i : ℕ} (hi : i < 3) :
    letters.followWith (UInt64.ofNat i) = .ok (true, .ok) := by
  interval_cases i <;> rfl

theorem obtained_letters : Obtained letters.node := Or.inl ⟨twoLetters, none, rfl⟩

theorem distinct_letters : letters.Distinct := by
  have hname : ∀ {name i}, letters.Listed name i → i < 2 ∧ name = [UInt8.ofNat (97 + i)] := by
    intro name i hl
    have hi : i < 2 := lt_arrMax_of_listed hl
    have hentry := (listed_iff.mp hl).2.2.2
    rw [entryName_letters (by omega)] at hentry
    exact ⟨hi, (Except.ok.inj hentry).symm⟩
  intro name i j hli hlj
  obtain ⟨hi, heqi⟩ := hname hli
  obtain ⟨hj, heqj⟩ := hname hlj
  rw [heqi] at heqj
  interval_cases i <;> interval_cases j <;> first | rfl | cases heqj

theorem lookup_exact_letters : letters.Resolves ∧ letters.StaysBelow ↔
    (∀ name i, letters.Listed name i → letters.Resolvable name i) ∧ ¬ letters.PastEnd :=
  lookup_exact_iff letters obtained_letters distinct_letters

/-- The third letter is found, which is not one of the array. -/
theorem not_lookup_letters : Obtained letters.node ∧ letters.Distinct ∧
    Returns (letters.arrayLookup [99]) (some 2) ∧ ¬ (letters.Resolves ∧ letters.StaysBelow) := by
  have hret : Returns (letters.arrayLookup [99]) (some 2) := by
    rw [arrayLookup_of_not_int rfl, followPrettyName_field rfl]
    refine (behind_field_iff rfl).mpr
      ⟨⟨⟨.ok, followWith_letters (i := 2) (by norm_num)⟩,
        getname_letters (i := 2) (by norm_num) (by norm_num)⟩, fun idx hidx => ?_⟩
    obtain ⟨i, hi, rfl⟩ : ∃ i, i < 2 ∧ UInt64.ofNat i = idx :=
      ⟨idx.toNat, UInt64.lt_iff_toNat_lt.mp hidx, UInt64.ofNat_toNat⟩
    refine Or.inr ⟨.ok, _, followWith_letters (by omega), getname_letters (by omega) (by norm_num), ?_⟩
    interval_cases i <;> simp
  refine ⟨obtained_letters, distinct_letters, hret, fun hmeets => ?_⟩
  exact absurd (hmeets.2 _ _ hret) (Nat.lt_irrefl 2)

end Fsl.ArrayLookup
