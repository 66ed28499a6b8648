import Fsl.Lib.Offer
import Fsl.Runtime.Disk

/-!
# Listing an instance in the kernel module

`fsl_type_readdir` of `kernel/mod/inode.c`: the two entries that every directory has, and then three
loops over the fields, the points-to ranges and the virtual types of an instance. A call stops where the
filler has no room, and the next one resumes there: `f_pos` counts what was offered, `fp_realpos` the
entries of the three tables that were passed.
-/

namespace Fsl.Kernel

open Offer

/-- `DT_REG` and `DT_DIR` -/
inductive Dt
  | reg
  | dir
  deriving DecidableEq, Repr

/-- What the filler is given of an entry. -/
structure Entry where
  name : String
  dt : Dt
  deriving DecidableEq, Repr

/-- A field of the instance, as `fsl_bridge_follow_tf` finds it on the disk. -/
structure FieldAt where
  fieldname : String
  /-- `tf_typenum` is not `TYPENUM_INVALID`. -/
  typed : Bool
  /-- The value of `tf_cond`, if there is one. -/
  cond : Option Bool
  elemcount : UInt64
  /-- `typeinfo_follow_field` returns an instance. -/
  follows : Bool

/-- A points-to range or a virtual type of the instance, with the bounds of its iterator. -/
structure IterAt where
  name : Option String
  min : UInt64
  max : UInt64

/-- The tables of the type of an instance, with what they evaluate to on the disk. -/
structure Instance where
  fieldall : List FieldAt
  pointsto : List IterAt
  virt : List IterAt

/-- `fsl_bridge_follow_tf` does not return `NULL`. -/
def FieldAt.followTf (f : FieldAt) : Bool :=
  if f.cond = some false then false
  else if f.elemcount = 0 then false
  else if f.elemcount = 1 then f.follows
  else true

/-- `iter_is_ok` -/
def IterAt.isOk (p : IterAt) : Bool := if p.min = -1 then false else decide (p.min ≤ p.max)

/-- The entry of a field, unless it is skipped. -/
def FieldAt.entry (f : FieldAt) : Option Entry :=
  if f.followTf then some ⟨f.fieldname, if f.typed then .dir else .reg⟩ else none

/-- The entry of a points-to range or a virtual type, unless it is skipped. -/
def IterAt.entry (p : IterAt) : Option Entry :=
  p.name.bind fun name => if p.isOk then some ⟨name, .dir⟩ else none

/-- The filler: whether an entry still goes into the buffer of the call. -/
abbrev Filler := List Entry → Entry → Bool

/-- `f_pos` and `fp_realpos` of an open file. -/
structure File where
  pos : ℕ
  realpos : ℕ
  deriving DecidableEq

/-- `fsl_type_open` -/
def typeOpen : File := ⟨0, 0⟩

/-- The variables of `fsl_type_readdir_ti`, and the buffer. -/
structure Cursor where
  i : ℕ
  pos : ℕ
  realpos : ℕ
  buf : List Entry

/-- One of the three loops; it tells whether the filler was full. -/
def loop (fill : Filler) (xs : List (Option Entry)) (s : Cursor) : Cursor × Bool :=
  if h : s.i < xs.length then
    match xs[s.i] with
    | none => loop fill xs { s with i := s.i + 1, realpos := s.realpos + 1 }
    | some e =>
      if fill s.buf e then
        loop fill xs ⟨s.i + 1, s.pos + 1, s.realpos + 1, s.buf ++ [e]⟩
      else ({ s with pos := s.pos + 1 }, true)
  else (s, false)
termination_by xs.length - s.i

/-- `is_full` -/
def isFull (s : Cursor) : File × List Entry := (⟨s.pos + 2, s.realpos⟩, s.buf)

/-- `fsl_type_readdir_ti` -/
def typeReaddirTi (t : Instance) (fill : Filler) (file : File) (buf : List Entry) :
    File × List Entry :=
  let fields := t.fieldall.map FieldAt.entry
  let points := t.pointsto.map IterAt.entry
  let virts := t.virt.map IterAt.entry
  let (s, full) := loop fill fields ⟨file.realpos, file.pos - 2, file.realpos, buf⟩
  if full then isFull s
  else
    let (s, full) := loop fill points { s with i := s.i - fields.length }
    if full then isFull s
    else
      let (s, _) := loop fill virts { s with i := s.i - points.length }
      isFull s

/-- `.` and `..` -/
def dot : Entry := ⟨".", .dir⟩

def dotdot : Entry := ⟨"..", .dir⟩

/-- `fsl_type_intrinsic_readdir`; whether the listing goes on. -/
def typeIntrinsicReaddir (fill : Filler) (file : File) (buf : List Entry) :
    (File × List Entry) × Bool :=
  let (file, buf, more) :=
    if file.pos = 0 then
      if fill buf dot then ({ file with pos := 1 }, buf ++ [dot], true) else (file, buf, false)
    else (file, buf, true)
  if more then
    if file.pos = 1 then
      if fill buf dotdot then (({ file with pos := 2 }, buf ++ [dotdot]), true)
      else ((file, buf), false)
    else ((file, buf), true)
  else ((file, buf), false)

/-- `fsl_type_readdir`, with an empty buffer. -/
def typeReaddir (t : Instance) (fill : Filler) (file : File) : File × List Entry :=
  let ((file, buf), more) := typeIntrinsicReaddir fill file []
  if more then typeReaddirTi t fill file buf else (file, buf)

/-- Calls one after the other, each with a filler of its own: the file, and all entries taken. -/
def calls (t : Instance) (fills : ℕ → Filler) : ℕ → File × List Entry
  | 0 => (typeOpen, [])
  | n + 1 =>
    let (file, taken) := calls t fills n
    let (file, buf) := typeReaddir t (fills n) file
    (file, taken ++ buf)

/-- What call `n` takes. -/
def takes (t : Instance) (fills : ℕ → Filler) (n : ℕ) : List Entry :=
  (typeReaddir t (fills n) (calls t fills n).1).2

/-! ## The three loops as one -/

variable {t : Instance} {fill : Filler}

/-- The tables one after the other. -/
def Instance.places (t : Instance) : List (Option Entry) :=
  t.fieldall.map FieldAt.entry ++ (t.pointsto.map IterAt.entry ++ t.virt.map IterAt.entry)

/-- A loop offers what is left of its table. -/
theorem loop_eq (fill : Filler) (xs : List (Option Entry)) (s : Cursor) :
    ∃ pos, s.pos ≤ pos ∧ loop fill xs s =
      (⟨s.i + (scan fill s.buf (xs.drop s.i)).used, pos,
        s.realpos + (scan fill s.buf (xs.drop s.i)).used, (scan fill s.buf (xs.drop s.i)).buf⟩,
        (scan fill s.buf (xs.drop s.i)).full) := by
  induction s using loop.induct fill xs with
  | case1 s h hnone ih =>
    obtain ⟨pos, hpos, hloop⟩ := ih
    refine ⟨pos, hpos, ?_⟩
    rw [loop, dif_pos h, hnone, hloop, List.drop_eq_getElem_cons h, hnone]
    simp only [scan, Prod.mk.injEq, Cursor.mk.injEq, and_true, true_and]
    omega
  | case2 s h e hsome hfill ih =>
    obtain ⟨pos, hpos, hloop⟩ := ih
    refine ⟨pos, by simp only at hpos; omega, ?_⟩
    rw [loop, dif_pos h, hsome]
    simp only
    rw [if_pos hfill, hloop, List.drop_eq_getElem_cons h, hsome, scan, if_pos hfill]
    simp only [Prod.mk.injEq, Cursor.mk.injEq, and_true, true_and]
    omega
  | case3 s h e hsome hfill =>
    refine ⟨s.pos + 1, Nat.le_succ _, ?_⟩
    rw [loop, dif_pos h, hsome, List.drop_eq_getElem_cons h, hsome, scan, if_neg hfill]
    simp only
    rw [if_neg hfill]
    rfl
  | case4 s h =>
    refine ⟨s.pos, le_rfl, ?_⟩
    rw [loop, dif_neg h, List.drop_eq_nil_of_le (by omega), scan]
    rfl

theorem drop_places (r : ℕ) : t.places.drop r =
    (t.fieldall.map FieldAt.entry).drop r ++
      ((t.pointsto.map IterAt.entry).drop (r - (t.fieldall.map FieldAt.entry).length) ++
        (t.virt.map IterAt.entry).drop (r - (t.fieldall.map FieldAt.entry).length -
          (t.pointsto.map IterAt.entry).length)) := by
  rw [Instance.places, List.drop_append, List.drop_append]

/-- The loops resume at `fp_realpos` and go through the rest of the tables. -/
theorem typeReaddirTi_eq (t : Instance) (fill : Filler) (file : File) (buf : List Entry) :
    ∃ pos, 2 ≤ pos ∧ typeReaddirTi t fill file buf =
      (⟨pos, file.realpos + (scan fill buf (t.places.drop file.realpos)).used⟩,
        (scan fill buf (t.places.drop file.realpos)).buf) := by
  rw [drop_places, typeReaddirTi]
  generalize t.fieldall.map FieldAt.entry = F
  generalize t.pointsto.map IterAt.entry = P
  generalize t.virt.map IterAt.entry = V
  obtain ⟨pos₁, hpos₁, h₁⟩ := loop_eq fill F ⟨file.realpos, file.pos - 2, file.realpos, buf⟩
  simp only at h₁
  rw [h₁, scan_append]
  cases hfull₁ : (scan fill buf (F.drop file.realpos)).full with
  | true => exact ⟨pos₁ + 2, Nat.le_add_left _ _, rfl⟩
  | false =>
    have hused₁ := used_of_not_full hfull₁
    have hi₁ : file.realpos + (F.drop file.realpos).length - F.length = file.realpos - F.length := by
      rw [List.length_drop]
      omega
    obtain ⟨pos₂, hpos₂, h₂⟩ := loop_eq fill P ⟨file.realpos - F.length, pos₁,
      file.realpos + (F.drop file.realpos).length, (scan fill buf (F.drop file.realpos)).buf⟩
    simp only at h₂
    simp only [Bool.false_eq_true, if_false, hused₁, hi₁, h₂]
    rw [scan_append]
    cases hfull₂ : (scan fill (scan fill buf (F.drop file.realpos)).buf
        (P.drop (file.realpos - F.length))).full with
    | true =>
      refine ⟨pos₂ + 2, Nat.le_add_left _ _, ?_⟩
      simp only [if_true, isFull, Nat.add_assoc]
    | false =>
      have hused₂ := used_of_not_full hfull₂
      have hi₂ : file.realpos - F.length + (P.drop (file.realpos - F.length)).length - P.length =
          file.realpos - F.length - P.length := by
        rw [List.length_drop]
        omega
      obtain ⟨pos₃, hpos₃, h₃⟩ := loop_eq fill V ⟨file.realpos - F.length - P.length, pos₂,
        file.realpos + (F.drop file.realpos).length + (P.drop (file.realpos - F.length)).length,
        (scan fill (scan fill buf (F.drop file.realpos)).buf
          (P.drop (file.realpos - F.length))).buf⟩
      simp only at h₃
      refine ⟨pos₃ + 2, Nat.le_add_left _ _, ?_⟩
      simp only [Bool.false_eq_true, if_false, hused₂, hi₂, h₃]
      simp only [isFull, Nat.add_assoc]

/-! ## Calls -/

/-- The listing of an instance. -/
def Instance.listing (t : Instance) : List Entry := dot :: dotdot :: t.places.reduceOption

/-- What the state of the file says about the entries taken so far. -/
def Taken (t : Instance) (file : File) (taken : List Entry) : Prop :=
  file.pos = 0 ∧ file.realpos = 0 ∧ taken = [] ∨
    file.pos = 1 ∧ file.realpos = 0 ∧ taken = [dot] ∨
    2 ≤ file.pos ∧ taken = dot :: dotdot :: (t.places.take file.realpos).reduceOption

/-- The loops keep what the file says. -/
theorem Taken.readdirTi {file : File} {taken buf : List Entry}
    (h : taken ++ buf = dot :: dotdot :: (t.places.take file.realpos).reduceOption) :
    Taken t (typeReaddirTi t fill file buf).1 (taken ++ (typeReaddirTi t fill file buf).2) := by
  obtain ⟨pos, hge, heq⟩ := typeReaddirTi_eq t fill file buf
  rw [heq]
  refine Or.inr (Or.inr ⟨hge, ?_⟩)
  rw [scan_buf, take_add_used, ← List.append_assoc, h]
  rfl

/-- A call that stops at `.` or `..`, or goes on to the tables. -/
theorem typeReaddir_cases (t : Instance) (fill : Filler) (file : File) :
    file.pos = 0 ∧ fill [] dot = false ∧ typeReaddir t fill file = (file, []) ∨
      file.pos = 0 ∧ fill [] dot = true ∧ fill [dot] dotdot = false ∧
        typeReaddir t fill file = ({ file with pos := 1 }, [dot]) ∨
      file.pos = 0 ∧
        typeReaddir t fill file = typeReaddirTi t fill { file with pos := 2 } [dot, dotdot] ∨
      file.pos = 1 ∧ fill [] dotdot = false ∧ typeReaddir t fill file = (file, []) ∨
      file.pos = 1 ∧ typeReaddir t fill file = typeReaddirTi t fill { file with pos := 2 } [dotdot] ∨
      2 ≤ file.pos ∧ typeReaddir t fill file = typeReaddirTi t fill file [] := by
  obtain ⟨pos, realpos⟩ := file
  match pos with
  | 0 =>
    cases hdot : fill [] dot with
    | false => exact Or.inl (by simp [typeReaddir, typeIntrinsicReaddir, hdot])
    | true =>
      cases hdotdot : fill [dot] dotdot with
      | false => exact Or.inr (Or.inl (by simp [typeReaddir, typeIntrinsicReaddir, hdot, hdotdot]))
      | true =>
        exact Or.inr (Or.inr (Or.inl (by simp [typeReaddir, typeIntrinsicReaddir, hdot, hdotdot])))
  | 1 =>
    refine Or.inr (Or.inr (Or.inr ?_))
    cases hdotdot : fill [] dotdot with
    | false => exact Or.inl (by simp [typeReaddir, typeIntrinsicReaddir, hdotdot])
    | true => exact Or.inr (Or.inl (by simp [typeReaddir, typeIntrinsicReaddir, hdotdot]))
  | pos + 2 =>
    refine Or.inr (Or.inr (Or.inr (Or.inr (Or.inr ?_))))
    simp [typeReaddir, typeIntrinsicReaddir]

/-- A call keeps what the file says. -/
theorem Taken.readdir {file : File} {taken : List Entry} (h : Taken t file taken) (fill : Filler) :
    Taken t (typeReaddir t fill file).1 (taken ++ (typeReaddir t fill file).2) := by
  obtain ⟨pos, realpos⟩ := file
  rcases h with ⟨rfl, rfl, rfl⟩ | ⟨rfl, rfl, rfl⟩ | ⟨hpos, rfl⟩
  · rcases typeReaddir_cases t fill ⟨0, 0⟩ with ⟨-, -, h⟩ | ⟨-, -, -, h⟩ | ⟨-, h⟩ |
      ⟨hne, -⟩ | ⟨hne, -⟩ | ⟨hne, -⟩
    · rw [h]
      exact Or.inl ⟨rfl, rfl, rfl⟩
    · rw [h]
      exact Or.inr (Or.inl ⟨rfl, rfl, rfl⟩)
    · rw [h]
      exact readdirTi (by simp)
    · cases hne
    · cases hne
    · cases hne
  · rcases typeReaddir_cases t fill ⟨1, 0⟩ with ⟨hne, -⟩ | ⟨hne, -⟩ | ⟨hne, -⟩ |
      ⟨-, -, h⟩ | ⟨-, h⟩ | ⟨hne, -⟩
    · cases hne
    · cases hne
    · cases hne
    · rw [h]
      exact Or.inr (Or.inl ⟨rfl, rfl, rfl⟩)
    · rw [h]
      exact readdirTi (by simp)
    · exact absurd hne (by decide)
  · rcases typeReaddir_cases t fill ⟨pos, realpos⟩ with ⟨hne, -⟩ | ⟨hne, -⟩ |
      ⟨hne, -⟩ | ⟨hne, -⟩ | ⟨hne, -⟩ | ⟨-, h⟩
    · exact absurd hne (by simp only at hpos ⊢; omega)
    · exact absurd hne (by simp only at hpos ⊢; omega)
    · exact absurd hne (by simp only at hpos ⊢; omega)
    · exact absurd hne (by simp only at hpos ⊢; omega)
    · exact absurd hne (by simp only at hpos ⊢; omega)
    · rw [h]
      exact readdirTi (List.append_nil _)

theorem taken_calls (t : Instance) (fills : ℕ → Filler) (n : ℕ) :
    Taken t (calls t fills n).1 (calls t fills n).2 := by
  induction n with
  | zero => exact Or.inl ⟨rfl, rfl, rfl⟩
  | succ n ih => exact ih.readdir (fills n)

theorem reduceOption_take_append (r : ℕ) : (t.places.take r).reduceOption ++
    (t.places.drop r).reduceOption = t.places.reduceOption := by
  rw [← List.reduceOption_append, List.take_append_drop]

/-- Nothing is taken twice or out of order. -/
theorem calls_prefix_listing (t : Instance) (fills : ℕ → Filler) (n : ℕ) :
    (calls t fills n).2 <+: t.listing := by
  rcases taken_calls t fills n with ⟨-, -, h⟩ | ⟨-, -, h⟩ | ⟨-, h⟩
  · rw [h]
    exact List.nil_prefix
  · rw [h]
    exact ⟨dotdot :: t.places.reduceOption, rfl⟩
  · rw [h, Instance.listing, ← reduceOption_take_append (calls t fills n).1.realpos]
    exact ⟨_, rfl⟩

/-- A call with room in its buffer that takes nothing is at the end. -/
theorem calls_eq_listing {fills : ℕ → Filler} {n : ℕ} (hroom : ∀ e, fills n [] e = true)
    (h : takes t fills n = []) : (calls t fills n).2 = t.listing := by
  have htaken := taken_calls t fills n
  generalize hcalls : calls t fills n = c at htaken
  obtain ⟨⟨pos, realpos⟩, taken⟩ := c
  have htakes : (typeReaddir t (fills n) ⟨pos, realpos⟩).2 = [] := by
    rw [takes, hcalls] at h
    exact h
  have hloops : ∀ file buf, (typeReaddirTi t (fills n) file buf).2 = [] → buf = [] := by
    intro file buf hnil
    obtain ⟨p, -, heq⟩ := typeReaddirTi_eq t (fills n) file buf
    rw [heq, scan_buf] at hnil
    exact (List.append_eq_nil_iff.mp hnil).1
  rcases typeReaddir_cases t (fills n) ⟨pos, realpos⟩ with ⟨-, hdot, -⟩ | ⟨-, -, -, hr⟩ | ⟨-, hr⟩ |
    ⟨-, hdotdot, -⟩ | ⟨-, hr⟩ | ⟨hpos, hr⟩
  · rw [hroom] at hdot
    cases hdot
  · rw [hr] at htakes
    cases htakes
  · rw [hr] at htakes
    cases hloops _ _ htakes
  · rw [hroom] at hdotdot
    cases hdotdot
  · rw [hr] at htakes
    cases hloops _ _ htakes
  · obtain ⟨p, -, heq⟩ := typeReaddirTi_eq t (fills n) ⟨pos, realpos⟩ []
    rw [hr, heq] at htakes
    have hrest := reduceOption_eq_nil hroom htakes
    have happend := reduceOption_take_append (t := t) realpos
    rw [hrest, List.append_nil] at happend
    rcases htaken with ⟨hzero, -⟩ | ⟨hone, -⟩ | ⟨-, htaken⟩
    · simp only at hzero hpos
      omega
    · simp only at hone hpos
      omega
    · rw [Instance.listing, ← happend]
      exact htaken

/-- A single call whose buffer is never full. -/
theorem typeReaddir_unbounded (t : Instance) :
    (typeReaddir t (fun _ _ => true) typeOpen).2 = t.listing := by
  rcases typeReaddir_cases t (fun _ _ => true) typeOpen with ⟨-, hne, -⟩ | ⟨-, -, hne, -⟩ | ⟨-, h⟩ |
    ⟨hne, -⟩ | ⟨hne, -⟩ | ⟨hne, -⟩
  · cases hne
  · cases hne
  · obtain ⟨p, -, heq⟩ := typeReaddirTi_eq t (fun _ _ => true) { typeOpen with pos := 2 }
      [dot, dotdot]
    rw [h, heq, scan_buf, used_of_not_full (full_of_unbounded fun _ _ => rfl), List.take_length]
    rfl
  · cases hne
  · cases hne
  · exact absurd hne (by decide)

/-! ## What a listing holds -/

/-- A field is present: its condition holds, it has elements, and its only element can be followed. -/
def FieldAt.Present (f : FieldAt) : Prop :=
  f.cond ≠ some false ∧ f.elemcount ≠ 0 ∧ (f.elemcount = 1 → f.follows = true)

instance (f : FieldAt) : Decidable f.Present := by
  unfold FieldAt.Present
  infer_instance

/-- A points-to range or a virtual type is enabled: its iterator has a first index, which is not behind
the last one. -/
def IterAt.Enabled (p : IterAt) : Prop := p.min ≠ -1 ∧ p.min ≤ p.max

instance (p : IterAt) : Decidable p.Enabled := by
  unfold IterAt.Enabled
  infer_instance

theorem FieldAt.followTf_iff (f : FieldAt) : f.followTf = true ↔ f.Present := by
  unfold FieldAt.followTf FieldAt.Present
  split_ifs with hcond hzero hone
  · exact iff_of_false not_false fun h => h.1 hcond
  · exact iff_of_false not_false fun h => h.2.1 hzero
  · exact ⟨fun h => ⟨hcond, hzero, fun _ => h⟩, fun h => h.2.2 hone⟩
  · exact iff_of_true rfl ⟨hcond, hzero, fun h => absurd h hone⟩

theorem IterAt.isOk_iff (p : IterAt) : p.isOk = true ↔ p.Enabled := by
  unfold IterAt.isOk IterAt.Enabled
  split_ifs with hmin
  · exact iff_of_false not_false fun h => h.1 hmin
  · exact ⟨fun h => ⟨hmin, of_decide_eq_true h⟩, fun h => decide_eq_true h.2⟩

theorem filterMap_entry_fields (fs : List FieldAt) :
    fs.filterMap FieldAt.entry = (fs.filter fun f => decide f.Present).map fun f =>
      ⟨f.fieldname, if f.typed then .dir else .reg⟩ := by
  have hentry : FieldAt.entry = fun f => if decide f.Present = true then
      some ⟨f.fieldname, if f.typed then .dir else .reg⟩ else none := by
    funext f
    exact if_congr (by rw [decide_eq_true_eq, f.followTf_iff]) rfl rfl
  rw [hentry, ← List.filterMap_filter, List.filterMap_eq_map']

theorem filterMap_entry_iters (ps : List IterAt) :
    ps.filterMap IterAt.entry = (ps.filter fun p => decide p.Enabled).filterMap fun p =>
      p.name.map fun name => ⟨name, .dir⟩ := by
  have hentry : IterAt.entry = fun p => if decide p.Enabled = true then
      p.name.map fun name => ⟨name, .dir⟩ else none := by
    funext p
    simp only [IterAt.entry, decide_eq_true_eq, p.isOk_iff]
    cases p.name <;> split_ifs <;> rfl
  rw [hentry, List.filterMap_filter]

/-- Repeated calls list the instance: whatever the fillers refuse, the entries taken are a beginning of
the listing, and all of it once a call with room in its empty buffer takes nothing; and a call that
takes nothing comes. The listing is '.', '..', the fields that are present, and the points-to ranges and
virtual types that have a name and are enabled. -/
theorem readdir_resumes (t : Instance) :
    (∀ fills n, (calls t fills n).2 <+: t.listing) ∧
      (∀ fills n, (∀ e, fills n [] e = true) → takes t fills n = [] →
        (calls t fills n).2 = (typeReaddir t (fun _ _ => true) typeOpen).2) ∧
      (∀ fills : ℕ → Filler, ∃ n, takes t fills n = []) ∧
      (typeReaddir t (fun _ _ => true) typeOpen).2 = dot :: dotdot ::
        (((t.fieldall.filter fun f => decide f.Present).map fun f =>
            ⟨f.fieldname, if f.typed then .dir else .reg⟩) ++
          ((t.pointsto.filter fun p => decide p.Enabled).filterMap fun p =>
            p.name.map fun name => ⟨name, .dir⟩) ++
          (t.virt.filter fun p => decide p.Enabled).filterMap fun p =>
            p.name.map fun name => ⟨name, .dir⟩) := by
  refine ⟨calls_prefix_listing t, ?_, ?_, ?_⟩
  · intro fills n hroom h
    rw [typeReaddir_unbounded]
    exact calls_eq_listing hroom h
  · intro fills
    by_contra hall
    have hgrow : ∀ n, n ≤ (calls t fills n).2.length := by
      intro n
      induction n with
      | zero => exact Nat.zero_le _
      | succ n ih =>
        have hne : takes t fills n ≠ [] := fun h => hall ⟨n, h⟩
        have hpos := List.length_pos_iff.mpr hne
        have hlen : (calls t fills (n + 1)).2.length =
            (calls t fills n).2.length + (takes t fills n).length := List.length_append
        omega
    have hlast := hgrow (t.listing.length + 1)
    have hle := (calls_prefix_listing t fills (t.listing.length + 1)).length_le
    omega
  · rw [typeReaddir_unbounded, Instance.listing, Instance.places, ← filterMap_entry_fields,
      ← filterMap_entry_iters, ← filterMap_entry_iters]
    simp [List.reduceOption]

end Fsl.Kernel
