import Mathlib

/-!
# Preorder traversals that a callback can cut

The children of a node come in batches. A traversal asks a callback at each node that it visits: `skip`
leaves out the node's children, `leave` the rest of its parent's, and `stop` all that is to come. A
sweep knows less: at `leave` and `stop` it goes on with the next batch of the parent, and `skip` is
nothing to it. It sees only the first part of a batch; behind this part it comes to the end of the
batch, or it is lost.
-/

namespace Preorder

variable {T : Type}

/-- What a callback says. -/
inductive Code
  | go
  | skip
  | stop
  | leave
  deriving DecidableEq

/-- A batch of children: those that a sweep sees and those behind them. Where it is lost there are
nodes that it may visit next. -/
structure Batch (T : Type) where
  early : List T
  late : List T
  wild : Option (Set T)

/-- All children of a batch. -/
def Batch.items (b : Batch T) : List T := b.early ++ b.late

/-- The children of all batches. -/
def items (bs : List (Batch T)) : List T := bs.flatMap Batch.items

/-- The children of a node. -/
abbrev children (kids : T → List (Batch T)) (t : T) : List T := items (kids t)

/-- A sweep visits nothing in these batches and comes to their end. -/
def Bare (bs : List (Batch T)) : Prop := ∀ b ∈ bs, b.early = [] ∧ b.wild = none

/-! ## Traversals -/

/-- One child after the other, as long as none of them says otherwise. -/
def each (f : T → List T → List T × Code) : List T → List T → List T × Code
  | [], h => (h, .go)
  | c :: cs, h => if (f c h).2 = .go then each f cs (f c h).1 else f c h

section

variable (kids : T → List T) (cb : List T → T → Code)

/-- The tree of the node has at most `n` levels. -/
def Within : ℕ → T → Prop
  | 0, _ => False
  | n + 1, t => ∀ c ∈ kids t, Within n c

/-- The recursive traversal of a tree of at most `n` levels: what has been visited behind `h`, and how
it goes on. The callback knows what was visited before. -/
def visit : ℕ → T → List T → List T × Code
  | 0, _, h => (h, .go)
  | n + 1, t, h =>
    match cb h t with
    | .go =>
      let r := each (visit n) (kids t) (h ++ [t])
      (r.1, if r.2 = .stop then .stop else .go)
    | .skip => (h ++ [t], .go)
    | .stop => (h ++ [t], .stop)
    | .leave => (h ++ [t], .leave)

end

/-! ## Sweeps -/

/-- How a sweep comes out of a node: it goes on in the batch, it has left the batch, or it is lost. -/
inductive Mark (T : Type)
  | kept
  | left
  | lost (wild : Set T)

/-- The sweep goes on in the batch. -/
def Mark.IsKept : Mark T → Prop
  | .kept => True
  | _ => False

instance (m : Mark T) : Decidable m.IsKept :=
  match m with
  | .kept => isTrue trivial
  | .left => isFalse id
  | .lost _ => isFalse id

/-- How a sweep comes out of a batch whose end it sees or does not see. -/
def Batch.mark (b : Batch T) : Mark T :=
  match b.wild with
  | none => .left
  | some wild => .lost wild

/-- A sweep of a batch leaves it at the first child that says so. -/
def sweepBatch (f : T → List T → List T × Mark T) (mark : Mark T) : List T → List T → List T × Mark T
  | [], h => (h, mark)
  | c :: cs, h => if (f c h).2.IsKept then sweepBatch f mark cs (f c h).1 else f c h

/-- A sweep of all batches. -/
def sweepAll (f : T → List T → List T × Mark T) : List (Batch T) → List T → List T × Mark T
  | [], h => (h, .kept)
  | b :: bs, h =>
    match (sweepBatch f b.mark b.early h).2 with
    | .lost wild => ((sweepBatch f b.mark b.early h).1, .lost wild)
    | _ => sweepAll f bs (sweepBatch f b.mark b.early h).1

/-- The sweep of a tree. -/
def sweep (kids : T → List (Batch T)) (cb : List T → T → Code) : ℕ → T → List T → List T × Mark T
  | 0, _, h => (h, .kept)
  | n + 1, t, h =>
    if cb h t = .stop ∨ cb h t = .leave then (h ++ [t], .left)
    else sweepAll (sweep kids cb n) (kids t) (h ++ [t])

/-! ## When a sweep is a traversal -/

/-- What is asked of the children that a sweep sees, one after the other as far as a traversal comes:
`fine c h sib` of a child `c` visited behind `h`, behind which a sweep finds more in the batch if
`sib`. -/
def FineItems (f : T → List T → List T × Code) (more : Prop) (fine : T → List T → Prop → Prop) :
    List T → List T → Prop
  | [], _ => True
  | c :: cs, h => fine c h (cs ≠ [] ∨ more) ∧ ((f c h).2 = .go → FineItems f more fine cs (f c h).1)

/-- What is asked of the batches: a batch that a traversal goes through to the end has been seen whole.
A child is told whether a sweep finds more in later batches, besides. -/
def FineBatches (f : T → List T → List T × Code) (fine : T → List T → Prop → Prop → Prop) :
    List (Batch T) → List T → Prop
  | [], _ => True
  | b :: bs, h =>
    FineItems f (b.wild ≠ none) (fun c h sib => fine c h sib (¬ Bare bs)) b.early h ∧
      ((each f b.early h).2 = .go → b.late = [] ∧ b.wild = none ∧
        FineBatches f fine bs (each f b.early h).1)

/-- At every node that a traversal visits: `skip` leaves out no child, behind `leave` the later batches
of the parent have none, and behind `stop` nothing is left, that a sweep finds; and every batch that
the traversal goes through to the end has been seen whole. `sib`: a sweep finds more in the batch;
`left`: in the later batches; `after`: behind the parent. -/
def Fine (kids : T → List (Batch T)) (cb : List T → T → Code) :
    ℕ → T → List T → Prop → Prop → Prop → Prop
  | 0, _, _, _, _, _ => True
  | n + 1, t, h, sib, left, after =>
    match cb h t with
    | .go => FineBatches (visit (children kids) cb n)
        (fun c h sib' left' => Fine kids cb n c h sib' left' (sib ∨ left ∨ after)) (kids t) (h ++ [t])
    | .skip => Bare (kids t)
    | .stop => ¬ left ∧ ¬ after
    | .leave => ¬ left

variable {kids : T → List (Batch T)} {cb : List T → T → Code}

theorem bare_cons {b : Batch T} {bs : List (Batch T)} :
    Bare (b :: bs) ↔ (b.early = [] ∧ b.wild = none) ∧ Bare bs := List.forall_mem_cons

theorem each_append {f : T → List T → List T × Code} (cs cs' : List T) (h : List T) :
    each f (cs ++ cs') h =
      if (each f cs h).2 = .go then each f cs' (each f cs h).1 else each f cs h := by
  induction cs generalizing h with
  | nil => rfl
  | cons c cs ih =>
    rw [List.cons_append, each, each]
    by_cases hgo : (f c h).2 = .go
    · rw [if_pos hgo, if_pos hgo]
      exact ih (f c h).1
    · rw [if_neg hgo, if_neg hgo, if_neg hgo]

theorem each_batches {f : T → List T → List T × Code} (b : Batch T) (bs : List (Batch T)) (h : List T) :
    each f (items (b :: bs)) h =
      if (each f b.early h).2 = .go then each f (b.late ++ items bs) (each f b.early h).1
      else each f b.early h := by
  have heq : items (b :: bs) = b.early ++ (b.late ++ items bs) := by
    rw [items, List.flatMap_cons, Batch.items, List.append_assoc]
    rfl
  rw [heq, each_append]

theorem sweepAll_cons_of_lost {f : T → List T → List T × Mark T} {b : Batch T} {bs : List (Batch T)}
    {h : List T} {wild : Set T} (hl : (sweepBatch f b.mark b.early h).2 = .lost wild) :
    sweepAll f (b :: bs) h = ((sweepBatch f b.mark b.early h).1, .lost wild) := by
  rw [sweepAll, hl]

theorem sweepAll_cons_of_ne {f : T → List T → List T × Mark T} {b : Batch T} {bs : List (Batch T)}
    {h : List T} (hl : ∀ wild, (sweepBatch f b.mark b.early h).2 ≠ .lost wild) :
    sweepAll f (b :: bs) h = sweepAll f bs (sweepBatch f b.mark b.early h).1 := by
  rw [sweepAll]
  cases hm : (sweepBatch f b.mark b.early h).2 with
  | kept => rfl
  | left => rfl
  | lost wild => exact absurd hm (hl wild)

theorem sweepAll_append_of_lost {f : T → List T → List T × Mark T} {bs : List (Batch T)} {h : List T}
    {wild : Set T} (bs' : List (Batch T)) (hl : (sweepAll f bs h).2 = .lost wild) :
    sweepAll f (bs ++ bs') h = ((sweepAll f bs h).1, .lost wild) := by
  induction bs generalizing h with
  | nil => cases hl
  | cons b bs ih =>
    rw [List.cons_append]
    by_cases hb : ∃ wild', (sweepBatch f b.mark b.early h).2 = .lost wild'
    · obtain ⟨wild', hb⟩ := hb
      rw [sweepAll_cons_of_lost hb] at hl ⊢
      rw [sweepAll_cons_of_lost hb]
      exact Prod.ext rfl hl
    · have hne := not_exists.mp hb
      rw [sweepAll_cons_of_ne hne] at hl ⊢
      rw [sweepAll_cons_of_ne hne]
      exact ih hl

theorem sweepAll_append_of_ne {f : T → List T → List T × Mark T} {bs : List (Batch T)} {h : List T}
    (bs' : List (Batch T)) (hl : ∀ wild, (sweepAll f bs h).2 ≠ .lost wild) :
    sweepAll f (bs ++ bs') h = sweepAll f bs' (sweepAll f bs h).1 := by
  induction bs generalizing h with
  | nil => rfl
  | cons b bs ih =>
    rw [List.cons_append]
    by_cases hb : ∃ wild, (sweepBatch f b.mark b.early h).2 = .lost wild
    · obtain ⟨wild, hb⟩ := hb
      rw [sweepAll_cons_of_lost hb] at hl
      exact absurd rfl (hl wild)
    · have hne := not_exists.mp hb
      rw [sweepAll_cons_of_ne hne] at hl ⊢
      rw [sweepAll_cons_of_ne hne]
      exact ih hl

theorem sweepAll_ne_left {f : T → List T → List T × Mark T} (bs : List (Batch T)) (h : List T) :
    (sweepAll f bs h).2 ≠ .left := by
  induction bs generalizing h with
  | nil => simp [sweepAll]
  | cons b bs ih =>
    by_cases hl : ∃ wild, (sweepBatch f b.mark b.early h).2 = .lost wild
    · obtain ⟨wild, hl⟩ := hl
      rw [sweepAll_cons_of_lost hl]
      simp
    · rw [sweepAll_cons_of_ne (not_exists.mp hl)]
      exact ih _

theorem mark_of_none {b : Batch T} (hb : b.wild = none) : b.mark = .left := by
  rw [Batch.mark, hb]

theorem mark_of_some {b : Batch T} {wild : Set T} (hb : b.wild = some wild) : b.mark = .lost wild := by
  rw [Batch.mark, hb]

/-- A sweep of bare batches visits nothing. -/
theorem sweepAll_of_bare {f : T → List T → List T × Mark T} {bs : List (Batch T)} (hb : Bare bs)
    (h : List T) : sweepAll f bs h = (h, .kept) := by
  induction bs with
  | nil => rfl
  | cons b bs ih =>
    obtain ⟨⟨hearly, hwild⟩, hbs⟩ := bare_cons.mp hb
    have hnone : sweepBatch f b.mark b.early h = (h, .left) := by
      rw [hearly, sweepBatch, mark_of_none hwild]
    rw [sweepAll_cons_of_ne (by simp [hnone]), hnone]
    exact ih hbs

/-- What a sweep has in common with a traversal of the same node. -/
structure Agrees (s : List T × Mark T) (r : List T × Code) (sib left after : Prop) : Prop where
  visited : s.1 = r.1
  go : r.2 = .go → s.2 = .kept
  leave : r.2 = .leave → s.2 = .left ∧ ¬ left
  stop : r.2 = .stop → (s.2 = .left ∨ s.2 = .kept ∧ ¬ sib) ∧ ¬ left ∧ ¬ after
  not_skip : r.2 ≠ .skip

theorem sweepBatch_eq {f : T → List T → List T × Code} {f' : T → List T → List T × Mark T}
    {fine : T → List T → Prop → Prop} {more left after : Prop} {mark : Mark T}
    (hmark : ¬ more → mark = .left)
    (hf : ∀ c h sib, fine c h sib → Agrees (f' c h) (f c h) sib left after) {cs h : List T}
    (hfine : FineItems f more fine cs h) :
    sweepBatch f' mark cs h =
        ((each f cs h).1, if (each f cs h).2 = .go then mark else .left) ∧
      ((each f cs h).2 = .leave → ¬ left) ∧ ((each f cs h).2 = .stop → ¬ left ∧ ¬ after) ∧
      (each f cs h).2 ≠ .skip := by
  induction cs generalizing h with
  | nil => exact ⟨rfl, by simp [each], by simp [each], by simp [each]⟩
  | cons c cs ih =>
    obtain ⟨hc, hcs⟩ := hfine
    have hagree := hf c h _ hc
    rw [sweepBatch, each]
    by_cases hgo : (f c h).2 = .go
    · rw [if_pos (by rw [hagree.go hgo]; trivial), if_pos hgo, hagree.visited]
      exact ih (hcs hgo)
    · rw [if_neg hgo, if_neg hgo]
      refine ⟨?_, fun hl => (hagree.leave hl).2, fun hs => (hagree.stop hs).2, hagree.not_skip⟩
      have hout : (f' c h).2 = .left ∨ (f' c h).2 = .kept ∧ ¬ (cs ≠ [] ∨ more) := by
        cases hcode : (f c h).2 with
        | go => exact absurd hcode hgo
        | skip => exact absurd hcode hagree.not_skip
        | leave => exact Or.inl (hagree.leave hcode).1
        | stop => exact (hagree.stop hcode).1
      rcases hout with hleft | ⟨hkept, hlast⟩
      · rw [if_neg (by rw [hleft]; exact id)]
        exact Prod.ext hagree.visited hleft
      · -- the traversal stopped below the child, and this was the last one
        obtain ⟨hnil, hmore⟩ := not_or.mp hlast
        rw [if_pos (by rw [hkept]; trivial), not_not.mp hnil, sweepBatch, hagree.visited, hmark hmore]

theorem sweepAll_eq {f : T → List T → List T × Code} {f' : T → List T → List T × Mark T}
    {fine : T → List T → Prop → Prop → Prop} {after : Prop}
    (hf : ∀ c h sib left, fine c h sib left → Agrees (f' c h) (f c h) sib left after)
    {bs : List (Batch T)} {h : List T} (hfine : FineBatches f fine bs h) :
    sweepAll f' bs h = ((each f (items bs) h).1, .kept) ∧
      ((each f (items bs) h).2 = .stop → ¬ after) := by
  induction bs generalizing h with
  | nil => exact ⟨rfl, by simp [items, each]⟩
  | cons b bs ih =>
    obtain ⟨hitems, hrest⟩ := hfine
    obtain ⟨heq, hleave, hstop, hskip⟩ :=
      sweepBatch_eq (fun hw => mark_of_none (not_not.mp hw)) (fun c h sib => hf c h sib _) hitems
    rw [each_batches]
    by_cases hgo : (each f b.early h).2 = .go
    · obtain ⟨hlate, hwild, hbs⟩ := hrest hgo
      rw [if_pos hgo, mark_of_none hwild] at heq
      rw [if_pos hgo, hlate, List.nil_append, sweepAll_cons_of_ne, mark_of_none hwild, heq]
      · exact ih hbs
      · rw [mark_of_none hwild, heq]
        simp
    · have hbare : Bare bs := by
        cases hcode : (each f b.early h).2 with
        | go => exact absurd hcode hgo
        | skip => exact absurd hcode hskip
        | leave => exact not_not.mp (hleave hcode)
        | stop => exact not_not.mp (hstop hcode).1
      rw [if_neg hgo] at heq ⊢
      rw [sweepAll_cons_of_ne (by simp [heq]), heq, sweepAll_of_bare hbare]
      exact ⟨rfl, fun hs => (hstop hs).2⟩

/-- Where a traversal meets what is asked of it, a sweep visits what it visits. -/
theorem agrees_of_fine {n : ℕ} {t : T} {h : List T} {sib left after : Prop}
    (hfine : Fine kids cb n t h sib left after) :
    Agrees (sweep kids cb n t h) (visit (children kids) cb n t h) sib left after := by
  induction n generalizing t h sib left after with
  | zero => exact ⟨rfl, fun _ => rfl, by simp [visit], by simp [visit], by simp [visit]⟩
  | succ n ih =>
    rw [Fine] at hfine
    rw [sweep, visit]
    cases hcode : cb h t with
    | go =>
      simp only [hcode] at hfine
      obtain ⟨heq, hstop⟩ := sweepAll_eq (fun c h sib' left' hc => ih hc) hfine
      rw [if_neg (by simp), heq]
      refine ⟨rfl, fun _ => rfl, fun hl => ?_, fun hs => ?_, ?_⟩
      · dsimp only at hl
        split_ifs at hl
      · dsimp only at hs
        split_ifs at hs with hs'
        have hnone := hstop hs'
        tauto
      · dsimp only
        split_ifs <;> simp
    | skip =>
      rw [hcode] at hfine
      rw [if_neg (by simp), sweepAll_of_bare hfine]
      refine ⟨rfl, fun _ => rfl, ?_, ?_, ?_⟩ <;> simp
    | stop =>
      rw [hcode] at hfine
      rw [if_pos (Or.inl rfl)]
      exact ⟨rfl, by simp, by simp, fun _ => ⟨Or.inl rfl, hfine⟩, by simp⟩
    | leave =>
      rw [hcode] at hfine
      rw [if_pos (Or.inr rfl)]
      exact ⟨rfl, by simp, fun _ => ⟨rfl, hfine⟩, by simp, by simp⟩

/-! ## When a sweep gets lost -/

/-- What a sweep comes to below a node if the callback does not cut it. -/
def Seen (kids : T → List (Batch T)) : T → T → Prop :=
  Relation.ReflTransGen fun t c => ∃ b ∈ kids t, c ∈ b.early

theorem sweepBatch_ne_lost {f : T → List T → List T × Mark T} {cs : List T} {mark : Mark T}
    (hf : ∀ c ∈ cs, ∀ h wild, (f c h).2 ≠ .lost wild) (hmark : ∀ wild, mark ≠ .lost wild)
    (h : List T) (wild : Set T) : (sweepBatch f mark cs h).2 ≠ .lost wild := by
  induction cs generalizing h with
  | nil => exact hmark wild
  | cons c cs ih =>
    rw [sweepBatch]
    split_ifs
    · exact ih (fun x hx => hf x (List.mem_cons_of_mem c hx)) _
    · exact hf c List.mem_cons_self h wild

theorem sweepAll_ne_lost {f : T → List T → List T × Mark T} {bs : List (Batch T)}
    (hf : ∀ b ∈ bs, ∀ c ∈ b.early, ∀ h wild, (f c h).2 ≠ .lost wild) (hb : ∀ b ∈ bs, b.wild = none)
    (h : List T) (wild : Set T) : (sweepAll f bs h).2 ≠ .lost wild := by
  induction bs generalizing h with
  | nil => simp [sweepAll]
  | cons b bs ih =>
    have hmark : ∀ wild, b.mark ≠ .lost wild := by
      rw [mark_of_none (hb b List.mem_cons_self)]
      simp
    rw [sweepAll_cons_of_ne (sweepBatch_ne_lost (hf b List.mem_cons_self) hmark h)]
    exact ih (fun b' hb' => hf b' (List.mem_cons_of_mem b hb'))
      (fun b' hb' => hb b' (List.mem_cons_of_mem b hb')) _

/-- A sweep that sees whole batches only comes to its end, however the callback cuts it. -/
theorem sweep_ne_lost {n : ℕ} {t : T} (hw : ∀ t', Seen kids t t' → ∀ b ∈ kids t', b.wild = none)
    (h : List T) (wild : Set T) : (sweep kids cb n t h).2 ≠ .lost wild := by
  induction n generalizing t h wild with
  | zero => simp [sweep]
  | succ n ih =>
    rw [sweep]
    split_ifs
    · simp
    · refine sweepAll_ne_lost (fun b hb c hc h wild => ih (fun t' ht' => ?_) h wild)
        (hw t Relation.ReflTransGen.refl) _ _
      exact hw t' (Relation.ReflTransGen.head ⟨b, hb, hc⟩ ht')

theorem each_of_sweepBatch {f : T → List T → List T × Mark T} {cs : List T} {mark : Mark T}
    (hleft : ∀ c h, (f c h).2 ≠ .left) {h : List T}
    (hl : ∀ wild, (sweepBatch f mark cs h).2 ≠ .lost wild) :
    (∀ wild, mark ≠ .lost wild) ∧ ∀ c ∈ cs, ∃ h, ∀ wild, (f c h).2 ≠ .lost wild := by
  induction cs generalizing h with
  | nil => exact ⟨hl, fun c hc => absurd hc List.not_mem_nil⟩
  | cons c cs ih =>
    rw [sweepBatch] at hl
    cases hm : (f c h).2 with
    | kept =>
      rw [if_pos (by rw [hm]; trivial)] at hl
      obtain ⟨hmark, hcs⟩ := ih hl
      refine ⟨hmark, List.forall_mem_cons.mpr ⟨⟨h, fun wild => ?_⟩, hcs⟩⟩
      rw [hm]
      simp
    | left => exact absurd hm (hleft c h)
    | lost wild =>
      rw [if_neg (by rw [hm]; exact id)] at hl
      exact absurd hm (hl wild)

theorem each_of_sweepAll {f : T → List T → List T × Mark T} {bs : List (Batch T)}
    (hleft : ∀ c h, (f c h).2 ≠ .left) {h : List T} (hl : ∀ wild, (sweepAll f bs h).2 ≠ .lost wild) :
    ∀ b ∈ bs, b.wild = none ∧ ∀ c ∈ b.early, ∃ h, ∀ wild, (f c h).2 ≠ .lost wild := by
  induction bs generalizing h with
  | nil => exact fun b hb => absurd hb List.not_mem_nil
  | cons b bs ih =>
    have hb : ∀ wild, (sweepBatch f b.mark b.early h).2 ≠ .lost wild := by
      intro wild hlost
      rw [sweepAll_cons_of_lost hlost] at hl
      exact hl wild rfl
    rw [sweepAll_cons_of_ne hb] at hl
    obtain ⟨hmark, hearly⟩ := each_of_sweepBatch hleft hb
    refine List.forall_mem_cons.mpr ⟨⟨?_, hearly⟩, ih hl⟩
    cases hwild : b.wild with
    | none => rfl
    | some wild => exact absurd (mark_of_some hwild) (hmark wild)

/-- A sweep that nothing cuts and that comes to its end has seen whole batches only. -/
theorem whole_of_sweep {n : ℕ} {t t' : T} (ht : Within (children kids) n t) {h : List T}
    (hl : ∀ wild, (sweep kids (fun _ _ => .go) n t h).2 ≠ .lost wild) (hs : Seen kids t t') :
    ∀ b ∈ kids t', b.wild = none := by
  have hleft : ∀ n c h, (sweep kids (fun _ _ => .go) n c h).2 ≠ .left := by
    intro n c h
    cases n with
    | zero => simp [sweep]
    | succ n =>
      rw [sweep, if_neg (by simp)]
      exact sweepAll_ne_left _ _
  induction hs using Relation.ReflTransGen.head_induction_on generalizing n h with
  | refl =>
    cases n with
    | zero => exact ht.elim
    | succ n =>
      rw [sweep, if_neg (by simp)] at hl
      exact fun b hb => (each_of_sweepAll (hleft n) hl b hb).1
  | head hstep _ ih =>
    obtain ⟨b, hb, hc⟩ := hstep
    cases n with
    | zero => exact ht.elim
    | succ n =>
      rw [sweep, if_neg (by simp)] at hl
      obtain ⟨h', hl'⟩ := (each_of_sweepAll (hleft n) hl b hb).2 _ hc
      exact ih (ht _ (List.mem_flatMap.mpr ⟨b, hb, List.mem_append_left _ hc⟩)) hl'

/-! ## When a sweep is no traversal -/

theorem prefix_each {f : T → List T → List T × Code} (hf : ∀ c h, h <+: (f c h).1) (cs h : List T) :
    h <+: (each f cs h).1 := by
  induction cs generalizing h with
  | nil => exact List.prefix_rfl
  | cons c cs ih =>
    rw [each]
    split_ifs
    · exact (hf c h).trans (ih _)
    · exact hf c h

theorem prefix_visit (kids : T → List T) (n : ℕ) (t : T) (h : List T) :
    h <+: (visit kids cb n t h).1 := by
  induction n generalizing t h with
  | zero => exact List.prefix_rfl
  | succ n ih =>
    rw [visit]
    have hself : h <+: h ++ [t] := List.prefix_append h [t]
    cases cb h t with
    | go => exact hself.trans (prefix_each ih _ _)
    | skip => exact hself
    | stop => exact hself
    | leave => exact hself

theorem prefix_sweepBatch {f : T → List T → List T × Mark T} (hf : ∀ c h, h <+: (f c h).1)
    (mark : Mark T) (cs h : List T) : h <+: (sweepBatch f mark cs h).1 := by
  induction cs generalizing h with
  | nil => exact List.prefix_rfl
  | cons c cs ih =>
    rw [sweepBatch]
    split_ifs
    · exact (hf c h).trans (ih _)
    · exact hf c h

theorem prefix_sweepAll {f : T → List T → List T × Mark T} (hf : ∀ c h, h <+: (f c h).1)
    (bs : List (Batch T)) (h : List T) : h <+: (sweepAll f bs h).1 := by
  induction bs generalizing h with
  | nil => exact List.prefix_rfl
  | cons b bs ih =>
    have hb := prefix_sweepBatch hf b.mark b.early h
    rw [sweepAll]
    cases (sweepBatch f b.mark b.early h).2 with
    | kept => exact hb.trans (ih _)
    | left => exact hb.trans (ih _)
    | lost wild => exact hb

theorem prefix_sweep (n : ℕ) (t : T) (h : List T) : h <+: (sweep kids cb n t h).1 := by
  induction n generalizing t h with
  | zero => exact List.prefix_rfl
  | succ n ih =>
    rw [sweep]
    have hself : h <+: h ++ [t] := List.prefix_append h [t]
    split_ifs
    · exact hself
    · exact hself.trans (prefix_sweepAll ih _ _)

/-- A node is the first that is visited. -/
theorem visits_self {n : ℕ} {t : T} (ht : Within (children kids) n t) (h : List T) :
    h ++ [t] <+: (visit (children kids) cb n t h).1 ∧ h ++ [t] <+: (sweep kids cb n t h).1 := by
  cases n with
  | zero => exact ht.elim
  | succ n =>
    constructor
    · rw [visit]
      cases cb h t with
      | go => exact prefix_each (prefix_visit _ n) _ _
      | skip => exact List.prefix_rfl
      | stop => exact List.prefix_rfl
      | leave => exact List.prefix_rfl
    · rw [sweep]
      split_ifs
      · exact List.prefix_rfl
      · exact prefix_sweepAll (prefix_sweep n) _ _

theorem next_each {f : T → List T → List T × Code} (hf : ∀ c h, h <+: (f c h).1) {c : T}
    (hself : ∀ h, h ++ [c] <+: (f c h).1) (cs h : List T) : h ++ [c] <+: (each f (c :: cs) h).1 := by
  rw [each]
  split_ifs
  · exact (hself h).trans (prefix_each hf _ _)
  · exact hself h

theorem next_sweepBatch {f : T → List T → List T × Mark T} (hf : ∀ c h, h <+: (f c h).1) {c : T}
    (hself : ∀ h, h ++ [c] <+: (f c h).1) (mark : Mark T) (cs h : List T) :
    h ++ [c] <+: (sweepBatch f mark (c :: cs) h).1 := by
  rw [sweepBatch]
  split_ifs
  · exact (hself h).trans (prefix_sweepBatch hf _ _ _)
  · exact hself h

/-- Only one node is next in a list. -/
theorem next_unique {L h : List T} {x y : T} (hx : h ++ [x] <+: L) (hy : h ++ [y] <+: L) : x = y := by
  have heq := List.IsPrefix.eq_of_length (List.prefix_of_prefix_length_le hx hy (by simp)) (by simp)
  simpa using heq

theorem not_next {L : List T} {x : T} : ¬ L ++ [x] <+: L := by
  intro hx
  have hlen := hx.length_le
  simp at hlen

/-- What a sweep may visit of a batch. -/
def Batch.Has (b : Batch T) (x : T) : Prop :=
  x ∈ b.early ∨ x ∈ b.late ∨ ∃ wild, b.wild = some wild ∧ x ∈ wild

theorem Batch.has_of_mem_items {b : Batch T} {x : T} (hx : x ∈ b.items) : b.Has x :=
  (List.mem_append.mp hx).imp_right Or.inl

/-- Nodes are deeper than their parents, and those of different batches, and those behind and off
the end of one, are different. -/
structure Labelled (kids : T → List (Batch T)) (depth : T → ℕ) : Prop where
  depth_eq : ∀ t, ∀ b ∈ kids t, ∀ x, b.Has x → depth x = depth t + 1
  apart : ∀ t, (kids t).Pairwise fun b b' => ∀ x, b.Has x → ¬ b'.Has x
  late_wild : ∀ t, ∀ b ∈ kids t, ∀ x ∈ b.late, ∀ wild, b.wild = some wild → x ∉ wild

variable {depth : T → ℕ} {L : List T}

/-- A sweep is part of one that visits `L` in all; where it is lost, it visits one of those it may. -/
structure Ends (L : List T) (s : List T × Mark T) : Prop where
  visits : s.1 <+: L
  lost : ∀ wild, s.2 = .lost wild → ∃ y ∈ wild, s.1 ++ [y] <+: L

/-- What a sweep of batches visits next. -/
theorem exists_next {f : T → List T → List T × Mark T} (hf : ∀ c h, h <+: (f c h).1)
    {bs : List (Batch T)} (hself : ∀ c ∈ items bs, ∀ h, h ++ [c] <+: (f c h).1) (hbare : ¬ Bare bs)
    {h : List T} (hends : Ends L (sweepAll f bs h)) :
    ∃ y, (∃ b ∈ bs, b.Has y) ∧ h ++ [y] <+: L := by
  induction bs with
  | nil => exact absurd (fun b hb => absurd hb List.not_mem_nil) hbare
  | cons b bs ih =>
    cases hearly : b.early with
    | cons c cs =>
      have hc : c ∈ b.early := by simp [hearly]
      have hmem : c ∈ items (b :: bs) :=
        List.mem_flatMap.mpr ⟨b, List.mem_cons_self, List.mem_append_left _ hc⟩
      refine ⟨c, ⟨b, List.mem_cons_self, Or.inl hc⟩, List.IsPrefix.trans ?_ hends.visits⟩
      have hnext := next_sweepBatch hf (hself c hmem) b.mark cs h
      rw [← hearly] at hnext
      by_cases hl : ∃ wild, (sweepBatch f b.mark b.early h).2 = .lost wild
      · obtain ⟨wild, hl⟩ := hl
        rw [sweepAll_cons_of_lost hl]
        exact hnext
      · rw [sweepAll_cons_of_ne (not_exists.mp hl)]
        exact hnext.trans (prefix_sweepAll hf _ _)
    | nil =>
      have hb : sweepBatch f b.mark b.early h = (h, b.mark) := by rw [hearly, sweepBatch]
      cases hwild : b.wild with
      | some wild =>
        have hl : (sweepBatch f b.mark b.early h).2 = .lost wild := by rw [hb, mark_of_some hwild]
        rw [sweepAll_cons_of_lost hl, hb] at hends
        obtain ⟨y, hy, hnext⟩ := hends.lost wild rfl
        exact ⟨y, ⟨b, List.mem_cons_self, Or.inr (Or.inr ⟨wild, hwild, hy⟩)⟩, hnext⟩
      | none =>
        rw [mark_of_none hwild] at hb
        rw [sweepAll_cons_of_ne (by simp [mark_of_none hwild, hb]), mark_of_none hwild, hb] at hends
        have hrest : ¬ Bare bs := fun hb' => hbare (bare_cons.mpr ⟨⟨hearly, hwild⟩, hb'⟩)
        have hmem : ∀ c ∈ items bs, c ∈ items (b :: bs) := by
          intro c hc
          rw [items, List.flatMap_cons]
          exact List.mem_append_right _ hc
        obtain ⟨y, ⟨b', hb', hy⟩, hnext⟩ := ih (fun c hc => hself c (hmem c hc)) hrest hends
        exact ⟨y, ⟨b', List.mem_cons_of_mem b hb', hy⟩, hnext⟩

/-- What is known of a sweep `s` and a traversal `r` of a node or a batch `d` levels deep that are both
parts of ones that visit `L` in all. -/
structure Placed (depth : T → ℕ) (L : List T) (s : List T × Mark T) (r : List T × Code) (d : ℕ)
    (sib left after : Prop) : Prop where
  ends : Ends L s
  visits : r.1 <+: L
  go : r.2 = .go → ∀ y, r.1 ++ [y] <+: L → depth y ≤ d
  leave : r.2 = .leave → ∀ y, r.1 ++ [y] <+: L → depth y < d
  stop : r.2 = .stop → r.1 = L
  shallow : (∀ wild, s.2 ≠ .lost wild) → s.1 = L ∨ ∃ y, depth y ≤ d ∧ s.1 ++ [y] <+: L
  goesOn : s.2 = .kept → sib ∨ left ∨ after → ∃ y, s.1 ++ [y] <+: L
  inParent : s.2 = .left → left → ∃ y, depth y = d ∧ s.1 ++ [y] <+: L
  behind : s.2 = .left → left ∨ after → ∃ y, s.1 ++ [y] <+: L

/-- The first child of a batch is placed as the batch is. -/
theorem Placed.head {f : T → List T → List T × Code} {f' : T → List T → List T × Mark T}
    {c : T} {cs h : List T} {d : ℕ} {mark : Mark T} {sib more left after : Prop}
    (hmark : mark = .left ∧ ¬ more ∨ ∃ wild, mark = .lost wild ∧ ∀ y ∈ wild, depth y = d)
    (hf : ∀ c h, h <+: (f c h).1) (hf' : ∀ c h, h <+: (f' c h).1) (hdepth : ∀ x ∈ cs, depth x = d)
    (hself : ∀ x ∈ cs, ∀ h, h ++ [x] <+: (f x h).1 ∧ h ++ [x] <+: (f' x h).1)
    (hp : Placed depth L (sweepBatch f' mark (c :: cs) h) (each f (c :: cs) h) d sib left after) :
    Placed depth L (f' c h) (f c h) d (cs ≠ [] ∨ more) left after := by
  obtain ⟨hends, hvisits, hgo, hleave, hstop, hshallow, -, hinParent, hbehind⟩ := hp
  -- the traversal
  have hvisits' : (f c h).1 <+: L := by
    rw [each] at hvisits
    split_ifs at hvisits
    · exact (prefix_each hf _ _).trans hvisits
    · exact hvisits
  have hgo' : (f c h).2 = .go → ∀ y, (f c h).1 ++ [y] <+: L → depth y ≤ d := by
    intro hc y hy
    rw [each, if_pos hc] at hgo hvisits
    cases hcs : cs with
    | nil =>
      rw [hcs, each] at hgo
      exact hgo rfl y hy
    | cons x xs =>
      rw [hcs] at hvisits
      rw [next_unique hy ((next_each hf (fun h => (hself x (by simp [hcs]) h).1) xs _).trans hvisits)]
      exact (hdepth x (by simp [hcs])).le
  have hout : (f c h).2 ≠ .go → each f (c :: cs) h = f c h := fun hc => if_neg hc
  -- the sweep
  by_cases hkept : (f' c h).2.IsKept
  · have hkept' : (f' c h).2 = .kept := by
      cases hm : (f' c h).2 with
      | kept => rfl
      | left => exact (hm ▸ hkept : (Mark.left : Mark T).IsKept).elim
      | lost wild => exact (hm ▸ hkept : (Mark.lost wild).IsKept).elim
    have hsweep : sweepBatch f' mark (c :: cs) h = sweepBatch f' mark cs (f' c h).1 := if_pos hkept
    rw [hsweep] at hends hshallow hinParent hbehind
    have hnext : cs ≠ [] ∨ (∃ wild, mark = .lost wild ∧ ∀ y ∈ wild, depth y = d) →
        ∃ y, depth y = d ∧ (f' c h).1 ++ [y] <+: L := by
      intro hmore
      cases hcs : cs with
      | nil =>
        obtain ⟨wild, hlost, hw⟩ := hmore.resolve_left (not_not.mpr hcs)
        rw [hcs, sweepBatch] at hends
        obtain ⟨y, hy, hpre⟩ := hends.lost wild hlost
        exact ⟨y, hw y hy, hpre⟩
      | cons x xs =>
        rw [hcs] at hends
        exact ⟨x, hdepth x (by simp [hcs]),
          (next_sweepBatch hf' (fun h => (hself x (by simp [hcs]) h).2) mark xs _).trans hends.visits⟩
    refine ⟨⟨(prefix_sweepBatch hf' _ _ _).trans hends.visits, fun wild hw => ?_⟩, hvisits', hgo',
      fun hc => ?_, fun hc => ?_, fun _ => ?_, fun _ hmore => ?_, fun hl => ?_, fun hl => ?_⟩
    · rw [hkept'] at hw
      cases hw
    · rw [hout (by simp [hc])] at hleave
      exact hleave hc
    · rw [hout (by simp [hc])] at hstop
      exact hstop hc
    · by_cases hcs : cs ≠ [] ∨ ∃ wild, mark = .lost wild ∧ ∀ y ∈ wild, depth y = d
      · obtain ⟨y, hy, hpre⟩ := hnext hcs
        exact Or.inr ⟨y, hy.le, hpre⟩
      · obtain ⟨hnil, hnot⟩ := not_or.mp hcs
        obtain ⟨hleft, -⟩ := hmark.resolve_right hnot
        rw [not_not.mp hnil, sweepBatch, hleft] at hshallow
        exact hshallow (by simp)
    · by_cases hcs : cs ≠ [] ∨ ∃ wild, mark = .lost wild ∧ ∀ y ∈ wild, depth y = d
      · obtain ⟨y, -, hpre⟩ := hnext hcs
        exact ⟨y, hpre⟩
      · obtain ⟨hnil, hnot⟩ := not_or.mp hcs
        obtain ⟨hleft, hnone⟩ := hmark.resolve_right hnot
        rw [not_not.mp hnil, sweepBatch] at hbehind
        exact hbehind hleft (hmore.resolve_left fun hsib => hsib.elim hnil hnone)
    · rw [hkept'] at hl
      cases hl
    · rw [hkept'] at hl
      cases hl
  · have hsweep : sweepBatch f' mark (c :: cs) h = f' c h := if_neg hkept
    rw [hsweep] at hends hshallow hinParent hbehind
    refine ⟨hends, hvisits', hgo', fun hc => ?_, fun hc => ?_, hshallow, fun hk => ?_, hinParent,
      hbehind⟩
    · rw [hout (by simp [hc])] at hleave
      exact hleave hc
    · rw [hout (by simp [hc])] at hstop
      exact hstop hc
    · rw [hk] at hkept
      exact absurd trivial hkept

theorem fineItems_of_placed {f : T → List T → List T × Code} {f' : T → List T → List T × Mark T}
    {fine : T → List T → Prop → Prop} {cs h : List T} {d : ℕ} {mark : Mark T}
    {sib more left after : Prop}
    (hmark : mark = .left ∧ ¬ more ∨ ∃ wild, mark = .lost wild ∧ ∀ y ∈ wild, depth y = d)
    (hf : ∀ c h, h <+: (f c h).1) (hf' : ∀ c h, h <+: (f' c h).1) (hdepth : ∀ x ∈ cs, depth x = d)
    (hself : ∀ x ∈ cs, ∀ h, h ++ [x] <+: (f x h).1 ∧ h ++ [x] <+: (f' x h).1)
    (hagree : ∀ c h sib, fine c h sib → Agrees (f' c h) (f c h) sib left after)
    (hfine : ∀ c ∈ cs, ∀ h sib, Placed depth L (f' c h) (f c h) d sib left after → fine c h sib)
    (hp : Placed depth L (sweepBatch f' mark cs h) (each f cs h) d sib left after) :
    FineItems f more fine cs h := by
  induction cs generalizing h with
  | nil => trivial
  | cons c cs ih =>
    have hdepth' : ∀ x ∈ cs, depth x = d := fun x hx => hdepth x (List.mem_cons_of_mem c hx)
    have hself' : ∀ x ∈ cs, ∀ h, h ++ [x] <+: (f x h).1 ∧ h ++ [x] <+: (f' x h).1 := fun x hx =>
      hself x (List.mem_cons_of_mem c hx)
    have hc := hfine c List.mem_cons_self h _ (hp.head hmark hf hf' hdepth' hself')
    refine ⟨hc, fun hgo => ih hdepth' hself' (fun x hx => hfine x (List.mem_cons_of_mem c hx)) ?_⟩
    have hboth := hagree c h _ hc
    have hsweep : sweepBatch f' mark (c :: cs) h = sweepBatch f' mark cs (f c h).1 := by
      rw [sweepBatch, if_pos (by rw [hboth.go hgo]; trivial), hboth.visited]
    have heach : each f (c :: cs) h = each f cs (f c h).1 := by rw [each, if_pos hgo]
    rwa [hsweep, heach] at hp

/-- What batches of children at depth `d + 1` meet if a sweep and a traversal of them are parts of ones
that visit the same. -/
theorem fineBatches_of_ends {f : T → List T → List T × Code} {f' : T → List T → List T × Mark T}
    {fine : T → List T → Prop → Prop → Prop} {bs : List (Batch T)} {h : List T} {d : ℕ} {after : Prop}
    (hf : ∀ c h, h <+: (f c h).1) (hf' : ∀ c h, h <+: (f' c h).1)
    (hdepth : ∀ b ∈ bs, ∀ x, b.Has x → depth x = d + 1)
    (hapart : bs.Pairwise fun b b' => ∀ x, b.Has x → ¬ b'.Has x)
    (hlate : ∀ b ∈ bs, ∀ x ∈ b.late, ∀ wild, b.wild = some wild → x ∉ wild)
    (hself : ∀ x ∈ items bs, ∀ h, h ++ [x] <+: (f x h).1 ∧ h ++ [x] <+: (f' x h).1)
    (hagree : ∀ c h sib left, fine c h sib left → Agrees (f' c h) (f c h) sib left after)
    (hfine : ∀ c ∈ items bs, ∀ h sib left,
      Placed depth L (f' c h) (f c h) (d + 1) sib left after → fine c h sib left)
    (hends : Ends L (sweepAll f' bs h)) (hvisits : (each f (items bs) h).1 <+: L)
    (hgo : (each f (items bs) h).2 ≠ .stop → ∀ y, (each f (items bs) h).1 ++ [y] <+: L → depth y ≤ d)
    (hstop : (each f (items bs) h).2 = .stop → (each f (items bs) h).1 = L)
    (hshallow : (∀ wild, (sweepAll f' bs h).2 ≠ .lost wild) →
      (sweepAll f' bs h).1 = L ∨ ∃ y, depth y ≤ d ∧ (sweepAll f' bs h).1 ++ [y] <+: L)
    (hafter : (sweepAll f' bs h).2 = .kept → after → ∃ y, (sweepAll f' bs h).1 ++ [y] <+: L) :
    FineBatches f fine bs h := by
  induction bs generalizing h with
  | nil => trivial
  | cons b bs ih =>
    have hcons : items (b :: bs) = b.items ++ items bs := List.flatMap_cons
    have hin : ∀ c ∈ b.items, c ∈ items (b :: bs) := fun c hc => hcons ▸ List.mem_append_left _ hc
    have hin' : ∀ c ∈ items bs, c ∈ items (b :: bs) := fun c hc => hcons ▸ List.mem_append_right _ hc
    have hearly : ∀ c ∈ b.early, c ∈ b.items := fun c hc => List.mem_append_left _ hc
    obtain ⟨hb, hbs⟩ := List.pairwise_cons.mp hapart
    have hdepth' : ∀ b' ∈ bs, ∀ x, b'.Has x → depth x = d + 1 := fun b' hb' =>
      hdepth b' (List.mem_cons_of_mem b hb')
    -- what is next in a batch and in the later ones
    have hnext : ∀ {x}, ¬ Bare bs → Ends L (sweepAll f' bs x) →
        ∃ y, (∃ b' ∈ bs, b'.Has y) ∧ x ++ [y] <+: L := fun hbare hx =>
      exists_next hf' (fun c hc h => (hself c (hin' c hc) h).2) hbare hx
    have hrest : ∀ {x} y, (y ∈ b.late ∨ y ∈ items bs) → depth y = d + 1 ∧
        ∀ cs, x ++ [y] <+: (each f (y :: cs) x).1 := by
      intro x y hy
      rcases hy with hy | hy
      · exact ⟨hdepth b List.mem_cons_self y (Or.inr (Or.inl hy)), fun cs =>
          next_each hf (fun h => (hself y (hin y (List.mem_append_right _ hy)) h).1) cs x⟩
      · obtain ⟨b', hb', hy'⟩ := List.mem_flatMap.mp hy
        exact ⟨hdepth' b' hb' y (Batch.has_of_mem_items hy'), fun cs =>
          next_each hf (fun h => (hself y (hin' y hy) h).1) cs x⟩
    have hmark : b.mark = .left ∧ ¬ b.wild ≠ none ∨
        ∃ wild, b.mark = .lost wild ∧ ∀ y ∈ wild, depth y = d + 1 := by
      cases hwild : b.wild with
      | none => exact Or.inl ⟨mark_of_none hwild, by simp⟩
      | some wild =>
        exact Or.inr ⟨wild, mark_of_some hwild, fun y hy =>
          hdepth b List.mem_cons_self y (Or.inr (Or.inr ⟨wild, hwild, hy⟩))⟩
    rw [each_batches] at hvisits hgo hstop
    have hp : Placed depth L (sweepBatch f' b.mark b.early h) (each f b.early h) (d + 1) False
        (¬ Bare bs) after := by
      -- behind the batch a sweep comes to the later ones
      have hlater : (∀ wild, (sweepBatch f' b.mark b.early h).2 ≠ .lost wild) →
          sweepAll f' (b :: bs) h = sweepAll f' bs (sweepBatch f' b.mark b.early h).1 :=
        sweepAll_cons_of_ne
      have hends' : Ends L (sweepBatch f' b.mark b.early h) := by
        refine ⟨?_, fun wild hl => ?_⟩
        · by_cases hl : ∃ wild, (sweepBatch f' b.mark b.early h).2 = .lost wild
          · obtain ⟨wild, hl⟩ := hl
            rw [sweepAll_cons_of_lost hl] at hends
            exact hends.visits
          · rw [hlater (not_exists.mp hl)] at hends
            exact (prefix_sweepAll hf' _ _).trans hends.visits
        · rw [sweepAll_cons_of_lost hl] at hends
          exact hends.lost wild rfl
      have hleft : (∀ wild, (sweepBatch f' b.mark b.early h).2 ≠ .lost wild) → ¬ Bare bs →
          ∃ y, depth y = d + 1 ∧ (sweepBatch f' b.mark b.early h).1 ++ [y] <+: L := by
        intro hl hbare
        rw [hlater hl] at hends
        obtain ⟨y, ⟨b', hb', hy⟩, hpre⟩ := hnext hbare hends
        exact ⟨y, hdepth' b' hb' y hy, hpre⟩
      refine ⟨hends', ?_, fun hc y hy => ?_, fun hc y hy => ?_, fun hc => ?_, fun hl => ?_,
        fun hk hmore => ?_, fun hl => hleft (by simp [hl]), fun hl hmore => ?_⟩
      · split_ifs at hvisits
        · exact (prefix_each hf _ _).trans hvisits
        · exact hvisits
      · rw [if_pos hc] at hgo hvisits
        cases hlist : b.late ++ items bs with
        | nil =>
          rw [hlist, each] at hgo
          exact (hgo (by simp) y hy).trans (Nat.le_succ d)
        | cons x xs =>
          have hx : x ∈ b.late ∨ x ∈ items bs := List.mem_append.mp (by simp [hlist])
          rw [hlist] at hvisits
          rw [next_unique hy (((hrest x hx).2 xs).trans hvisits)]
          exact (hrest (x := h) x hx).1.le
      · rw [if_neg (by simp [hc])] at hgo
        exact Nat.lt_succ_of_le (hgo (by simp [hc]) y hy)
      · rw [if_neg (by simp [hc])] at hstop
        exact hstop hc
      · by_cases hbare : Bare bs
        · rw [hlater hl, sweepAll_of_bare hbare] at hshallow
          exact (hshallow (by simp)).imp_right fun ⟨y, hy, hpre⟩ => ⟨y, hy.trans (Nat.le_succ d), hpre⟩
        · obtain ⟨y, hy, hpre⟩ := hleft hl hbare
          exact Or.inr ⟨y, hy.le, hpre⟩
      · by_cases hbare : Bare bs
        · rw [hlater (by simp [hk]), sweepAll_of_bare hbare] at hafter
          exact hafter rfl ((hmore.resolve_left id).resolve_left (not_not.mpr hbare))
        · obtain ⟨y, -, hpre⟩ := hleft (by simp [hk]) hbare
          exact ⟨y, hpre⟩
      · by_cases hbare : Bare bs
        · rw [hlater (by simp [hl]), sweepAll_of_bare hbare] at hafter
          exact hafter rfl (hmore.resolve_left (not_not.mpr hbare))
        · obtain ⟨y, -, hpre⟩ := hleft (by simp [hl]) hbare
          exact ⟨y, hpre⟩
    have hitems : FineItems f (b.wild ≠ none) (fun c h sib => fine c h sib (¬ Bare bs)) b.early h :=
      fineItems_of_placed hmark hf hf'
        (fun c hc => hdepth b List.mem_cons_self c (Or.inl hc))
        (fun c hc => hself c (hin c (hearly c hc))) (fun c h sib => hagree c h sib _)
        (fun c hc h sib => hfine c (hin c (hearly c hc)) h sib _) hp
    refine ⟨hitems, fun hc => ?_⟩
    have heq := (sweepBatch_eq (fun hw => mark_of_none (not_not.mp hw))
      (fun c h sib => hagree c h sib _) hitems).1
    rw [if_pos hc] at heq hvisits hgo hstop
    have hwild : b.wild = none := by
      cases hwild : b.wild with
      | none => rfl
      | some wild =>
        -- the sweep is lost; it visits one of the wild nodes next, and the traversal another one
        exfalso
        rw [mark_of_some hwild] at heq
        rw [sweepAll_cons_of_lost (by rw [mark_of_some hwild, heq]), mark_of_some hwild, heq] at hends
        obtain ⟨y, hy, hpre⟩ := hends.lost wild rfl
        have hhas : b.Has y := Or.inr (Or.inr ⟨wild, hwild, hy⟩)
        cases hlist : b.late ++ items bs with
        | nil =>
          rw [hlist, each] at hgo
          have hle := hgo (by simp) y hpre
          rw [hdepth b List.mem_cons_self y hhas] at hle
          omega
        | cons x xs =>
          have hx : x ∈ b.late ∨ x ∈ items bs := List.mem_append.mp (by simp [hlist])
          rw [hlist] at hvisits
          rw [next_unique hpre (((hrest x hx).2 xs).trans hvisits)] at hy hhas
          rcases hx with hx | hx
          · exact hlate b List.mem_cons_self x hx wild hwild hy
          · obtain ⟨b', hb', hx'⟩ := List.mem_flatMap.mp hx
            exact hb b' hb' x hhas (Batch.has_of_mem_items hx')
    rw [mark_of_none hwild] at heq
    rw [sweepAll_cons_of_ne (by simp [mark_of_none hwild, heq]), mark_of_none hwild, heq]
      at hends hshallow hafter
    have hnil : b.late = [] := by
      by_contra hne
      obtain ⟨x, xs, hlist⟩ := List.exists_cons_of_ne_nil hne
      have hx : x ∈ b.late := by simp [hlist]
      -- the traversal visits the first child that a sweep does not see, and the sweep another node
      rw [hlist, List.cons_append] at hvisits
      have hpre := ((hrest x (Or.inl hx)).2 _).trans hvisits
      by_cases hbare : Bare bs
      · rw [sweepAll_of_bare hbare] at hshallow
        rcases hshallow (by simp) with hend | ⟨y, hy, hpre'⟩
        · rw [hend] at hpre
          exact not_next hpre
        · rw [next_unique hpre' hpre, (hrest (x := h) x (Or.inl hx)).1] at hy
          omega
      · obtain ⟨y, ⟨b', hb', hy⟩, hpre'⟩ := hnext hbare hends
        rw [next_unique hpre' hpre] at hy
        exact hb b' hb' x (Or.inr (Or.inl hx)) hy
    refine ⟨hnil, hwild, ?_⟩
    rw [hnil, List.nil_append] at hvisits hgo hstop
    exact ih hdepth' hbs (fun b' hb' => hlate b' (List.mem_cons_of_mem b hb'))
      (fun c hc => hself c (hin' c hc)) (fun c hc => hfine c (hin' c hc)) hends hvisits hgo hstop
      hshallow hafter

theorem fine_of_placed (hl : Labelled kids depth) {n : ℕ} {t : T} {h : List T} {sib left after : Prop}
    (ht : Within (children kids) n t)
    (hp : Placed depth L (sweep kids cb n t h) (visit (children kids) cb n t h) (depth t)
      sib left after) : Fine kids cb n t h sib left after := by
  induction n generalizing t h sib left after with
  | zero => exact ht.elim
  | succ n ih =>
    obtain ⟨hends, hvisits, hgo, hleave, hstop, hshallow, hgoesOn, hinParent, hbehind⟩ := hp
    rw [sweep] at hends hshallow hgoesOn hinParent hbehind
    rw [visit] at hvisits hgo hleave hstop
    rw [Fine]
    have hself : ∀ x ∈ items (kids t), ∀ h, h ++ [x] <+: (visit (children kids) cb n x h).1 ∧
        h ++ [x] <+: (sweep kids cb n x h).1 := fun x hx h => visits_self (ht x hx) h
    cases hcode : cb h t with
    | go =>
      simp only [hcode] at hvisits hgo hstop
      rw [if_neg (by simp [hcode])] at hends hshallow hgoesOn
      refine fineBatches_of_ends (prefix_visit _ n) (prefix_sweep n) (hl.depth_eq t) (hl.apart t)
        (hl.late_wild t) hself (fun c h sib' left' => agrees_of_fine) (fun c hc h sib' left' hpc => ?_)
        hends hvisits (fun hne => ?_) (fun heq => ?_) hshallow hgoesOn
      · obtain ⟨b, hb, hcb⟩ := List.mem_flatMap.mp hc
        rw [← hl.depth_eq t b hb c (Batch.has_of_mem_items hcb)] at hpc
        exact ih (ht c hc) hpc
      · rw [if_neg hne] at hgo
        exact hgo rfl
      · rw [if_pos heq] at hstop
        exact hstop rfl
    | skip =>
      simp only [hcode] at hgo
      rw [if_neg (by simp [hcode])] at hends
      show Bare (kids t)
      by_contra hbare
      obtain ⟨y, ⟨b, hb, hy⟩, hpre⟩ :=
        exists_next (prefix_sweep n) (fun c hc h => (hself c hc h).2) hbare hends
      have hdeep := hgo trivial y hpre
      rw [hl.depth_eq t b hb y hy] at hdeep
      omega
    | stop =>
      simp only [hcode] at hstop
      rw [if_pos (Or.inl hcode)] at hbehind
      have hend : h ++ [t] = L := hstop trivial
      have hnone : ¬ (left ∨ after) := by
        intro hmore
        obtain ⟨y, hy⟩ := hbehind rfl hmore
        dsimp only at hy
        rw [hend] at hy
        exact not_next hy
      exact not_or.mp hnone
    | leave =>
      simp only [hcode] at hleave
      rw [if_pos (Or.inr hcode)] at hinParent
      show ¬ left
      intro hleft
      obtain ⟨y, hy, hpre⟩ := hinParent rfl hleft
      have hshort := hleave trivial y hpre
      omega

/-- What a traversal of a finite tree visits meets what is asked of it, if a sweep that visits the same
ends there or goes on with a wild node. -/
theorem fine_of_ends (hl : Labelled kids depth) {n : ℕ} {t : T} (ht : Within (children kids) n t)
    (hends : Ends (visit (children kids) cb n t []).1 (sweep kids cb n t []))
    (hwhole : (∀ wild, (sweep kids cb n t []).2 ≠ .lost wild) →
      (sweep kids cb n t []).1 = (visit (children kids) cb n t []).1) :
    Fine kids cb n t [] False False False := by
  have hend : ∀ y, ¬ (visit (children kids) cb n t []).1 ++ [y] <+:
      (visit (children kids) cb n t []).1 := fun _ => not_next
  refine fine_of_placed hl ht ⟨hends, List.prefix_rfl, fun _ y hy => absurd hy (hend y),
    fun _ y hy => absurd hy (hend y), fun _ => rfl, fun hw => Or.inl (hwhole hw), ?_, ?_, ?_⟩ <;> simp

end Preorder
