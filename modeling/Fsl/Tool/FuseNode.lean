import Fsl.Runtime.NodesOwned

/-!
# Nodes of paths

`tool/fuse_node.c` finds the node of a path of the FUSE browser: from the node of the origin it goes from
component to component, by index or by name, and frees the nodes that it has come by.
-/

namespace Fsl.FuseNode

open Nodes ArrayLookup

variable {V : Type}

/-- `'/'` -/
def slash : UInt8 := 47

/-- `get_path_next` -/
def getPathNext (s : List UInt8) : Option (List UInt8) :=
  let s := s.dropWhile (· = slash)
  if s = [] then none else some (s.dropWhile (· ≠ slash))

/-- `get_path_first` -/
def getPathFirst (s : List UInt8) : Option (List UInt8) :=
  let s := s.dropWhile (· = slash)
  if s = [] then none else some (s.takeWhile (· ≠ slash))

theorem length_of_getPathNext {s next : List UInt8} (h : getPathNext s = some next) :
    next.length < s.length := by
  unfold getPathNext at h
  dsimp only at h
  split_ifs at h with hnil
  cases hs : s.dropWhile (· = slash) with
  | nil => exact absurd hs hnil
  | cons c rest =>
    have hc : c ≠ slash := by
      have hhead := List.head_dropWhile_not (fun c : UInt8 => decide (c = slash)) hnil
      simpa [hs] using hhead
    have hlen : (c :: rest).length ≤ s.length := hs ▸ (List.dropWhile_sublist _).length_le
    rw [← Option.some.inj h, hs, List.dropWhile_cons_of_pos (by simpa using hc)]
    exact lt_of_lt_of_le (Nat.lt_succ_of_le (List.dropWhile_sublist _).length_le) hlen

/-- `atoi` on digits, as the `unsigned int` that it is passed as; `strtol` stops at `LONG_MAX`. -/
def atoi (s : List UInt8) : UInt32 :=
  UInt32.ofNat (min (s.foldl (fun n c => 10 * n + (c.toNat - 48)) 0) (2 ^ 63 - 1))

variable (E : Tables V) (turns : ℕ)

/-- What `fbn_from_relpath` takes for a component. -/
def follow (fbn : ℕ) (elem : List UInt8) : Client V (Option ℕ) := do
  if isInt elem then return (← bridgeIdxInto E fbn (atoi elem)).1
  else
    match ← bridgeFbnFollowName E fbn elem with
    | some new => return some new
    | none => bridgeFollowPrettyName E turns fbn elem

/-- `fbn_from_relpath` -/
def fbnFromRelpath (fbnParent : ℕ) (path : List UInt8) : Client V (Option ℕ) :=
  match _hnext : getPathNext path with
  | none => return some fbnParent
  | some next =>
    match getPathFirst path with
    | none => return some fbnParent
    | some elem => do
      match ← follow E turns fbnParent elem with
      | none => return none
      | some new => do
        let ret ← fbnFromRelpath new next
        if ret ≠ some new then bridgeFree new
        return ret
  termination_by path.length
  decreasing_by exact length_of_getPathNext _hnext

/-- `fbn_from_rootpath` -/
def fslnodeByPath (path : List UInt8) : Client V (Option ℕ) := do
  match ← allocOrigin E with
  | none => return none
  | some tiOrigin => do
    let fbn ← bridgeFromTi tiOrigin
    let ret ← fbnFromRelpath E turns fbn path
    if ret ≠ some fbn then bridgeFree fbn
    return ret

/-! ## Who owns what -/

open Owned

/-- The code stops for any reason but that it uses memory that is not allocated. -/
def Safe (e : Fail) : Prop := e ≠ .freed

variable {E turns} {P : Multiset (Res V)} {a : ℕ} {n : Node V}

theorem triple_follow (hn : whole a n ≤ P) (elem : List UInt8) :
    Triple Owns Safe P (follow E turns a elem) (Made P) := by
  unfold follow
  split_ifs
  · refine (triple_bridgeIdxInto Fail.noConfusion hn (atoi elem)).bind fun res U hU => .pure ?_
    cases hres : res.1 with
    | none =>
      rw [hres] at hU
      exact hU
    | some b =>
      rw [hres] at hU
      obtain ⟨t, rfl⟩ := hU
      exact Made.some (List.cons_ne_nil _ _)
  · refine (triple_bridgeFbnFollowName Fail.noConfusion hn (Or.inr (Or.inr Fail.noConfusion)) elem).bind
      fun res U hU => ?_
    cases res with
    | some new => exact .pure hU
    | none =>
      rw [show U = P from hU]
      exact triple_bridgeFollowPrettyName Fail.noConfusion Fail.noConfusion hn turns elem

/-- The node of a path is the one that it starts from or a new one, or there is none. -/
def Resolved (a : ℕ) (P : Multiset (Res V)) (r : Option ℕ) (U : Multiset (Res V)) : Prop :=
  (r = some a ∧ U = P) ∨ (r ≠ some a ∧ Made P r U)

/-- A new node has another address. -/
theorem ne_of_made {Q : Multiset (Res V)} {ret : Option ℕ} {U rest : Multiset (Res V)} {m : Mem V}
    (hn : .mem a n ∈ Q) (hmade : Made Q ret U) (hm : Owns m (U + rest)) : ret ≠ some a := by
  rintro rfl
  obtain ⟨j, -, rfl⟩ := hmade
  have hmem : Res.mem a n ∈ held j.tis + Q + rest := by simp [hn]
  rw [whole, Multiset.cons_add, Multiset.cons_add] at hm
  exact hm.ne_of_mem (mem_mems.mpr hmem) rfl

theorem triple_fbnFromRelpath (hn : whole a n ≤ P) (path : List UInt8) :
    Triple Owns Safe P (fbnFromRelpath E turns a path) (Resolved a P) := by
  induction hlen : path.length using Nat.strong_induction_on generalizing a n P path with
  | _ len ih =>
    subst hlen
    rw [fbnFromRelpath]
    split
    · exact .pure (Or.inl ⟨rfl, rfl⟩)
    · next next hnext =>
      cases getPathFirst path with
      | none => exact .pure (Or.inl ⟨rfl, rfl⟩)
      | some elem =>
        refine (triple_follow hn elem).bind fun res U hU => ?_
        cases res with
        | none => exact .pure (Or.inr ⟨by simp, hU⟩)
        | some b =>
          refine .assume (fun rest m hm => ne_of_made (mem_of_whole hn) hU hm) fun hab => ?_
          obtain ⟨j, hj, rfl⟩ := hU
          refine (ih next.length (length_of_getPathNext hnext) (Multiset.le_add_right _ _) next
            rfl).bind fun ret U hU => ?_
          rcases hU with ⟨rfl, rfl⟩ | ⟨hne, hmade⟩
          · rw [if_neg (not_not.mpr rfl)]
            exact .pure (Or.inr ⟨hab, Made.some hj⟩)
          · rw [if_pos hne]
            have hmem : .mem a n ∈ whole b j + P := Multiset.mem_add.mpr (.inr (mem_of_whole hn))
            refine .assume (fun rest m hm => ne_of_made hmem hmade hm) fun hac => ?_
            exact (triple_free_made hmade).weaken fun r U h => Or.inr ⟨h.1 ▸ hac, h.2⟩

/-- Of a path only its node is left. -/
theorem triple_fslnodeByPath (path : List UInt8) :
    Triple Owns Safe P (fslnodeByPath E turns path) (Made P) := by
  refine (triple_allocOrigin E).bind_eq fun res => ?_
  cases res with
  | none => exact .pure Made.none
  | some t =>
    refine (triple_bridgeFromTi Fail.noConfusion).bind_eq fun a => ?_
    refine (triple_fbnFromRelpath (Multiset.le_add_right _ _) path).bind fun ret U hU => ?_
    rcases hU with ⟨rfl, rfl⟩ | ⟨hne, hmade⟩
    · rw [if_neg (not_not.mpr rfl)]
      exact .pure (Made.some (List.cons_ne_nil _ _))
    · rw [if_pos hne]
      exact (triple_free_made hmade).weaken fun _ _ h => h.2

end Fsl.FuseNode
