import Fsl.Runtime.Children
import Fsl.Runtime.Prog

/-!
# Array nodes of the bridge

`runtime/bridge.c` stands for a child with elements by a node, which `fsl_bridge_idx_into` indexes. From
an element `fsl_bridge_up_array` makes the node anew, out of what the element's type info remembers.
-/

namespace Fsl.Bridge

open Children

/-- An array node: `fbn_arr_parent` with `fbn_arr_field`, `fbn_arr_pt` or `fbn_arr_vt`, and
`fbn_arr_max`. -/
structure ArrayNode where
  child : Child
  arrMax : UInt64

/-- The type info of an element: `ti_field`, `ti_points` and `ti_virt`, by the child of the parent that
they are, and the index it was followed with. -/
structure TypeInfo where
  field : Option FieldArray
  points : Option PointsTo
  virt : Option Virtual
  idx : UInt32

/-- What following an element fills in. -/
def elem (c : Child) (idx : UInt32) : TypeInfo :=
  match c with
  | .field f => ⟨some f, none, none, idx⟩
  | .pointsto p => ⟨none, some p, none, idx⟩
  | .virt v => ⟨none, none, some v, idx⟩

/-- `fsl_bridge_follow_tf` on a field of a user type whose condition, if there is one, has the value
`cond`; where it returns an array node. -/
def followTf (f : FieldArray) (cond : Option Bool) : Option ArrayNode :=
  if cond = some false then none
  else if f.elemcount = 0 then none
  else if f.elemcount = 1 then none
  else some ⟨.field f, f.elemcount⟩

/-- `fsl_bridge_follow_name` on a points-to range or a virtual type. -/
def followName : Child → Option ArrayNode
  | .field _ => none
  | .pointsto p =>
    if p.itMin = -1 then none
    else if p.itMax < p.itMin then none
    else some ⟨.pointsto p, p.itMax - p.itMin + 1⟩
  | .virt v => some ⟨.virt v, -1⟩

/-- `follow` on an element, which returns an instance or not, and an error code. -/
def followElem : Child → UInt32 → Except Stop (Bool × TiErr)
  | .field f, idx => return (← f.followIdx idx, .ok)
  | .pointsto p, idx => return (← p.followIdx idx, .ok)
  | .virt v, idx => v.allocVirtIdx idx

/-- `fsl_bridge_idx_into`: the node of the element, and `*err`. -/
def ArrayNode.idxInto (a : ArrayNode) (idx : UInt32) : Except Stop (Option TypeInfo × TiErr) :=
  if a.arrMax ≤ idx.toUInt64 then return (none, .badIdx)
  else do
    let r ← followElem a.child idx
    return (if r.1 then some (elem a.child idx) else none, r.2)

/-- `fsl_bridge_up_array`. The node is cleared before it is filled, and `fbn_arr_max` stays 0. -/
def upArray (ti : TypeInfo) : Option ArrayNode :=
  match ti.field with
  | some f => if f.elemcount = 1 then none else some ⟨.field f, 0⟩
  | none =>
    match ti.points with
    | some p => some ⟨.pointsto p, 0⟩
    | none =>
      match ti.virt with
      | some v => some ⟨.virt v, 0⟩
      | none => none

/-- A node that one of the two functions returns. -/
def Obtained (a : ArrayNode) : Prop :=
  (∃ f cond, followTf f cond = some a) ∨ ∃ c, followName c = some a

/-- Both nodes have the same elements and the same errors. -/
def Behaves (a b : ArrayNode) : Prop := ∀ j, a.idxInto j = b.idxInto j

/-- The node that is made anew behaves as the one that the element came from. -/
def Restores (a : ArrayNode) (ti : TypeInfo) : Prop := ∃ up, upArray ti = some up ∧ Behaves up a

variable {a : ArrayNode} {c : Child}

/-- The node has the bound that the loops over the child's elements go by. -/
theorem Obtained.arrMax_eq (h : Obtained a) : a.arrMax = a.child.arrMax := by
  rcases h with ⟨f, cond, h⟩ | ⟨c, h⟩
  · unfold followTf at h
    split_ifs at h
    rw [← Option.some.inj h]
    rfl
  · cases c with
    | field f => cases h
    | pointsto p =>
      simp only [followName] at h
      split_ifs at h with hmin hlt
      rw [← Option.some.inj h]
      exact ((if_neg hmin).trans (if_neg hlt)).symm
    | virt v =>
      rw [← Option.some.inj h]
      rfl

/-- Whether there is an element, and the error, are those of the loop of the kernel module. -/
theorem Obtained.idxInto (h : Obtained a) (idx : UInt32) :
    a.child.idxInto idx = (do
      let r ← a.idxInto idx
      return (r.1.isSome, r.2)) := by
  rw [ArrayNode.idxInto, h.arrMax_eq, Child.idxInto.eq_def]
  by_cases hle : a.child.arrMax ≤ idx.toUInt64
  · rw [if_pos hle, if_pos hle]
    rfl
  · rw [if_neg hle, if_neg hle]
    cases hchild : a.child with
    | field f =>
      cases hf : f.followIdx idx with
      | error e => simp [followElem, hf]
      | ok b => cases b <;> simp [followElem, hf]
    | pointsto p =>
      cases hf : p.followIdx idx with
      | error e => simp [followElem, hf]
      | ok b => cases b <;> simp [followElem, hf]
    | virt v =>
      cases hf : v.allocVirtIdx idx with
      | error e => simp [followElem, hf]
      | ok r =>
        obtain ⟨b, err⟩ := r
        cases b <;> simp [followElem, hf]

/-- The element of a node remembers the child of the node. -/
theorem elem_of_idxInto {i : UInt32} {ti : TypeInfo} {err : TiErr}
    (h : a.idxInto i = .ok (some ti, err)) : ti = elem a.child i := by
  unfold ArrayNode.idxInto at h
  split_ifs at h
  · cases h
  · obtain ⟨r, -, h⟩ := bind_eq_ok h
    have hnode := (Prod.mk.inj (Except.ok.inj h)).1
    split_ifs at hnode
    exact (Option.some.inj hnode).symm

/-- A node that is made anew has no element. -/
theorem idxInto_of_upArray {ti : TypeInfo} {up : ArrayNode} (h : upArray ti = some up) (j : UInt32) :
    up.idxInto j = .ok (none, .badIdx) := by
  have hmax : up.arrMax = 0 := by
    unfold upArray at h
    split at h
    · split_ifs at h
      rw [← Option.some.inj h]
    · split at h
      · rw [← Option.some.inj h]
      · split at h
        · rw [← Option.some.inj h]
        · cases h
  rw [ArrayNode.idxInto, if_pos]
  · rfl
  · rw [hmax]
    exact UInt64.zero_le

/-- From every element of a node that was obtained a node is made. -/
theorem Obtained.exists_upArray (h : Obtained a) (i : UInt32) :
    ∃ up, upArray (elem a.child i) = some up := by
  rcases h with ⟨f, cond, h⟩ | ⟨c, h⟩
  · unfold followTf at h
    split_ifs at h with _ _ hone
    rw [← Option.some.inj h]
    exact ⟨_, if_neg hone⟩
  · cases hchild : a.child with
    | field f =>
      cases c with
      | field f' => cases h
      | pointsto p =>
        simp only [followName] at h
        split_ifs at h
        rw [← Option.some.inj h] at hchild
        cases hchild
      | virt v =>
        rw [← Option.some.inj h] at hchild
        cases hchild
    | pointsto p => exact ⟨_, rfl⟩
    | virt v => exact ⟨_, rfl⟩

/-- For every node and every element of it, the node that is made anew has no element, not even this
one. -/
theorem upArray_not_restores (a : ArrayNode) (h : Obtained a) (i : UInt32) (ti : TypeInfo) (err : TiErr)
    (hti : a.idxInto i = .ok (some ti, err)) :
    (∃ up, upArray ti = some up ∧ ∀ j, up.idxInto j = .ok (none, .badIdx)) ∧ ¬ Restores a ti := by
  constructor
  · obtain ⟨up, hup⟩ := h.exists_upArray i
    rw [elem_of_idxInto hti]
    exact ⟨up, hup, idxInto_of_upArray hup⟩
  · rintro ⟨up, hup, hsame⟩
    have hnone := hsame i
    rw [idxInto_of_upArray hup, hti] at hnone
    cases hnone

/-- An array of three elements of eight bits, all of which can be followed. -/
def threeElems : FieldArray where
  elemcount := 3
  fieldbitoff := 0
  typesize := 8
  fixed := true
  size _ _ := .ok 8
  follow _ _ := .ok true

theorem upArray_not_restores_threeElems :
    (∃ up, upArray (elem (.field threeElems) 1) = some up ∧ ∀ j, up.idxInto j = .ok (none, .badIdx)) ∧
      ¬ Restores ⟨.field threeElems, 3⟩ (elem (.field threeElems) 1) :=
  upArray_not_restores _ (Or.inl ⟨threeElems, none, rfl⟩) 1 _ .ok rfl

/-- From the second element of the array, no element is found again. -/
theorem not_restores_threeElems : Obtained ⟨.field threeElems, 3⟩ ∧
    (⟨.field threeElems, 3⟩ : ArrayNode).idxInto 1 = .ok (some (elem (.field threeElems) 1), .ok) ∧
    ¬ Restores ⟨.field threeElems, 3⟩ (elem (.field threeElems) 1) := by
  refine ⟨Or.inl ⟨threeElems, none, rfl⟩, rfl, ?_⟩
  rintro ⟨up, hup, hsame⟩
  have hnone := hsame 1
  rw [idxInto_of_upArray hup] at hnone
  cases hnone

end Fsl.Bridge
