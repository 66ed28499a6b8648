import Fsl.Runtime.Disk

/-!
# Type stacks

`EvalCtx::resolveTypeStack` resolves a path such as `a.b[i].c` to a stack of the types it leads through.
The top of the stack carries the closure of the last component, from which its value is read and to
which it is written.
-/

namespace Fsl.TypeStack

/-- What a symbol table and a `ThunkField` say about a field: its type, `none` if it is not a user
type, and whether it is no `isSingleton()`. -/
structure Field where
  type : Option String
  array : Bool
  deriving DecidableEq, Repr

/-- A type: its symbol table, and the type names of its parameters. -/
structure TypeDecl where
  fields : String → Option Field
  args : String → Option String

/-- `EvalCtx` has one constructor for each: a type, with the variables of `code_builder`; a
`VarScope`; a function, with its arguments and the variables of the block. A variable has a type here
only if it is a user type. -/
inductive Scope
  | type (decl : TypeDecl) (builderVars : Option (String → Option String))
  | vars (vscope : String → Option String)
  | func (args blkVars : String → Option String)

/-- A component of a path: `Id`, `IdArray`, `FCall`, or another expression. -/
inductive Comp (ι κ : Type)
  | id (name : String)
  | idArray (name : String) (idx : ι)
  | fcall (name : String) (call : κ)
  | other

variable {ι κ : Type}

/-- What a closure stands for. -/
inductive Place (ι κ : Type)
  | thunk
  | var (name : String)
  | fcall (call : κ)
  | base (type : String)
  | field (of : Place ι κ) (name : String) (idx : Option ι)
  | param (of : Place ι κ) (name : String)

/-- `TypeBase` -/
structure TypeBase (ι κ : Type) where
  type : Option String
  place : Place ι κ
  isValue : Bool

/-- `TypeStack` is never empty. -/
structure Stack (ι κ : Type) where
  top : TypeBase ι κ
  below : List (TypeBase ι κ)

/-- `types_map` with `symtabs`, the return types of `funcs_map`, and whether a call can be evaluated. -/
structure Ctx (κ : Type) where
  scope : Scope
  types : String → Option TypeDecl
  funcs : String → Option String
  evals : κ → Bool

/-- `toName` -/
def Comp.toName : Comp ι κ → Option (String × Option ι)
  | .id name => some (name, none)
  | .idArray name idx => some (name, some idx)
  | .fcall _ _ => none
  | .other => none

namespace Scope

/-- `cur_scope` -/
def curScope : Scope → Option TypeDecl
  | type decl _ => some decl
  | _ => none

/-- `code_builder->getVarScope()` -/
def builderVars : Scope → Option (String → Option String)
  | type _ bv => bv
  | _ => none

/-- `cur_vscope` -/
def curVscope : Scope → Option (String → Option String)
  | vars vscope => some vscope
  | _ => none

/-- `cur_func` and `cur_func_blk`: the arguments come first. -/
def curFunc : Scope → Option (String → Option String)
  | func args blkVars => some fun name => args name <|> blkVars name
  | _ => none

end Scope

namespace Ctx

variable (Γ : Ctx κ)

/-- `TypeBase::setNewOffsets` of field `f`: there is an index exactly if the field is an array. -/
def setNewOffsets (b : TypeBase ι κ) (f : Field) (name : String) (idx : Option ι) :
    Option (TypeBase ι κ) :=
  if f.array = idx.isSome then some ⟨f.type, .field b.place name idx, false⟩ else none

/-- `TypeStack::followIdIdx` from a top of type `t`. A symbol table that is missing is dereferenced,
and a parameter of a user type ends the compiler; the index of a parameter is not looked at. -/
def followIdIdx (b : TypeBase ι κ) (t name : String) (idx : Option ι) :
    Except Stop (Option (TypeBase ι κ)) :=
  match Γ.types t with
  | none => .error .fault
  | some decl =>
    match decl.fields name with
    | some f => .ok (Ctx.setNewOffsets b f name idx)
    | none =>
      match decl.args name with
      | none => .ok none
      | some argType =>
        if (Γ.types argType).isSome then .error .assertion
        else .ok (some ⟨none, .param b.place name, true⟩)

/-- `EvalCtx::resolveTail` -/
def resolveTail (top : TypeBase ι κ) (below : List (TypeBase ι κ)) :
    List (Comp ι κ) → Except Stop (Option (Stack ι κ))
  | [] => .ok (some ⟨top, below⟩)
  | c :: cs =>
    match top.type with
    | none => .ok (some ⟨top, below⟩)
    | some t =>
      match c.toName with
      | none => .ok none
      | some (name, idx) =>
        match Γ.followIdIdx top t name idx with
        | .error e => .error e
        | .ok none => .ok (some ⟨top, below⟩)
        | .ok (some b) => resolveTail b (top :: below) cs

/-- `EvalCtx::resolveIdStructCurScope`. What `setNewOffsets` returns is not looked at, so that the
closure stays that of the type. -/
def resolveIdStructCurScope (name : String) (idx : Option ι) (cs : List (Comp ι κ)) :
    Except Stop (Option (Stack ι κ)) :=
  match Γ.scope.curScope.bind fun decl => decl.fields name with
  | none => .ok none
  | some f =>
    let head : TypeBase ι κ := ⟨f.type, .thunk, false⟩
    Γ.resolveTail ((Ctx.setNewOffsets head f name idx).getD head) [] cs

/-- `EvalCtx::resolveIdStructVarScope`, and `resolveIdStructFunc`, which looks in other variables. -/
def resolveIdStructVarScope (name : String) (cs : List (Comp ι κ))
    (vs : Option (String → Option String)) : Except Stop (Option (Stack ι κ)) :=
  match vs.bind fun vars => vars name with
  | none => .ok none
  | some t => Γ.resolveTail ⟨some t, .var name, false⟩ [] cs

/-- `EvalCtx::resolveIdStructFHead` -/
def resolveIdStructFHead (name : String) (call : κ) (cs : List (Comp ι κ)) :
    Except Stop (Option (Stack ι κ)) :=
  match Γ.funcs name with
  | none => .ok none
  | some t =>
    if (Γ.types t).isSome ∧ Γ.evals call = true then Γ.resolveTail ⟨some t, .fcall call, false⟩ [] cs
    else .ok none

/-- The last head of `resolveTypeStack`, a type of this name: only `disk` is expected. -/
def resolveGlobal (name : String) (cs : List (Comp ι κ)) : Except Stop (Option (Stack ι κ)) :=
  if (Γ.types name).isSome then
    if name = "disk" then Γ.resolveTail ⟨some name, .base name, false⟩ [] cs
    else .error .assertion
  else .ok none

/-- Go on if there is no stack yet. -/
def orElse (ts : Option (Stack ι κ)) (next : Except Stop (Option (Stack ι κ))) :
    Except Stop (Option (Stack ι κ)) :=
  match ts with
  | some ts => .ok (some ts)
  | none => next

/-- `EvalCtx::resolveTypeStack` of `c.cs…`. -/
def resolveTypeStack (c : Comp ι κ) (cs : List (Comp ι κ)) : Except Stop (Option (Stack ι κ)) :=
  match c with
  | .fcall name call => Γ.resolveIdStructFHead name call cs
  | c =>
    match c.toName with
    | none => .ok none
    | some (name, idx) => do
      let ts ← (if Γ.scope.curScope.isSome then
        Γ.resolveIdStructVarScope name cs Γ.scope.builderVars else .ok none)
      let ts ← (if Γ.scope.curVscope.isSome then
        Γ.resolveIdStructVarScope name cs Γ.scope.curVscope else .ok ts)
      let ts ← orElse ts (Γ.resolveIdStructCurScope name idx cs)
      if ts.isNone ∧ idx.isSome then .ok none
      else do
        let ts ← orElse ts (Γ.resolveIdStructVarScope name cs Γ.scope.curFunc)
        orElse ts (Γ.resolveGlobal name cs)

end Ctx

/-! ## What a path denotes -/

/-- What the first component of a path denotes. -/
inductive HeadOf (Γ : Ctx κ) : Comp ι κ → TypeBase ι κ → Prop
  | fcall {name : String} {call : κ} {t : String} : Γ.funcs name = some t →
      (Γ.types t).isSome → Γ.evals call = true →
      HeadOf Γ (.fcall name call) ⟨some t, .fcall call, false⟩
  | var {name t : String} {vars : String → Option String} :
      Γ.scope.builderVars = some vars ∨ Γ.scope.curVscope = some vars ∨ Γ.scope.curFunc = some vars →
      vars name = some t → HeadOf Γ (.id name) ⟨some t, .var name, false⟩
  | field {c : Comp ι κ} {name : String} {idx : Option ι} {decl : TypeDecl} {f : Field} :
      c.toName = some (name, idx) → Γ.scope.curScope = some decl → decl.fields name = some f →
      f.array = idx.isSome → HeadOf Γ c ⟨f.type, .field .thunk name idx, false⟩
  | disk : (Γ.types "disk").isSome → HeadOf Γ (.id "disk") ⟨some "disk", .base "disk", false⟩

/-- A component of the type reached so far: a field, with an index exactly if it is an array, or a
parameter. -/
inductive Follows (Γ : Ctx κ) : TypeBase ι κ → Comp ι κ → TypeBase ι κ → Prop
  | field {b : TypeBase ι κ} {c : Comp ι κ} {t name : String} {idx : Option ι} {decl : TypeDecl}
      {f : Field} : b.type = some t → Γ.types t = some decl → c.toName = some (name, idx) →
      decl.fields name = some f → f.array = idx.isSome →
      Follows Γ b c ⟨f.type, .field b.place name idx, false⟩
  | param {b : TypeBase ι κ} {t name argType : String} {decl : TypeDecl} : b.type = some t →
      Γ.types t = some decl → decl.fields name = none → decl.args name = some argType →
      Γ.types argType = none → Follows Γ b (.id name) ⟨none, .param b.place name, true⟩

/-- The components from `b` on lead to the last one. -/
inductive Leads (Γ : Ctx κ) : TypeBase ι κ → List (Comp ι κ) → TypeBase ι κ → Prop
  | nil (b : TypeBase ι κ) : Leads Γ b [] b
  | cons {b b' b'' : TypeBase ι κ} {c : Comp ι κ} {cs : List (Comp ι κ)} : Follows Γ b c b' →
      Leads Γ b' cs b'' → Leads Γ b (c :: cs) b''

/-- `NULL`, or the stack of a path that denotes something, with the last component on top. -/
def Whole (Γ : Ctx κ) (c : Comp ι κ) (cs : List (Comp ι κ))
    (res : Except Stop (Option (Stack ι κ))) : Prop :=
  res = .ok none ∨ ∃ ts h, res = .ok (some ts) ∧ HeadOf Γ c h ∧ Leads Γ h cs ts.top

/-- The path resolves completely or not at all. -/
def Complete (Γ : Ctx κ) (c : Comp ι κ) (cs : List (Comp ι κ)) : Prop :=
  Whole Γ c cs (Γ.resolveTypeStack c cs)

/-! ## What happens on the way -/

/-- The way comes to a component that is neither a name nor an indexed name. -/
inductive Unnamed (Γ : Ctx κ) : TypeBase ι κ → List (Comp ι κ) → Prop
  | here {b : TypeBase ι κ} {t : String} {c : Comp ι κ} {cs : List (Comp ι κ)} : b.type = some t →
      c.toName = none → Unnamed Γ b (c :: cs)
  | there {b b' : TypeBase ι κ} {c : Comp ι κ} {cs : List (Comp ι κ)} : Follows Γ b c b' →
      Unnamed Γ b' cs → Unnamed Γ b (c :: cs)

/-- The way comes to a type without a symbol table, or to a parameter of a user type. -/
inductive Aborts (Γ : Ctx κ) : TypeBase ι κ → List (Comp ι κ) → Prop
  | noTable {b : TypeBase ι κ} {t : String} {c : Comp ι κ} {cs : List (Comp ι κ)}
      {name : String × Option ι} : b.type = some t → c.toName = some name → Γ.types t = none →
      Aborts Γ b (c :: cs)
  | userParam {b : TypeBase ι κ} {t name argType : String} {idx : Option ι} {c : Comp ι κ}
      {cs : List (Comp ι κ)} {decl : TypeDecl} : b.type = some t → Γ.types t = some decl →
      c.toName = some (name, idx) → decl.fields name = none → decl.args name = some argType →
      (Γ.types argType).isSome → Aborts Γ b (c :: cs)
  | there {b b' : TypeBase ι κ} {c : Comp ι κ} {cs : List (Comp ι κ)} : Follows Γ b c b' →
      Aborts Γ b' cs → Aborts Γ b (c :: cs)

namespace Place

/-- The components a place is away from the thunk. -/
def depth : Place ι κ → ℕ
  | thunk => 0
  | var _ | fcall _ | base _ => 1
  | field of _ _ | param of _ => of.depth + 1

/-- The place `n` components before. -/
def back : ℕ → Place ι κ → Place ι κ
  | n + 1, field of _ _ => back n of
  | n + 1, param of _ => back n of
  | _, p => p

end Place

/-- The top that a path from `b` has led to is not where the path leads. -/
def Astray (b : TypeBase ι κ) (cs : List (Comp ι κ)) (top : TypeBase ι κ) : Prop :=
  top.place.depth < b.place.depth + cs.length ∨
    ∃ cs' name idx of, cs = cs' ++ [.idArray name idx] ∧ top.place = .param of name

variable {Γ : Ctx κ} {b b' top : TypeBase ι κ} {c : Comp ι κ} {cs : List (Comp ι κ)}

theorem Comp.eq_id_of_toName {name : String} (h : c.toName = some (name, none)) : c = .id name := by
  cases c <;> simp only [toName, Option.some.injEq, Prod.mk.injEq, reduceCtorEq, and_false] at h
  rw [h.1]

theorem Comp.eq_idArray_of_toName {name : String} {idx : ι} (h : c.toName = some (name, some idx)) :
    c = .idArray name idx := by
  cases c <;> simp only [toName, Option.some.injEq, Prod.mk.injEq, reduceCtorEq, and_false] at h
  rw [h.1, h.2]

theorem Follows.depth (h : Follows Γ b c b') : b'.place.depth = b.place.depth + 1 := by
  cases h <;> rfl

theorem Follows.run (h : Follows Γ b c b') : ∃ t name idx, b.type = some t ∧
    c.toName = some (name, idx) ∧ Γ.followIdIdx b t name idx = .ok (some b') := by
  cases h with
  | field ht hdecl hc hf hidx =>
    refine ⟨_, _, _, ht, hc, ?_⟩
    simp only [Ctx.followIdIdx, hdecl, hf, Ctx.setNewOffsets, if_pos hidx]
  | param ht hdecl hf harg hnone =>
    refine ⟨_, _, none, ht, rfl, ?_⟩
    simp only [Ctx.followIdIdx, hdecl, hf, harg, hnone, Option.isSome_none, Bool.false_eq_true,
      if_false]

/-- A component that follows is pushed. -/
theorem Follows.resolveTail (h : Follows Γ b c b') (below : List (TypeBase ι κ)) :
    Γ.resolveTail b below (c :: cs) = Γ.resolveTail b' (b :: below) cs := by
  obtain ⟨t, name, idx, ht, hc, hrun⟩ := h.run
  simp only [Ctx.resolveTail, ht, hc, hrun]

theorem Leads.run (h : Leads Γ b cs b') (below : List (TypeBase ι κ)) :
    ∃ below', Γ.resolveTail b below cs = .ok (some ⟨b', below'⟩) := by
  induction h generalizing below with
  | nil b => exact ⟨below, rfl⟩
  | cons hf _ ih =>
    rw [hf.resolveTail]
    exact ih _

theorem Unnamed.run (h : Unnamed Γ b cs) (below : List (TypeBase ι κ)) :
    Γ.resolveTail b below cs = .ok none := by
  induction h generalizing below with
  | here ht hc => simp only [Ctx.resolveTail, ht, hc]
  | there hf _ ih =>
    rw [hf.resolveTail]
    exact ih _

theorem Aborts.run (h : Aborts Γ b cs) (below : List (TypeBase ι κ)) :
    ∃ e, Γ.resolveTail b below cs = .error e := by
  induction h generalizing below with
  | noTable ht hc htable =>
    refine ⟨.fault, ?_⟩
    simp only [Ctx.resolveTail, ht, hc, Ctx.followIdIdx, htable]
  | userParam ht hdecl hc hf harg huser =>
    refine ⟨.assertion, ?_⟩
    simp only [Ctx.resolveTail, ht, hc, Ctx.followIdIdx, hdecl, hf, harg, huser, if_true]
  | there hf _ ih =>
    rw [hf.resolveTail]
    exact ih _

theorem Astray.cons (hf : Follows Γ b c b') (h : Astray b' cs top) : Astray b (c :: cs) top := by
  rcases h with hlt | ⟨cs', name, idx, p, rfl, hp⟩
  · rw [hf.depth] at hlt
    refine Or.inl ?_
    rw [List.length_cons]
    omega
  · exact Or.inr ⟨c :: cs', name, idx, p, rfl, hp⟩

/-- Where nothing follows, the path so far is returned. -/
theorem astray_here (b : TypeBase ι κ) (c : Comp ι κ) (cs : List (Comp ι κ)) :
    Astray b (c :: cs) b := by
  refine Or.inl ?_
  rw [List.length_cons]
  omega

/-- A path leads to the last component, or `resolveTail` returns `NULL`, ends the compiler or returns
the wrong top. -/
theorem resolveTail_cases (Γ : Ctx κ) (b : TypeBase ι κ) (cs : List (Comp ι κ)) :
    (∃ b', Leads Γ b cs b') ∨ Unnamed Γ b cs ∨ Aborts Γ b cs ∨
      ∀ below, ∃ ts, Γ.resolveTail b below cs = .ok (some ts) ∧ Astray b cs ts.top := by
  induction cs generalizing b with
  | nil => exact Or.inl ⟨b, .nil b⟩
  | cons c cs ih =>
    have hnext : ∀ {b'}, Follows Γ b c b' → (∃ b', Leads Γ b (c :: cs) b') ∨
        Unnamed Γ b (c :: cs) ∨ Aborts Γ b (c :: cs) ∨
        ∀ below, ∃ ts, Γ.resolveTail b below (c :: cs) = .ok (some ts) ∧
          Astray b (c :: cs) ts.top := by
      intro b' hf
      rcases ih b' with ⟨b'', hl⟩ | hu | ha | hs
      · exact Or.inl ⟨b'', .cons hf hl⟩
      · exact Or.inr (Or.inl (.there hf hu))
      · exact Or.inr (Or.inr (Or.inl (.there hf ha)))
      · refine Or.inr (Or.inr (Or.inr fun below => ?_))
        obtain ⟨ts, hrun, hstray⟩ := hs (b :: below)
        exact ⟨ts, (hf.resolveTail below).trans hrun, hstray.cons hf⟩
    have hstop : (∀ below, Γ.resolveTail b below (c :: cs) = .ok (some ⟨b, below⟩)) →
        (∃ b', Leads Γ b (c :: cs) b') ∨ Unnamed Γ b (c :: cs) ∨ Aborts Γ b (c :: cs) ∨
        ∀ below, ∃ ts, Γ.resolveTail b below (c :: cs) = .ok (some ts) ∧
          Astray b (c :: cs) ts.top :=
      fun hrun => Or.inr (Or.inr (Or.inr fun below => ⟨_, hrun below, astray_here b c cs⟩))
    cases ht : b.type with
    | none =>
      refine hstop fun below => ?_
      simp only [Ctx.resolveTail, ht]
    | some t =>
      cases hc : c.toName with
      | none => exact Or.inr (Or.inl (.here ht hc))
      | some x =>
        obtain ⟨name, idx⟩ := x
        cases hdecl : Γ.types t with
        | none => exact Or.inr (Or.inr (Or.inl (.noTable ht hc hdecl)))
        | some decl =>
          cases hf : decl.fields name with
          | some f =>
            by_cases hidx : f.array = idx.isSome
            · exact hnext (.field ht hdecl hc hf hidx)
            · refine hstop fun below => ?_
              simp only [Ctx.resolveTail, ht, hc, Ctx.followIdIdx, hdecl, hf, Ctx.setNewOffsets,
                if_neg hidx]
          | none =>
            cases harg : decl.args name with
            | none =>
              refine hstop fun below => ?_
              simp only [Ctx.resolveTail, ht, hc, Ctx.followIdIdx, hdecl, hf, harg]
            | some argType =>
              cases huser : Γ.types argType with
              | some _ =>
                exact Or.inr (Or.inr (Or.inl (.userParam ht hdecl hc hf harg (by rw [huser]; rfl))))
              | none =>
                cases idx with
                | none =>
                  obtain rfl := Comp.eq_id_of_toName hc
                  exact hnext (.param ht hdecl hf harg huser)
                | some i =>
                  -- the index of a parameter is dropped
                  obtain rfl := Comp.eq_idArray_of_toName hc
                  refine Or.inr (Or.inr (Or.inr fun below =>
                    ⟨⟨⟨none, .param b.place name, true⟩, b :: below⟩, ?_, ?_⟩))
                  · simp only [Ctx.resolveTail, ht, hc, Ctx.followIdIdx, hdecl, hf, harg, huser,
                      Option.isSome_none, Bool.false_eq_true, if_false]
                    cases cs <;> rfl
                  · cases cs with
                    | nil => exact Or.inr ⟨[], name, i, b.place, rfl, rfl⟩
                    | cons c' cs =>
                      refine Or.inl ?_
                      simp only [Place.depth, List.length_cons]
                      omega

/-! ## The heads that are tried -/

namespace Ctx

/-- The head for a variable. Its index is dropped. -/
def varHeads (name : String) (vs : Option (String → Option String)) : List (TypeBase ι κ) :=
  ((vs.bind fun vars => vars name).map fun t => ⟨some t, .var name, false⟩).toList

/-- The head for a field of the type. Where the index does not fit the field, it is the type itself. -/
def fieldHeads (Γ : Ctx κ) (name : String) (idx : Option ι) : List (TypeBase ι κ) :=
  ((Γ.scope.curScope.bind fun decl => decl.fields name).map fun f =>
    ⟨f.type, if f.array = idx.isSome then .field .thunk name idx else .thunk, false⟩).toList

def diskHeads (Γ : Ctx κ) (name : String) : List (TypeBase ι κ) :=
  if (Γ.types "disk").isSome ∧ name = "disk" then [⟨some "disk", .base "disk", false⟩] else []

def fcallHeads (Γ : Ctx κ) (name : String) (call : κ) : List (TypeBase ι κ) :=
  match Γ.funcs name with
  | none => []
  | some t =>
    if (Γ.types t).isSome ∧ Γ.evals call = true then [⟨some t, .fcall call, false⟩] else []

/-- The heads of the paths that begin with a component, in the order of `resolveTypeStack`. -/
def heads (Γ : Ctx κ) : Comp ι κ → List (TypeBase ι κ)
  | .id name => varHeads name Γ.scope.builderVars ++ varHeads name Γ.scope.curVscope ++
      Γ.fieldHeads name none ++ varHeads name Γ.scope.curFunc ++ Γ.diskHeads name
  | .idArray name idx => varHeads name Γ.scope.builderVars ++ varHeads name Γ.scope.curVscope ++
      Γ.fieldHeads name (some idx)
  | .fcall name call => Γ.fcallHeads name call
  | .other => []

/-- The first head that has a stack. -/
def tryHeads (Γ : Ctx κ) (cs : List (Comp ι κ)) (last : Except Stop (Option (Stack ι κ))) :
    List (TypeBase ι κ) → Except Stop (Option (Stack ι κ))
  | [] => last
  | H :: Hs =>
    match Γ.resolveTail H [] cs with
    | .error e => .error e
    | .ok ts => orElse ts (tryHeads Γ cs last Hs)

end Ctx

/-- The component names a type other than `disk`. -/
def OtherType (Γ : Ctx κ) (c : Comp ι κ) : Prop :=
  ∃ name, c = .id name ∧ (Γ.types name).isSome ∧ name ≠ "disk"

/-- What becomes of a component without a head. -/
def Ctx.last (Γ : Ctx κ) : Comp ι κ → Except Stop (Option (Stack ι κ))
  | .id name => if (Γ.types name).isSome ∧ name ≠ "disk" then .error .assertion else .ok none
  | _ => .ok none

/-- The first head from which the path comes to no unnamed component is what the first component
denotes, and the path leads from it to the last one; or all come to one, and the first component is no
other type. -/
def Straight (Γ : Ctx κ) (c : Comp ι κ) (cs : List (Comp ι κ)) : List (TypeBase ι κ) → Prop
  | [] => ¬ OtherType Γ c
  | H :: Hs => (HeadOf Γ c H ∧ ∃ b, Leads Γ H cs b) ∨ (Unnamed Γ H cs ∧ Straight Γ c cs Hs)

namespace Ctx

variable (Γ : Ctx κ) (cs : List (Comp ι κ)) (last : Except Stop (Option (Stack ι κ)))

theorem tryHeads_append (Hs Hs' : List (TypeBase ι κ)) :
    Γ.tryHeads cs last (Hs ++ Hs') = Γ.tryHeads cs (Γ.tryHeads cs last Hs') Hs := by
  induction Hs with
  | nil => rfl
  | cons H Hs ih =>
    rw [List.cons_append, tryHeads, tryHeads, ih]

/-- What is tried next is tried after the last head. -/
theorem tryHeads_orElse (Hs : List (TypeBase ι κ)) :
    (do let ts ← Γ.tryHeads cs (.ok none) Hs
        orElse ts last) = Γ.tryHeads cs last Hs := by
  induction Hs with
  | nil => rfl
  | cons H Hs ih =>
    rw [tryHeads, tryHeads, ← ih]
    cases Γ.resolveTail H [] cs with
    | error e => rfl
    | ok ts => cases ts <;> rfl

theorem tryHeads_singleton (H : TypeBase ι κ) :
    Γ.tryHeads cs (.ok none) [H] = Γ.resolveTail H [] cs := by
  rw [tryHeads, tryHeads]
  cases Γ.resolveTail H [] cs with
  | error e => rfl
  | ok ts => cases ts <;> rfl

theorem resolveIdStructVarScope_eq (name : String) (vs : Option (String → Option String)) :
    Γ.resolveIdStructVarScope name cs vs = Γ.tryHeads cs (.ok none) (varHeads name vs) := by
  unfold resolveIdStructVarScope varHeads
  cases vs.bind fun vars => vars name with
  | none => rfl
  | some t => exact (Γ.tryHeads_singleton cs _).symm

theorem resolveIdStructCurScope_eq (name : String) (idx : Option ι) :
    Γ.resolveIdStructCurScope name idx cs = Γ.tryHeads cs (.ok none) (Γ.fieldHeads name idx) := by
  unfold resolveIdStructCurScope fieldHeads
  cases Γ.scope.curScope.bind fun decl => decl.fields name with
  | none => rfl
  | some f =>
    refine Eq.trans ?_ (Γ.tryHeads_singleton cs _).symm
    by_cases hidx : f.array = idx.isSome
    · simp only [setNewOffsets, if_pos hidx, Option.getD_some]
    · simp only [setNewOffsets, if_neg hidx, Option.getD_none]

theorem resolveIdStructFHead_eq (name : String) (call : κ) :
    Γ.resolveIdStructFHead name call cs = Γ.tryHeads cs (.ok none) (Γ.fcallHeads name call) := by
  unfold resolveIdStructFHead fcallHeads
  cases Γ.funcs name with
  | none => rfl
  | some t =>
    by_cases h : (Γ.types t).isSome ∧ Γ.evals call = true
    · simp only [if_pos h]
      exact (Γ.tryHeads_singleton cs _).symm
    · simp only [if_neg h]
      rfl

theorem resolveGlobal_eq (name : String) :
    Γ.resolveGlobal name cs = Γ.tryHeads cs (Γ.last (.id name : Comp ι κ)) (Γ.diskHeads name) := by
  unfold resolveGlobal diskHeads Ctx.last
  by_cases hname : name = "disk"
  · subst hname
    by_cases ht : (Γ.types "disk").isSome
    · simp only [ht, ne_eq, not_true_eq_false, and_false, and_self, if_true, if_false]
      exact (Γ.tryHeads_singleton cs _).symm
    · simp [ht, tryHeads]
  · by_cases ht : (Γ.types name).isSome <;> simp [hname, ht, tryHeads]

/-- There is one kind of scope, so that no stack is replaced by another. -/
theorem resolveVars_eq (name : String) :
    (do let ts ← (if Γ.scope.curScope.isSome then
          Γ.resolveIdStructVarScope name cs Γ.scope.builderVars else .ok none)
        if Γ.scope.curVscope.isSome then
          Γ.resolveIdStructVarScope name cs Γ.scope.curVscope else .ok ts) =
      Γ.tryHeads cs (.ok none) (varHeads name Γ.scope.builderVars ++
        varHeads name Γ.scope.curVscope) := by
  simp only [resolveIdStructVarScope_eq]
  cases Γ.scope with
  | type decl bv => exact (bind_pure _).trans (congrArg _ (List.append_nil _).symm)
  | vars vscope => rfl
  | func args blkVars => rfl

/-- `resolveTypeStack` tries the heads one after another. -/
theorem resolveTypeStack_eq (c : Comp ι κ) :
    Γ.resolveTypeStack c cs = Γ.tryHeads cs (Γ.last c) (Γ.heads c) := by
  cases c with
  | fcall name call => exact Γ.resolveIdStructFHead_eq cs name call
  | other => rfl
  | id name =>
    simp only [resolveTypeStack, Comp.toName, ← bind_assoc, resolveVars_eq]
    simp only [resolveIdStructVarScope_eq, resolveIdStructCurScope_eq, resolveGlobal_eq,
      Option.isSome_none, Bool.false_eq_true, and_false, if_false, ← bind_assoc, tryHeads_orElse,
      ← tryHeads_append]
    rfl
  | idArray name i =>
    have hskip : ∀ ts : Option (Stack ι κ), (if ts.isNone ∧ (some i).isSome then .ok none else do
        let ts ← orElse ts (Γ.resolveIdStructVarScope name cs Γ.scope.curFunc)
        orElse ts (Γ.resolveGlobal name cs)) = (.ok ts : Except Stop (Option (Stack ι κ))) :=
      fun ts => by cases ts <;> rfl
    simp only [resolveTypeStack, Comp.toName, ← bind_assoc, resolveVars_eq, hskip]
    simp only [resolveIdStructCurScope_eq, tryHeads_orElse, ← tryHeads_append]
    exact bind_pure _

end Ctx

/-! ## When the result is complete -/

theorem Place.back_succ (n : ℕ) (p : Place ι κ) : p.back (n + 1) = (p.back n).back 1 := by
  induction n generalizing p with
  | zero => cases p <;> rfl
  | succ n ih =>
    cases p with
    | field of name idx => exact ih of
    | param of name => exact ih of
    | thunk | var _ | fcall _ | base _ => rfl

theorem Follows.back (h : Follows Γ b c b') : b'.place.back 1 = b.place := by
  cases h <;> rfl

theorem Leads.back (h : Leads Γ b cs b') : b'.place.back cs.length = b.place := by
  induction h with
  | nil b => cases b.place <;> rfl
  | cons hf _ ih => rw [List.length_cons, Place.back_succ, ih, hf.back]

theorem Leads.depth (h : Leads Γ b cs b') : b'.place.depth = b.place.depth + cs.length := by
  induction h with
  | nil b => rfl
  | cons hf _ ih =>
    rw [ih, hf.depth, List.length_cons]
    omega

/-- The last component of a path that leads there is followed last. -/
theorem Leads.last {cs' : List (Comp ι κ)} (h : Leads Γ b cs b') (hcs : cs = cs' ++ [c]) :
    ∃ b₁, Follows Γ b₁ c b' := by
  induction h generalizing cs' with
  | nil b => exact absurd hcs (List.append_ne_nil_of_right_ne_nil _ (List.cons_ne_nil _ _)).symm
  | cons hf hl ih =>
    cases cs' with
    | nil =>
      obtain ⟨rfl, rfl⟩ := List.cons.inj hcs
      cases hl
      exact ⟨_, hf⟩
    | cons c' cs' => exact ih (List.cons.inj hcs).2

theorem HeadOf.depth (h : HeadOf Γ c b) : b.place.depth = 1 := by
  cases h <;> rfl

/-- Where a path leads is not where it goes astray, from whichever head. -/
theorem Leads.not_astray (hh : HeadOf Γ c b') (hl : Leads Γ b' cs top) (hb : b.place.depth ≤ 1) :
    ¬ Astray b cs top := by
  rintro (hlt | ⟨cs', name, idx, of, hcs, hof⟩)
  · rw [hl.depth, hh.depth] at hlt
    omega
  · obtain ⟨b₁, hf⟩ := hl.last hcs
    cases hf with
    | field _ _ _ _ _ => exact absurd hof nofun

namespace Ctx

theorem mem_varHeads {name : String} {vs : Option (String → Option String)} {H : TypeBase ι κ} :
    H ∈ varHeads name vs ↔
      ∃ vars t, vs = some vars ∧ vars name = some t ∧ H = ⟨some t, .var name, false⟩ := by
  simp only [varHeads, Option.mem_toList, Option.map_eq_some_iff, Option.bind_eq_some_iff]
  constructor
  · rintro ⟨t, ⟨vars, hvs, ht⟩, rfl⟩
    exact ⟨vars, t, hvs, ht, rfl⟩
  · rintro ⟨vars, t, hvs, ht, rfl⟩
    exact ⟨t, ⟨vars, hvs, ht⟩, rfl⟩

theorem mem_fieldHeads {name : String} {idx : Option ι} {H : TypeBase ι κ}
    (hc : c.toName = some (name, idx)) (h : H ∈ Γ.fieldHeads name idx) :
    HeadOf Γ c H ∨ H.place = .thunk := by
  simp only [fieldHeads, Option.mem_toList, Option.map_eq_some_iff, Option.bind_eq_some_iff] at h
  obtain ⟨f, ⟨decl, hdecl, hf⟩, rfl⟩ := h
  by_cases hidx : f.array = idx.isSome
  · simp only [if_pos hidx]
    exact Or.inl (.field hc hdecl hf hidx)
  · exact Or.inr (if_neg hidx)

end Ctx

/-- The heads that are tried: besides what the first component denotes, a variable with an index and
the type itself. -/
theorem Ctx.mem_heads {H : TypeBase ι κ} (h : H ∈ Γ.heads c) : HeadOf Γ c H ∨
    (∃ name i, c = .idArray name i ∧ H.place = .var name) ∨ H.place = .thunk := by
  cases c with
  | other => exact absurd h List.not_mem_nil
  | fcall name call =>
    simp only [heads, fcallHeads] at h
    cases hf : Γ.funcs name with
    | none => simp [hf] at h
    | some t =>
      simp only [hf] at h
      by_cases ht : (Γ.types t).isSome ∧ Γ.evals call = true
      · rw [if_pos ht, List.mem_singleton] at h
        rw [h]
        exact Or.inl (.fcall hf ht.1 ht.2)
      · rw [if_neg ht] at h
        exact absurd h List.not_mem_nil
  | id name =>
    simp only [heads, List.mem_append, mem_varHeads] at h
    rcases h with (((⟨vars, t, hvs, ht, rfl⟩ | ⟨vars, t, hvs, ht, rfl⟩) | h) |
      ⟨vars, t, hvs, ht, rfl⟩) | h
    · exact Or.inl (.var (Or.inl hvs) ht)
    · exact Or.inl (.var (Or.inr (Or.inl hvs)) ht)
    · rcases mem_fieldHeads (c := .id name) rfl h with h | h
      · exact Or.inl h
      · exact Or.inr (Or.inr h)
    · exact Or.inl (.var (Or.inr (Or.inr hvs)) ht)
    · unfold diskHeads at h
      by_cases hd : (Γ.types "disk").isSome ∧ name = "disk"
      · obtain ⟨ht, rfl⟩ := hd
        rw [if_pos ⟨ht, rfl⟩, List.mem_singleton] at h
        rw [h]
        exact Or.inl (.disk ht)
      · rw [if_neg hd] at h
        exact absurd h List.not_mem_nil
  | idArray name i =>
    simp only [heads, List.mem_append, mem_varHeads] at h
    rcases h with (⟨vars, t, hvs, ht, rfl⟩ | ⟨vars, t, hvs, ht, rfl⟩) | h
    · exact Or.inr (Or.inl ⟨name, i, rfl, rfl⟩)
    · exact Or.inr (Or.inl ⟨name, i, rfl, rfl⟩)
    · rcases mem_fieldHeads (c := .idArray name i) rfl h with h | h
      · exact Or.inl h
      · exact Or.inr (Or.inr h)

/-- A head from which the path leads to where it leads from what the first component denotes is what
that denotes. -/
theorem Ctx.headOf_of_mem {H h : TypeBase ι κ} (hmem : H ∈ Γ.heads c) (hplace : H.place = h.place)
    (hh : HeadOf Γ c h) : HeadOf Γ c H := by
  rcases mem_heads hmem with hH | ⟨name, i, rfl, hv⟩ | ht
  · exact hH
  · rw [hv] at hplace
    cases hh with
    | field _ _ _ _ => exact absurd hplace nofun
  · rw [ht] at hplace
    cases hh <;> exact absurd hplace nofun

theorem Ctx.depth_le_of_mem {H : TypeBase ι κ} (hmem : H ∈ Γ.heads c) : H.place.depth ≤ 1 := by
  rcases mem_heads hmem with hH | ⟨name, i, rfl, hv⟩ | ht
  · exact hH.depth.le
  · rw [hv]
    exact le_rfl
  · rw [ht]
    exact Nat.zero_le 1

theorem whole_last_iff : Whole Γ c cs (Γ.last c) ↔ ¬ OtherType Γ c := by
  cases c with
  | id name =>
    unfold Ctx.last
    by_cases h : (Γ.types name).isSome ∧ name ≠ "disk"
    · simp only [if_pos h]
      refine iff_of_false ?_ (not_not_intro ⟨name, rfl, h⟩)
      rintro (hn | ⟨ts, h', hn, -⟩) <;> exact absurd hn nofun
    · simp only [if_neg h]
      refine iff_of_true (Or.inl rfl) ?_
      rintro ⟨name', hname, h'⟩
      obtain rfl := Comp.id.inj hname
      exact h h'
  | idArray _ _ | fcall _ _ | other => exact iff_of_true (Or.inl rfl) fun ⟨_, hname, _⟩ => nomatch hname

/-- One head after another: a stack of this head is complete if the head is what the first component
denotes and the path leads on to the end. -/
theorem whole_tryHeads_iff {Hs : List (TypeBase ι κ)} (hmem : ∀ H ∈ Hs, H ∈ Γ.heads c) :
    Whole Γ c cs (Γ.tryHeads cs (Γ.last c) Hs) ↔ Straight Γ c cs Hs := by
  induction Hs with
  | nil => exact whole_last_iff
  | cons H Hs ih =>
    have hH := hmem H List.mem_cons_self
    replace ih := ih fun H' h => hmem H' (List.mem_cons_of_mem _ h)
    rw [Ctx.tryHeads, Straight]
    rcases resolveTail_cases Γ H cs with ⟨b, hl⟩ | hu | ha | hs
    · obtain ⟨below, hrun⟩ := hl.run []
      rw [hrun]
      constructor
      · rintro (hn | ⟨ts, h, hts, hh, hl'⟩)
        · exact absurd hn nofun
        · obtain rfl := Option.some.inj (Except.ok.inj hts)
          have hplace : H.place = h.place := hl.back.symm.trans hl'.back
          exact Or.inl ⟨Ctx.headOf_of_mem hH hplace hh, b, hl⟩
      · rintro (⟨hh, -⟩ | ⟨hu, -⟩)
        · exact Or.inr ⟨_, H, rfl, hh, hl⟩
        · exact absurd ((hu.run []).symm.trans hrun) nofun
    · rw [hu.run []]
      refine ih.trans ⟨fun h => Or.inr ⟨hu, h⟩, ?_⟩
      rintro (⟨-, b, hl⟩ | ⟨-, h⟩)
      · obtain ⟨below, hrun⟩ := hl.run []
        exact absurd ((hu.run []).symm.trans hrun) nofun
      · exact h
    · obtain ⟨e, hrun⟩ := ha.run []
      rw [hrun]
      refine iff_of_false ?_ ?_
      · rintro (hn | ⟨ts, h, hn, -⟩) <;> exact absurd hn nofun
      · rintro (⟨-, b, hl⟩ | ⟨hu, -⟩)
        · obtain ⟨below, hrun'⟩ := hl.run []
          exact absurd (hrun.symm.trans hrun') nofun
        · exact absurd (hrun.symm.trans (hu.run [])) nofun
    · obtain ⟨ts, hrun, hstray⟩ := hs []
      rw [hrun]
      refine iff_of_false ?_ ?_
      · rintro (hn | ⟨ts', h, hts, hh, hl⟩)
        · exact absurd hn nofun
        · obtain rfl := Option.some.inj (Except.ok.inj hts)
          exact hl.not_astray hh (Ctx.depth_le_of_mem hH) hstray
      · rintro (⟨hh, b, hl⟩ | ⟨hu, -⟩)
        · obtain ⟨below, hrun'⟩ := hl.run []
          obtain rfl := Option.some.inj (Except.ok.inj (hrun.symm.trans hrun'))
          exact hl.not_astray hh (Ctx.depth_le_of_mem hH) hstray
        · exact absurd (hrun.symm.trans (hu.run [])) nofun

/-- A path resolves completely or not at all exactly if it goes straight from the head that is taken. -/
theorem complete_iff_straight (Γ : Ctx κ) (c : Comp ι κ) (cs : List (Comp ι κ)) :
    Complete Γ c cs ↔ Straight Γ c cs (Γ.heads c) := by
  unfold Complete
  rw [Γ.resolveTypeStack_eq]
  exact whole_tryHeads_iff fun _ h => h

/-! ## A field that is not there -/

/-- `disk` has a header `hdr`, with a scalar `magic`. -/
def sampleTypes : String → Option TypeDecl
  | "disk" => some ⟨fun name => if name = "hdr" then some ⟨some "hdr_t", false⟩ else none, fun _ => none⟩
  | "hdr_t" => some ⟨fun name => if name = "magic" then some ⟨none, false⟩ else none, fun _ => none⟩
  | _ => none

/-- A function without variables. -/
def sample : Ctx Unit where
  scope := .func (fun _ => none) fun _ => none
  types := sampleTypes
  funcs _ := none
  evals _ := false

/-- `disk.hdr.magik` resolves to the stack of `disk.hdr`. -/
theorem not_complete_sample :
    ¬ Complete sample (.id "disk" : Comp Unit Unit) [.id "hdr", .id "magik"] := by
  have hrun : sample.resolveTypeStack (.id "disk" : Comp Unit Unit) [.id "hdr", .id "magik"] =
      .ok (some ⟨⟨some "hdr_t", .field (.base "disk") "hdr" none, false⟩,
        [⟨some "disk", .base "disk", false⟩]⟩) := by
    rfl
  rintro (hn | ⟨ts, h, hts, hh, hl⟩)
  · exact absurd (hrun.symm.trans hn) nofun
  · obtain rfl := Option.some.inj (Except.ok.inj (hrun.symm.trans hts))
    have hdepth := hl.depth
    rw [hh.depth] at hdepth
    exact absurd hdepth (by decide)

end Fsl.TypeStack
