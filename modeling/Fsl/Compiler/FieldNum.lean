import Fsl.Compiler.LayoutBuild

/-!
# Field numbers

A `ThunkField` takes the next number when it is built, the symbol table takes an entry only under a
new name, and the functions of a field are registered under names made from its own. In the tables an
entry carries the number of its field, and `__computeArrayBits` is asked for a field by that number.
-/

namespace Fsl.Layout

/-- `func_prefix` -/
def LayoutFn.funcPrefix : LayoutFn → String
  | setBits => "set_bits"
  | setBytes => "set_bytes"
  | skipBits => "skip_bits"
  | skipBytes => "skip_bytes"
  | alignBits => "align_bits"
  | alignBytes => "align_bytes"
  | padPhysBytes => "padphys_bytes"

/-- `ThunkBuilderFunc::getFuncName` -/
def LayoutFn.funcName (f : LayoutFn) (count : ℕ) : String :=
  "__" ++ f.funcPrefix ++ "_" ++ toString count

/-- The name of the field that `rebaseByCond` leaves. -/
def rebaseName (type : String) (count : ℕ) : String := "__rebase_" ++ type ++ "_" ++ toString count

/-- A `ThunkField` that was built: its place among them, its name and its `field_num`, which is `none`
for `TF_FIELDNUM_NONE`. -/
structure Made where
  id : ℕ
  name : String
  num : Option ℕ
  deriving DecidableEq, Repr

/-- The builder with the fields it has built, `num_fields` of the thunk type, the entries of the symbol
table, the last field, and the fields on which `copyNextOffset` was called: whatever comes next is
placed with the functions of that field. -/
structure Numbering where
  builder : Builder
  made : List Made
  numFields : ℕ
  symtab : List Made
  last : Made
  asked : List Made

namespace Numbering

/-- The numbering at the beginning of a block. -/
def init (numArgs : ℕ) : Numbering :=
  ⟨.init numArgs, [⟨0, "__base", none⟩], 0, [], ⟨0, "__base", none⟩, []⟩

/-- `ThunkField::copyNextOffset` -/
def ask (n : Numbering) (m : Made) : Numbering := { n with asked := n.asked ++ [m] }

/-- `ThunkField::ThunkField` with `incNumFields`. -/
def newField (n : Numbering) (name : String) : Made := ⟨n.made.length, name, some n.numFields⟩

/-- `SymTabThunkBuilder::addToCurrentSymTab` of a new field; `SymbolTable::add` looks for the name. -/
def declare (n : Numbering) (name : String) : Numbering :=
  { n with
    made := n.made ++ [n.newField name]
    numFields := n.numFields + 1
    symtab := if name ∈ n.symtab.map Made.name then n.symtab else n.symtab ++ [n.newField name]
    last := n.newField name }

/-- `ThunkField::createInvisible` -/
def invisible (n : Numbering) (name : String) : Numbering :=
  { n with
    made := n.made ++ [⟨n.made.length, name, none⟩]
    last := ⟨n.made.length, name, none⟩ }

/-- The members of a union, which are all placed at its beginning. -/
def addMembers (n : Numbering) (members : List Decl) : Numbering :=
  members.foldl (fun n d => n.declare d.name) n

section Visit

variable (toPhys : Disk → UInt64 → Option UInt64) (type : String)

/-- The numbering after a statement of a type, along with the builder. -/
def visit : Stmt → Numbering → Option Numbering
  | .skip, n => some n
  | .seq a b, n => (visit a n).bind (visit b)
  | .decl d, n =>
    some { (n.ask n.last).declare d.name with builder := n.builder.addToCurrentSymTab d }
  | .func f args, n =>
    (n.builder.applyFn toPhys f args).map fun b =>
      { (n.ask n.last).invisible (f.funcName n.builder.count) with builder := b }
  | .ifThen c t, n => do
    let n₁ ← visit t { n.ask n.last with
      builder := { n.builder with conds := n.builder.conds ++ [c] } }
    some { (n₁.ask n₁.last).invisible (rebaseName type n₁.builder.count) with
      builder := { n₁.builder with conds := n.builder.conds }.rebaseByCond c
        n₁.builder.copyCurrentOffset n.builder.copyCurrentOffset }
  | .ifElse c t e, n => do
    let n₁ ← visit t { n.ask n.last with
      builder := { n.builder with conds := n.builder.conds ++ [c] } }
    let n₂ ← visit e { n₁ with
      last := n.last
      builder := { n₁.builder with
        conds := n.builder.conds ++ [.not c]
        last := n.builder.last } }
    some { ((n₂.ask n₁.last).ask n₂.last).invisible (rebaseName type n₂.builder.count) with
      builder := { n₂.builder with conds := n.builder.conds }.rebaseByCond c
        n₁.builder.copyCurrentOffset n₂.builder.copyCurrentOffset }
  | .union name members array, n =>
    (n.builder.addUnion name members array).map fun b =>
      { ((n.ask n.last).addMembers members).declare name with builder := b }

/-- `SymTabThunkBuilder::getSymTab`; the size of the type ends behind the last field. -/
def getSymTab (numArgs : ℕ) (block : Stmt) : Option Numbering :=
  (visit toPhys type block (.init numArgs)).map fun n => n.ask n.last

end Visit

/-- The field that `__computeArrayBits` finds in `tt_field_table`, whose entries are those of the symbol
table. -/
def fieldAt (n : Numbering) (fieldIdx : ℕ) : Except Stop Made :=
  match n.symtab[fieldIdx]? with
  | none => .error .assertion
  | some m => if m.num = some fieldIdx then .ok m else .error .assertion

/-- The functions under the name of the field are its own: `registerFunc` keeps the first. -/
def Own (n : Numbering) (m : Made) : Prop := n.made.find? (fun m' => m'.name == m.name) = some m

/-- Each entry of the table has its index as number and is served by functions of its own; and where
something is placed behind a field, the functions called are those of that field, and it is found under
its number. -/
structure InStep (n : Numbering) : Prop where
  table : ∀ i m, n.symtab[i]? = some m → m.num = some i ∧ n.Own m
  asked : ∀ m ∈ n.asked, n.Own m ∧ ∀ i, m.num = some i → n.fieldAt i = .ok m

end Numbering

/-- The names of the fields that are built for a statement, the first of them as number `k`. -/
def thunkNames (type : String) : ℕ → Stmt → List String
  | _, .skip => []
  | k, .seq a b => thunkNames type k a ++ thunkNames type (k + (thunkNames type k a).length) b
  | _, .decl d => [d.name]
  | k, .func f _ => [f.funcName k]
  | k, .ifThen _ t =>
    thunkNames type k t ++ [rebaseName type (k + (thunkNames type k t).length)]
  | k, .ifElse _ t e =>
    let ns := thunkNames type k t ++ thunkNames type (k + (thunkNames type k t).length) e
    ns ++ [rebaseName type (k + ns.length)]
  | _, .union name members _ => members.map Decl.name ++ [name]

namespace Numbering

variable {toPhys : Disk → UInt64 → Option UInt64} {type : String}

/-! ## The builder -/

/-- The numbering goes along with the builder. -/
theorem map_builder_visit (st : Stmt) (n : Numbering) :
    (visit toPhys type st n).map builder = n.builder.visit toPhys st := by
  induction st generalizing n with
  | skip => rfl
  | seq a b iha ihb =>
    rw [visit, Builder.visit, ← iha, Option.map_bind, Option.bind_map]
    exact congrArg _ (funext ihb)
  | decl d => rfl
  | func f args =>
    rw [visit, Builder.visit, Option.map_map]
    exact Option.map_id'
  | ifThen c t iht =>
    have ih := iht { n.ask n.last with builder := { n.builder with conds := n.builder.conds ++ [c] } }
    simp only [visit, Builder.visit, ← ih]
    cases visit toPhys type t _ with
    | none => rfl
    | some n₁ => rfl
  | ifElse c t e iht ihe =>
    have ih := iht { n.ask n.last with builder := { n.builder with conds := n.builder.conds ++ [c] } }
    simp only [visit, Builder.visit, ← ih]
    cases visit toPhys type t _ with
    | none => rfl
    | some n₁ =>
      have ih' := ihe { n₁ with
        last := n.last
        builder := { n₁.builder with
          conds := n.builder.conds ++ [.not c]
          last := n.builder.last } }
      simp only [Option.map_some, Option.bind_eq_bind, Option.bind_some, ← ih']
      cases visit toPhys type e _ with
      | none => rfl
      | some n₂ => rfl
  | union name members array =>
    rw [visit, Builder.visit, Option.map_map]
    exact Option.map_id'

theorem visit_ifThen {c : Cond} {t : Stmt} {n n' : Numbering}
    (h : visit toPhys type (.ifThen c t) n = some n') : ∃ n₁ b,
      visit toPhys type t { n.ask n.last with
        builder := { n.builder with conds := n.builder.conds ++ [c] } } = some n₁ ∧
      b.count = n₁.builder.count + 1 ∧
      n' = { (n₁.ask n₁.last).invisible (rebaseName type n₁.builder.count) with builder := b } := by
  obtain ⟨n₁, h₁, h⟩ := Option.bind_eq_some_iff.mp h
  obtain ⟨k, -, heq⟩ := Builder.rebaseByCond_eq { n₁.builder with conds := n.builder.conds } c
    n₁.builder.copyCurrentOffset n.builder.copyCurrentOffset
  exact ⟨n₁, _, h₁, by rw [heq]; rfl, (Option.some.inj h).symm⟩

theorem visit_ifElse {c : Cond} {t e : Stmt} {n n' : Numbering}
    (h : visit toPhys type (.ifElse c t e) n = some n') : ∃ n₁ n₂ b₁ b,
      visit toPhys type t { n.ask n.last with
        builder := { n.builder with conds := n.builder.conds ++ [c] } } = some n₁ ∧
      b₁.count = n₁.builder.count ∧
      visit toPhys type e { n₁ with last := n.last, builder := b₁ } = some n₂ ∧
      b.count = n₂.builder.count + 1 ∧
      n' = { ((n₂.ask n₁.last).ask n₂.last).invisible (rebaseName type n₂.builder.count) with
        builder := b } := by
  obtain ⟨n₁, h₁, h⟩ := Option.bind_eq_some_iff.mp h
  obtain ⟨n₂, h₂, h⟩ := Option.bind_eq_some_iff.mp h
  obtain ⟨k, -, heq⟩ := Builder.rebaseByCond_eq { n₂.builder with conds := n.builder.conds } c
    n₁.builder.copyCurrentOffset n₂.builder.copyCurrentOffset
  exact ⟨n₁, n₂, { n₁.builder with conds := n.builder.conds ++ [.not c], last := n.builder.last }, _,
    h₁, rfl, h₂, by rw [heq]; rfl, (Option.some.inj h).symm⟩

/-! ## The names -/

theorem addMembers_names (n : Numbering) (members : List Decl) :
    (n.addMembers members).made.map Made.name = n.made.map Made.name ++ members.map Decl.name := by
  induction members generalizing n with
  | nil => exact (List.append_nil _).symm
  | cons d ds ih =>
    refine (ih (n.declare d.name)).trans ?_
    simp [declare, newField]

theorem count_addMembers {unionOff : Expr} {ds : List Decl} {s s' : Builder}
    (h : Builder.addMembers unionOff ds s = some s') : s'.count = s.count + ds.length := by
  induction ds generalizing s with
  | nil =>
    cases h
    rfl
  | cons d ds ih =>
    obtain ⟨-, -, h⟩ := Builder.addMembers_cons h
    rw [ih h, Builder.count_add, List.length_cons]
    omega

/-- The fields that a statement builds, by their names. -/
theorem names_visit {st : Stmt} {n n' : Numbering} (h : visit toPhys type st n = some n') :
    n'.made.map Made.name = n.made.map Made.name ++ thunkNames type n.builder.count st ∧
      n'.builder.count = n.builder.count + (thunkNames type n.builder.count st).length := by
  induction st generalizing n n' with
  | skip =>
    cases h
    exact ⟨(List.append_nil _).symm, rfl⟩
  | seq a b iha ihb =>
    obtain ⟨n₁, h₁, h₂⟩ := Option.bind_eq_some_iff.mp h
    obtain ⟨hnames₁, hcount₁⟩ := iha h₁
    obtain ⟨hnames₂, hcount₂⟩ := ihb h₂
    rw [hcount₁] at hnames₂ hcount₂
    refine ⟨?_, ?_⟩
    · rw [hnames₂, hnames₁, List.append_assoc, thunkNames]
    · rw [hcount₂, thunkNames, List.length_append, Nat.add_assoc]
  | decl d =>
    cases h
    exact ⟨List.map_append, rfl⟩
  | func f args =>
    obtain ⟨b, hb, rfl⟩ := Option.map_eq_some_iff.mp h
    obtain ⟨off, size, -, -, rfl⟩ := Builder.applyFn_eq_some hb
    exact ⟨List.map_append, rfl⟩
  | ifThen c t iht =>
    obtain ⟨n₁, b, h₁, hb, rfl⟩ := visit_ifThen h
    obtain ⟨hnames, hcount⟩ := iht h₁
    refine ⟨?_, ?_⟩
    · show List.map Made.name (n₁.made ++ _) = _
      rw [List.map_append, hnames, hcount, List.append_assoc]
      rfl
    · show b.count = _
      rw [hb, hcount, thunkNames, List.length_append]
      rfl
  | ifElse c t e iht ihe =>
    obtain ⟨n₁, n₂, b₁, b, h₁, hb₁, h₂, hb, rfl⟩ := visit_ifElse h
    obtain ⟨hnames₁, hcount₁⟩ := iht h₁
    obtain ⟨hnames₂, hcount₂⟩ := ihe h₂
    simp only [hb₁, hcount₁] at hnames₂ hcount₂
    refine ⟨?_, ?_⟩
    · show List.map Made.name (n₂.made ++ _) = _
      rw [List.map_append, hnames₂, hnames₁, hcount₂]
      simp only [thunkNames, List.append_assoc, List.length_append, Nat.add_assoc]
      rfl
    · show b.count = _
      rw [hb, hcount₂, thunkNames, List.length_append, List.length_append]
      simp only [List.length_cons, List.length_nil]
      omega
  | union name members array =>
    obtain ⟨b, hb, rfl⟩ := Option.map_eq_some_iff.mp h
    obtain ⟨s₁, u, h₁, -, -, rfl⟩ := Builder.addUnion_eq_some hb
    refine ⟨?_, ?_⟩
    · show List.map Made.name (((n.ask n.last).addMembers members).made ++ _) = _
      rw [List.map_append, addMembers_names, thunkNames, List.append_assoc]
      rfl
    · show s₁.count + 1 = _
      rw [count_addMembers h₁, thunkNames, List.length_append, List.length_map]
      rfl

/-! ## What is built, counted and entered -/

/-- The fields with a number. -/
def visible (n : Numbering) : List Made := n.made.filter fun m => m.num.isSome

/-- The fields are numbered as they are built, and the symbol table has those among them whose name
was new. -/
structure Wf (n : Numbering) : Prop where
  ids : n.made.map Made.id = List.range n.made.length
  nums : n.visible.map Made.num = (List.range n.numFields).map some
  entered : n.symtab.Sublist n.visible
  dropped : ∀ m ∈ n.visible, m ∈ n.symtab ∨ ∃ m' ∈ n.symtab, m'.name = m.name ∧ m'.id < m.id
  last : n.last ∈ n.made
  asked : ∀ m ∈ n.asked, m ∈ n.made

theorem wf_init (numArgs : ℕ) : Wf (.init numArgs) := by
  refine ⟨rfl, rfl, List.nil_sublist _, fun m h => absurd h List.not_mem_nil, ?_, ?_⟩
  · exact List.mem_singleton_self _
  · exact fun m h => absurd h List.not_mem_nil

theorem Wf.id_lt {n : Numbering} (h : n.Wf) {m : Made} (hm : m ∈ n.made) :
    m.id < n.made.length := by
  rw [← List.mem_range, ← h.ids]
  exact List.mem_map_of_mem hm

theorem Wf.ask {n : Numbering} (h : n.Wf) {m : Made} (hm : m ∈ n.made) : (n.ask m).Wf := by
  refine ⟨h.ids, h.nums, h.entered, h.dropped, h.last, fun m' hm' => ?_⟩
  rcases List.mem_append.mp hm' with hm' | hm'
  · exact h.asked m' hm'
  · rw [List.mem_singleton.mp hm']
    exact hm

theorem Wf.withBuilder {n : Numbering} (h : n.Wf) (b : Builder) : Wf { n with builder := b } :=
  ⟨h.ids, h.nums, h.entered, h.dropped, h.last, h.asked⟩

theorem Wf.withLast {n : Numbering} (h : n.Wf) {m : Made} (hm : m ∈ n.made) (b : Builder) :
    Wf { n with last := m, builder := b } :=
  ⟨h.ids, h.nums, h.entered, h.dropped, hm, h.asked⟩

theorem Wf.ids_append {n : Numbering} (h : n.Wf) {m : Made} (hm : m.id = n.made.length) :
    (n.made ++ [m]).map Made.id = List.range (n.made ++ [m]).length := by
  rw [List.map_append, h.ids, List.length_append, List.length_singleton, List.range_succ,
    List.map_singleton, hm]

theorem Wf.invisible {n : Numbering} (h : n.Wf) (name : String) : (n.invisible name).Wf := by
  have hvisible : (n.invisible name).visible = n.visible := by
    simp [visible, Numbering.invisible]
  constructor
  · exact h.ids_append rfl
  · rw [hvisible]
    exact h.nums
  · rw [hvisible]
    exact h.entered
  · rw [hvisible]
    exact h.dropped
  · exact List.mem_append_right _ (List.mem_singleton_self _)
  · exact fun m hm => List.mem_append_left _ (h.asked m hm)

theorem visible_declare (n : Numbering) (name : String) :
    (n.declare name).visible = n.visible ++ [n.newField name] := by
  simp [visible, declare, newField]

theorem symtab_subset_declare (n : Numbering) (name : String) :
    ∀ m ∈ n.symtab, m ∈ (n.declare name).symtab := by
  intro m hm
  unfold declare
  by_cases h : name ∈ n.symtab.map Made.name
  · simp only [if_pos h]
    exact hm
  · simp only [if_neg h]
    exact List.mem_append_left _ hm

theorem Wf.mem_made_of_symtab {n : Numbering} (h : n.Wf) {m : Made} (hm : m ∈ n.symtab) :
    m ∈ n.made :=
  List.mem_of_mem_filter (h.entered.subset hm)

theorem Wf.declare {n : Numbering} (h : n.Wf) (name : String) : (n.declare name).Wf := by
  constructor
  · exact h.ids_append rfl
  · rw [visible_declare, List.map_append, h.nums]
    show _ = (List.range (n.numFields + 1)).map some
    rw [List.range_succ, List.map_append]
    rfl
  · rw [visible_declare]
    unfold Numbering.declare
    by_cases hold : name ∈ n.symtab.map Made.name
    · simp only [if_pos hold]
      exact h.entered.trans (List.sublist_append_left _ _)
    · simp only [if_neg hold]
      exact h.entered.append (List.Sublist.refl _)
  · intro m hm
    rw [visible_declare] at hm
    rcases List.mem_append.mp hm with hm | hm
    · rcases h.dropped m hm with hin | ⟨m', hm', hname, hid⟩
      · exact Or.inl (symtab_subset_declare n name m hin)
      · exact Or.inr ⟨m', symtab_subset_declare n name m' hm', hname, hid⟩
    · rw [List.mem_singleton.mp hm]
      by_cases hold : name ∈ n.symtab.map Made.name
      · obtain ⟨m', hm', hname⟩ := List.mem_map.mp hold
        refine Or.inr ⟨m', symtab_subset_declare n name m' hm', hname, ?_⟩
        exact h.id_lt (h.mem_made_of_symtab hm')
      · refine Or.inl ?_
        unfold Numbering.declare
        simp only [if_neg hold]
        exact List.mem_append_right _ (List.mem_singleton_self _)
  · exact List.mem_append_right _ (List.mem_singleton_self _)
  · exact fun m hm => List.mem_append_left _ (h.asked m hm)

/-- The members of a union have numbers; nothing is placed behind them. -/
theorem made_addMembers (n : Numbering) (members : List Decl) :
    (n.addMembers members).asked = n.asked ∧ ∃ ms, (n.addMembers members).made = n.made ++ ms ∧
      ∀ m ∈ ms, m.num.isSome := by
  induction members generalizing n with
  | nil => exact ⟨rfl, [], (List.append_nil _).symm, fun m hm => absurd hm List.not_mem_nil⟩
  | cons d ds ih =>
    obtain ⟨hasked, ms, hms, hnum⟩ := ih (n.declare d.name)
    refine ⟨hasked, n.newField d.name :: ms, ?_, List.forall_mem_cons.mpr ⟨rfl, hnum⟩⟩
    refine hms.trans ?_
    show n.made ++ [_] ++ ms = _
    rw [List.append_assoc]
    rfl

theorem Wf.addMembers {n : Numbering} (h : n.Wf) (members : List Decl) :
    (n.addMembers members).Wf := by
  induction members generalizing n with
  | nil => exact h
  | cons d ds ih => exact ih (h.declare d.name)

theorem Wf.visit {st : Stmt} {n n' : Numbering} (h : n.Wf)
    (hvisit : visit toPhys type st n = some n') : n'.Wf ∧ n.made ⊆ n'.made := by
  induction st generalizing n n' with
  | skip =>
    cases hvisit
    exact ⟨h, fun _ hm => hm⟩
  | seq a b iha ihb =>
    obtain ⟨n₁, h₁, h₂⟩ := Option.bind_eq_some_iff.mp hvisit
    obtain ⟨hwf₁, hmade₁⟩ := iha h h₁
    obtain ⟨hwf₂, hmade₂⟩ := ihb hwf₁ h₂
    exact ⟨hwf₂, List.Subset.trans hmade₁ hmade₂⟩
  | decl d =>
    cases hvisit
    exact ⟨((h.ask h.last).declare d.name).withBuilder _, List.subset_append_left _ _⟩
  | func f args =>
    obtain ⟨b, hb, rfl⟩ := Option.map_eq_some_iff.mp hvisit
    exact ⟨((h.ask h.last).invisible _).withBuilder _, List.subset_append_left _ _⟩
  | ifThen c t iht =>
    obtain ⟨n₁, b, h₁, -, rfl⟩ := visit_ifThen hvisit
    obtain ⟨hwf, hmade⟩ := iht ((h.ask h.last).withBuilder _) h₁
    exact ⟨((hwf.ask hwf.last).invisible _).withBuilder _,
      List.Subset.trans hmade (List.subset_append_left _ _)⟩
  | ifElse c t e iht ihe =>
    obtain ⟨n₁, n₂, b₁, b, h₁, -, h₂, -, rfl⟩ := visit_ifElse hvisit
    obtain ⟨hwf₁, hmade₁⟩ := iht ((h.ask h.last).withBuilder _) h₁
    obtain ⟨hwf₂, hmade₂⟩ := ihe (hwf₁.withLast (hmade₁ h.last) b₁) h₂
    have hasked := (hwf₂.ask (hmade₂ hwf₁.last)).ask (m := n₂.last) hwf₂.last
    exact ⟨(hasked.invisible _).withBuilder _,
      List.Subset.trans (List.Subset.trans hmade₁ hmade₂) (List.subset_append_left _ _)⟩
  | union name members array =>
    obtain ⟨b, -, rfl⟩ := Option.map_eq_some_iff.mp hvisit
    obtain ⟨-, ms, hms, -⟩ := made_addMembers (n.ask n.last) members
    refine ⟨(((h.ask h.last).addMembers members).declare name).withBuilder _, fun m hm => ?_⟩
    refine List.mem_append_left _ ?_
    rw [hms]
    exact List.mem_append_left _ hm

/-! ## What is placed behind a field -/

/-- Something is placed behind the field, or it is the last one, or it has a number and is followed by
another one of which this is so: a member of a union by the union. -/
def Settled (n : Numbering) (m : Made) : Prop :=
  m ∈ n.asked ∨ m = n.last ∨ (m.num.isSome ∧
    ∃ m' ∈ n.made, m.id < m'.id ∧ m'.num.isSome ∧ (m' ∈ n.asked ∨ m' = n.last))

theorem Settled.mono {n n' : Numbering} {m : Made} (h : n.Settled m) (hmade : n.made ⊆ n'.made)
    (hasked : n.asked ⊆ n'.asked) (hlast : n.last ∈ n'.asked ∨ n'.last = n.last) :
    n'.Settled m := by
  have hkept : ∀ m', m' ∈ n.asked ∨ m' = n.last → m' ∈ n'.asked ∨ m' = n'.last := by
    rintro m' (hm' | rfl)
    · exact Or.inl (hasked hm')
    · exact hlast.imp_right Eq.symm
  rcases h with hm | hm | ⟨hnum, m', hm', hid, hnum', hend⟩
  · exact Or.inl (hasked hm)
  · rcases hkept m (Or.inr hm) with hm | hm
    · exact Or.inl hm
    · exact Or.inr (Or.inl hm)
  · exact Or.inr (Or.inr ⟨hnum, m', hmade hm', hid, hnum', hkept m' hend⟩)

/-- What a statement does to the fields: those it builds are settled, and the last field is asked for
its end or still the last one. -/
structure Settles (n n' : Numbering) : Prop where
  made : n.made ⊆ n'.made
  asked : n.asked ⊆ n'.asked
  last : n.last ∈ n'.asked ∨ n'.last = n.last
  new : ∀ m ∈ n'.made, m ∈ n.made ∨ n'.Settled m

theorem Settles.trans {n₁ n₂ n₃ : Numbering} (h : Settles n₁ n₂) (h' : Settles n₂ n₃) :
    Settles n₁ n₃ := by
  refine ⟨List.Subset.trans h.made h'.made, List.Subset.trans h.asked h'.asked, ?_, fun m hm => ?_⟩
  · rcases h.last with hlast | hlast
    · exact Or.inl (h'.asked hlast)
    · rw [← hlast]
      exact h'.last
  · rcases h'.new m hm with hm | hm
    · exact (h.new m hm).imp_right fun hm => hm.mono h'.made h'.asked h'.last
    · exact Or.inr hm

/-- A field that is placed behind the last one. -/
theorem settles_next {n n' : Numbering} {m : Made} (hmade : n'.made = n.made ++ [m])
    (hasked : n'.asked = n.asked ++ [n.last]) (hlast : n'.last = m) : Settles n n' := by
  refine ⟨?_, ?_, Or.inl ?_, fun m' hm' => ?_⟩
  · rw [hmade]
    exact List.subset_append_left _ _
  · rw [hasked]
    exact List.subset_append_left _ _
  · rw [hasked]
    exact List.mem_append_right _ (List.mem_singleton_self _)
  · rw [hmade] at hm'
    rcases List.mem_append.mp hm' with hm' | hm'
    · exact Or.inl hm'
    · exact Or.inr (Or.inr (Or.inl ((List.mem_singleton.mp hm').trans hlast.symm)))

theorem settles_ask (n : Numbering) (m : Made) (b : Builder) :
    Settles n { n.ask m with builder := b } :=
  ⟨fun _ hm => hm, List.subset_append_left _ _, Or.inr rfl, fun _ hm => Or.inl hm⟩

theorem settles_visit {st : Stmt} {n n' : Numbering} (h : n.Wf)
    (hvisit : visit toPhys type st n = some n') : Settles n n' := by
  induction st generalizing n n' with
  | skip =>
    cases hvisit
    exact ⟨fun _ hm => hm, fun _ hm => hm, Or.inr rfl, fun _ hm => Or.inl hm⟩
  | seq a b iha ihb =>
    obtain ⟨n₁, h₁, h₂⟩ := Option.bind_eq_some_iff.mp hvisit
    exact (iha h h₁).trans (ihb (h.visit h₁).1 h₂)
  | decl d =>
    cases hvisit
    exact settles_next rfl rfl rfl
  | func f args =>
    obtain ⟨b, hb, rfl⟩ := Option.map_eq_some_iff.mp hvisit
    exact settles_next rfl rfl rfl
  | ifThen c t iht =>
    obtain ⟨n₁, b, h₁, -, rfl⟩ := visit_ifThen hvisit
    have hbranch := iht ((h.ask h.last).withBuilder _) h₁
    exact ((settles_ask n n.last _).trans hbranch).trans (settles_next rfl rfl rfl)
  | ifElse c t e iht ihe =>
    obtain ⟨n₁, n₂, b₁, b, h₁, -, h₂, -, rfl⟩ := visit_ifElse hvisit
    have hwf := (h.ask h.last).withBuilder
      { n.builder with conds := n.builder.conds ++ [c] }
    obtain ⟨hwf₁, hmade₁⟩ := hwf.visit h₁
    have htrue := iht hwf h₁
    have hfalse := ihe (hwf₁.withLast (hmade₁ h.last) b₁) h₂
    refine ((settles_ask n n.last _).trans htrue).trans ⟨?_, ?_, Or.inl ?_, fun m hm => ?_⟩
    · exact List.Subset.trans hfalse.made (List.subset_append_left _ _)
    · exact List.Subset.trans hfalse.asked
        (List.Subset.trans (List.subset_append_left _ _) (List.subset_append_left _ _))
    · exact List.mem_append_left _ (List.mem_append_right _ (List.mem_singleton_self _))
    · rcases List.mem_append.mp hm with hm | hm
      · -- the end of either branch is asked for by the field behind the conditional
        refine (hfalse.new m hm).imp_right fun hm => hm.mono (List.subset_append_left _ _)
          (List.Subset.trans (List.subset_append_left _ _) (List.subset_append_left _ _))
          (Or.inl ?_)
        exact List.mem_append_right _ (List.mem_singleton_self _)
      · exact Or.inr (Or.inr (Or.inl (List.mem_singleton.mp hm)))
  | union name members array =>
    obtain ⟨b, -, rfl⟩ := Option.map_eq_some_iff.mp hvisit
    obtain ⟨hasked, ms, hms, hnum⟩ := made_addMembers (n.ask n.last) members
    have hwf := (h.ask h.last).addMembers members
    refine ⟨fun m hm => ?_, fun m hm => ?_, Or.inl ?_, fun m hm => ?_⟩
    · refine List.mem_append_left _ ?_
      rw [hms]
      exact List.mem_append_left _ hm
    · show m ∈ ((n.ask n.last).addMembers members).asked
      rw [hasked]
      exact List.mem_append_left _ hm
    · show n.last ∈ ((n.ask n.last).addMembers members).asked
      rw [hasked]
      exact List.mem_append_right _ (List.mem_singleton_self _)
    · rcases List.mem_append.mp hm with hm | hm
      · have hid := hwf.id_lt hm
        rw [hms] at hm
        refine (List.mem_append.mp hm).imp_right fun hm => Or.inr (Or.inr ⟨hnum m hm, ?_⟩)
        refine ⟨_, ?_, hid, rfl, Or.inr rfl⟩
        exact List.mem_append_right _ (List.mem_singleton_self _)
      · exact Or.inr (Or.inr (Or.inl (List.mem_singleton.mp hm)))

/-! ## When all three are in step -/

theorem Wf.sorted {n : Numbering} (h : n.Wf) : n.made.Pairwise fun a b => a.id < b.id := by
  have hrange := List.pairwise_lt_range (n := n.made.length)
  rw [← h.ids] at hrange
  exact List.pairwise_map.mp hrange

theorem Wf.mem_made {n : Numbering} {m : Made} (hm : m ∈ n.visible) : m ∈ n.made :=
  List.mem_of_mem_filter hm

theorem mem_visible {n : Numbering} {m : Made} (hm : m ∈ n.made) (hnum : m.num.isSome) :
    m ∈ n.visible :=
  List.mem_filter.mpr ⟨hm, hnum⟩

/-- A field with a number has its place among these as number. -/
theorem Wf.num_of_visible {n : Numbering} (h : n.Wf) {i : ℕ} {m : Made}
    (hm : n.visible[i]? = some m) : m.num = some i := by
  have hnum := congrArg (·[i]?) h.nums
  simp only [List.getElem?_map, hm, Option.map_some] at hnum
  obtain ⟨j, hj, hsome⟩ := Option.map_eq_some_iff.mp hnum.symm
  rw [List.getElem?_eq_some_iff] at hj
  obtain ⟨hlt, hj⟩ := hj
  rw [List.getElem_range] at hj
  rw [← hsome, hj]

theorem Wf.visible_of_num {n : Numbering} (h : n.Wf) {i : ℕ} {m : Made} (hm : m ∈ n.made)
    (hnum : m.num = some i) : n.visible[i]? = some m := by
  obtain ⟨j, hj⟩ := List.mem_iff_getElem?.mp (mem_visible hm (by rw [hnum]; rfl))
  obtain rfl : j = i := Option.some.inj ((h.num_of_visible hj).symm.trans hnum)
  exact hj

/-- What was built earlier has a smaller number. -/
theorem Wf.lt_of_id_lt {n : Numbering} (h : n.Wf) {i j : ℕ} {m m' : Made}
    (hi : n.visible[i]? = some m) (hj : n.visible[j]? = some m') (hid : m'.id < m.id) : j < i := by
  obtain ⟨hilt, rfl⟩ := List.getElem?_eq_some_iff.mp hi
  obtain ⟨hjlt, rfl⟩ := List.getElem?_eq_some_iff.mp hj
  have hsorted : n.visible.Pairwise fun a b => a.id < b.id := h.sorted.filter _
  by_contra hle
  rcases Nat.eq_or_lt_of_le (Nat.le_of_not_lt hle) with rfl | hij
  · exact absurd hid (lt_irrefl _)
  · have hlt := List.pairwise_iff_getElem.mp hsorted i j hilt hjlt hij
    omega

/-- A field is not served by functions of its own if an earlier one has its name. -/
theorem Wf.not_own {n : Numbering} (h : n.Wf) {m m' : Made} (hm' : m' ∈ n.made)
    (hid : m'.id < m.id) (hname : m'.name = m.name) : ¬ n.Own m := by
  intro hown
  obtain ⟨-, as, bs, hmade, has⟩ := List.find?_eq_some_iff_append.mp hown
  have hsorted := h.sorted
  rw [hmade] at hsorted hm'
  rcases List.mem_append.mp hm' with hm' | hm'
  · exact absurd (has m' hm') (by simp [hname])
  · rcases List.mem_cons.mp hm' with rfl | hm'
    · exact absurd hid (lt_irrefl _)
    · have hlt := (List.pairwise_cons.mp (List.pairwise_append.mp hsorted).2.1).1 m' hm'
      omega

/-- Something is placed behind the field, or behind a later one with a number. -/
def Followed (n : Numbering) (m : Made) : Prop :=
  m ∈ n.asked ∨ (m.num.isSome ∧ ∃ m' ∈ n.made, m.id < m'.id ∧ m'.num.isSome ∧ m' ∈ n.asked)

/-- In a table whose entries have their indices as numbers no field has been left out before the last
entry. -/
theorem InStep.name_ne {n : Numbering} (hin : n.InStep) (h : n.Wf)
    (hfollowed : ∀ m ∈ n.made, n.Followed m) {a b : Made} (ha : a ∈ n.made) (hb : b ∈ n.made)
    (hid : a.id < b.id) : a.name ≠ b.name := by
  intro hname
  have hown := h.not_own ha hid hname
  have hout : b ∉ n.symtab := by
    intro hmem
    obtain ⟨i, hi⟩ := List.mem_iff_getElem?.mp hmem
    exact hown (hin.table i b hi).2
  rcases hfollowed b hb with hask | ⟨hnum, m, hm, hlt, hnum', hask⟩
  · exact hown (hin.asked b hask).1
  · -- the later field has an entry
    have hmem : m ∈ n.symtab := by
      rcases h.dropped m (mem_visible hm hnum') with hmem | ⟨m', hm', hname', hid'⟩
      · exact hmem
      · exact absurd (hin.asked m hask).1 (h.not_own (h.mem_made_of_symtab hm') hid' hname')
    obtain ⟨i, hi⟩ := List.mem_iff_getElem?.mp hmem
    have hvi := h.visible_of_num hm (hin.table i m hi).1
    obtain ⟨j, hvj⟩ := List.mem_iff_getElem?.mp (mem_visible hb hnum)
    have hji := h.lt_of_id_lt hvi hvj hlt
    -- so that the entry at its number is its own
    have hlen : i < n.symtab.length := (List.getElem?_eq_some_iff.mp hi).1
    have hj : n.symtab[j]? = some n.symtab[j] := List.getElem?_eq_getElem (hji.trans hlen)
    have hentry := h.visible_of_num (h.mem_made_of_symtab (List.mem_of_getElem? hj))
      (hin.table j _ hj).1
    obtain heq := Option.some.inj (hvj.symm.trans hentry)
    exact hout (heq ▸ List.mem_of_getElem? hj)

/-- With distinct names every field with a number has its entry. -/
theorem Wf.symtab_eq {n : Numbering} (h : n.Wf) (hnodup : (n.made.map Made.name).Nodup) :
    n.symtab = n.visible := by
  refine h.entered.eq_of_length_le (List.Nodup.length_le_of_subset ?_ fun m hm => ?_)
  · exact (hnodup.of_map _).filter _
  · rcases h.dropped m hm with hmem | ⟨m', hm', hname, hid⟩
    · exact hmem
    · have heq := List.inj_on_of_nodup_map hnodup (h.mem_made_of_symtab hm') (Wf.mem_made hm) hname
      rw [heq] at hid
      exact absurd hid (lt_irrefl _)

theorem Wf.inStep {n : Numbering} (h : n.Wf) (hnodup : (n.made.map Made.name).Nodup) :
    n.InStep := by
  have hown : ∀ m ∈ n.made, n.Own m := fun m hm => List.find?_of_nodup_map hnodup hm
  refine ⟨fun i m hi => ?_, fun m hm => ⟨hown m (h.asked m hm), fun i hnum => ?_⟩⟩
  · refine ⟨?_, hown m (h.mem_made_of_symtab (List.mem_of_getElem? hi))⟩
    rw [h.symtab_eq hnodup] at hi
    exact h.num_of_visible hi
  · rw [fieldAt, h.symtab_eq hnodup, h.visible_of_num (h.asked m hm) hnum]
    exact if_pos hnum

/-- At the end of a type something is placed behind all fields but the members of unions, and those
are followed by the union. -/
theorem followed_getSymTab {numArgs : ℕ} {block : Stmt} {n : Numbering}
    (h : visit toPhys type block (.init numArgs) = some n) :
    ∀ m ∈ (n.ask n.last).made, (n.ask n.last).Followed m := by
  have hsettles := settles_visit (wf_init numArgs) h
  have hend : ∀ m, m ∈ n.asked ∨ m = n.last → m ∈ (n.ask n.last).asked := by
    rintro m (hm | rfl)
    · exact List.mem_append_left _ hm
    · exact List.mem_append_right _ (List.mem_singleton_self _)
  intro m hm
  rcases hsettles.new m hm with hm | hm | hm | ⟨hnum, m', hm', hid, hnum', hask⟩
  · rw [List.mem_singleton.mp hm]
    exact Or.inl (hend _ (hsettles.last.imp_right Eq.symm))
  · exact Or.inl (hend m (Or.inl hm))
  · exact Or.inl (hend m (Or.inr hm))
  · exact Or.inr ⟨hnum, m', hm', hid, hnum', hend m' hask⟩

/-- Numbers, entries and functions are in step exactly if no two fields that are built for a type have
one name. -/
theorem inStep_iff_nodup {numArgs : ℕ} {block : Stmt} {n : Numbering}
    (h : getSymTab toPhys type numArgs block = some n) :
    n.InStep ↔ ("__base" :: thunkNames type 0 block).Nodup := by
  obtain ⟨n₁, h₁, rfl⟩ := Option.map_eq_some_iff.mp h
  have hwf := ((wf_init numArgs).visit h₁).1
  have hasked := hwf.ask hwf.last
  have hnames : (n₁.ask n₁.last).made.map Made.name = "__base" :: thunkNames type 0 block :=
    (names_visit h₁).1
  rw [← hnames]
  refine ⟨fun hin => List.pairwise_map.mpr ?_, hasked.inStep⟩
  exact hasked.sorted.imp_of_mem fun ha hb hid =>
    hin.name_ne hasked (followed_getSymTab h₁) ha hb hid

/-- A condition that always holds. -/
def always : Cond := .test (n := 0) (fun _ _ => some true) Fin.elim0

/-- `if (..) { u8 x; } else { u16 <other>; } u8 y;` -/
def sampleBlock (other : String) : Stmt :=
  .seq (.ifElse always (.decl ⟨"x", .prim 8, [], none, false⟩)
    (.decl ⟨other, .prim 16, [], none, false⟩)) (.decl ⟨"y", .prim 8, [], none, false⟩)

/-- With different names in the branches. -/
theorem inStep_iff_nodup_branches : ∃ n,
    getSymTab (fun _ _ => none) "t" 0 (sampleBlock "z") = some n ∧ n.InStep :=
  ⟨_, rfl, (@inStep_iff_nodup (fun _ _ => none) "t" 0 (sampleBlock "z") _ rfl).mpr (by decide)⟩

/-- With one name in both branches entry 1 of the table is `y` with number 2. -/
theorem not_inStep_sampleBlock : ∃ n,
    getSymTab (fun _ _ => none) "t" 0 (sampleBlock "x") = some n ∧
      n.symtab = [⟨1, "x", some 0⟩, ⟨4, "y", some 2⟩] ∧ ¬ n.InStep := by
  refine ⟨_, rfl, rfl, fun hin => ?_⟩
  have hnum := (hin.table 1 ⟨4, "y", some 2⟩ rfl).1
  exact absurd hnum (by decide)

end Numbering

end Fsl.Layout
