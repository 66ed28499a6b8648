import Fsl.Compiler.FieldNum

/-!
# The tables of fields

A type has one symbol table and four tables made from it. The table of all fields leaves out what is weak
and not conditional, the members of unions. `find_field` of the modify tool searches it, but counts with
the size of the complete one.
-/

namespace Fsl.FieldTable

/-! ## The symbol table -/

/-- The statements of a type. The block of a union is any statement here. -/
inductive TypeStmt
  | skip
  | seq (a b : TypeStmt)
  | decl (type name : String)
  | func
  | cond (t : TypeStmt)
  | condElse (t f : TypeStmt)
  | union (block : TypeStmt) (name : String)

/-- `SymbolTableEnt`, with its field as far as the search reads it: by its name -/
structure Ent where
  name : String
  isWeak : Bool
  isConditional : Bool
  deriving DecidableEq, Repr

/-- `SymbolTable::add`, which asserts that a conditional entry is weak. -/
def add (st : List Ent) (e : Ent) : Option (List Ent) :=
  if e.name ∈ st.map Ent.name then some st
  else if e.isWeak = false ∧ e.isConditional = true then none
  else some (st ++ [e])

/-- `SymTabThunkBuilder`, with `weak_c` and the sizes of `cond_stack` and `union_c`. A declaration in a
union asserts that there is no condition, and so does every layout function; the union in a union is not
found among the types made for unions. A type is known if it is in `types_map` or `ctypes_map`; the
declaration of an unknown one leaves no entry. -/
def visit (known : String → Bool) (weakC condC unionC : ℕ) : TypeStmt → List Ent → Option (List Ent)
  | .skip, st => some st
  | .seq a b, st => do
    let st ← visit known weakC condC unionC a st
    visit known weakC condC unionC b st
  | .decl type name, st =>
    if 0 < unionC ∧ 0 < condC then none
    else if known type then add st ⟨name, decide (0 < weakC), decide (0 < condC)⟩
    else some st
  | .func, st => if 0 < condC then none else some st
  | .cond t, st => visit known (weakC + 1) (condC + 1) unionC t st
  | .condElse t f, st => do
    let st ← visit known (weakC + 1) (condC + 1) unionC t st
    visit known (weakC + 1) (condC + 1) unionC f st
  | .union block name, st =>
    if 0 < unionC then none
    else do
      let st ← visit known (weakC + 1) condC (unionC + 1) block st
      add st ⟨name, decide (0 < weakC), decide (0 < condC)⟩

/-- `Type::buildSyms` -/
def buildSyms (known : String → Bool) (block : TypeStmt) : Option (List Ent) :=
  visit known 0 0 0 block []

/-! ## The tables -/

/-- An entry that is in the table of all fields: a strong or a conditional one. -/
def Ent.InAll (e : Ent) : Prop := e.isWeak = false ∨ e.isConditional = true

instance (e : Ent) : Decidable e.InAll := inferInstanceAs (Decidable (_ ∨ _))

/-- `SymbolTable::copyInto`, which drops the conditional bindings. -/
def copyInto : List Ent → List Ent → Option (List Ent)
  | [], new => some new
  | e :: st, new => do
    let new ← add new { e with isConditional := false }
    copyInto st new

/-- `Type::getSyms` -/
def getSyms (st : List Ent) : Option (List Ent) := copyInto st []

/-- The loop of `Type::getSymsStrongOrConditional`. -/
def addStrongOrConditional : List Ent → List Ent → Option (List Ent)
  | [], new => some new
  | e :: st, new =>
    if e.isWeak && !e.isConditional then addStrongOrConditional st new
    else do
      let new ← add new e
      addStrongOrConditional st new

/-- `Type::getSymsStrongOrConditional` -/
def getSymsStrongOrConditional (st : List Ent) : Option (List Ent) := addStrongOrConditional st []

/-- The parts of `struct fsl_rtt_type` that the search reads. A field is read by its name. -/
structure RttType where
  fieldC : ℕ
  fieldAllThunkoff : List String
  deriving DecidableEq, Repr

/-- `TableGen::genInstanceType`, and `genUserFieldsByType` for the table -/
def genInstanceType (st : List Ent) : Option RttType := do
  let all ← getSymsStrongOrConditional st
  let complete ← getSyms st
  return ⟨complete.length, all.map Ent.name⟩

/-- The loop of `find_field` with its `left` turns from `fieldIdx` on. Reading behind the end of the
table is a fault. -/
def findLoop (tt : RttType) (fieldname : String) : ℕ → ℕ → Except Stop (Option ℕ)
  | 0, _ => .ok none
  | left + 1, fieldIdx =>
    match tt.fieldAllThunkoff[fieldIdx]? with
    | none => .error .fault
    | some tfFieldname =>
      if fieldname = tfFieldname then .ok (some fieldIdx)
      else findLoop tt fieldname left (fieldIdx + 1)

/-- `find_field`, which returns the place of the field in `tt_fieldall_thunkoff`. -/
def findField (tt : RttType) (fieldname : String) : Except Stop (Option ℕ) :=
  findLoop tt fieldname tt.fieldC 0

/-! ## The declarations of a block -/

/-- The names that a block declares, in the order of the visit, and whether as the member of a union. -/
def declared (known : String → Bool) (member : Bool) : TypeStmt → List (String × Bool)
  | .skip => []
  | .seq a b => declared known member a ++ declared known member b
  | .decl type name => if known type then [(name, member)] else []
  | .func => []
  | .cond t => declared known member t
  | .condElse t f => declared known member t ++ declared known member f
  | .union block name => declared known true block ++ [(name, member)]

/-- Whether the first declaration of the name is one of a member. -/
def firstIsMember (ds : List (String × Bool)) (name : String) : Option Bool :=
  (ds.find? fun p => p.1 = name).map Prod.snd

/-- The field is found exactly if there is one of that name, strong or conditional, and the search does not
leave the table. -/
def Finds (tt : RttType) (st : List Ent) (name : String) : Prop :=
  ∃ r, findField tt name = .ok r ∧ (∀ i, r = some i → tt.fieldAllThunkoff[i]? = some name) ∧
    (r.isSome ↔ ∃ e ∈ st, e.name = name ∧ e.InAll)

/-! ## What is entered -/

/-- The name of an entry and whether it is left out of the table of all fields. -/
def Ent.key (e : Ent) : String × Bool := (e.name, e.isWeak && !e.isConditional)

theorem Ent.inAll_iff (e : Ent) : e.InAll ↔ e.key.2 = false := by
  unfold InAll key
  cases e.isWeak <;> cases e.isConditional <;> simp

/-- A name is entered once. -/
def addKey (ks : List (String × Bool)) (p : String × Bool) : List (String × Bool) :=
  if p.1 ∈ ks.map Prod.fst then ks else ks ++ [p]

theorem map_fst_key (st : List Ent) : (st.map Ent.key).map Prod.fst = st.map Ent.name := by
  rw [List.map_map]
  rfl

/-- The table has every name once, and the conditional entries are weak. -/
structure Wf (st : List Ent) : Prop where
  nodup : (st.map Ent.name).Nodup
  weak : ∀ e ∈ st, ¬ (e.isWeak = false ∧ e.isConditional = true)

theorem wf_nil : Wf [] := ⟨List.nodup_nil, fun _ h => absurd h List.not_mem_nil⟩

theorem Wf.add {st st' : List Ent} {e : Ent} (hwf : Wf st) (h : add st e = some st') :
    Wf st' ∧ st'.map Ent.key = addKey (st.map Ent.key) e.key := by
  unfold FieldTable.add at h
  rw [addKey, map_fst_key]
  have hname : e.key.1 = e.name := rfl
  rw [hname]
  split_ifs at h with hin hbad
  · cases h
    exact ⟨hwf, (if_pos hin).symm⟩
  · cases h
    rw [if_neg hin, List.map_append]
    refine ⟨⟨?_, fun e' he' => ?_⟩, rfl⟩
    · rw [List.map_append, List.nodup_append]
      refine ⟨hwf.nodup, List.nodup_singleton _, fun a ha b hb heq => hin ?_⟩
      rwa [← List.mem_singleton.mp hb, ← heq]
    · rcases List.mem_append.mp he' with he' | he'
      · exact hwf.weak e' he'
      · rwa [List.mem_singleton.mp he']

section Visit

variable {known : String → Bool}

/-- What a declaration enters. -/
theorem key_of_counts {weakC condC unionC : ℕ} (hc : weakC = condC + unionC)
    (hcond : ¬ (0 < unionC ∧ 0 < condC)) (name : String) :
    (Ent.mk name (decide (0 < weakC)) (decide (0 < condC))).key = (name, decide (0 < unionC)) := by
  unfold Ent.key
  subst hc
  by_cases hu : 0 < unionC
  · have hzero : condC = 0 := by omega
    simp [hzero, hu]
  · have hzero : unionC = 0 := by omega
    simp [hzero]

/-- A statement enters the names it declares. Whatever surrounds it, `weak_c` counts the conditions and
the unions. -/
theorem Wf.visit {stmt : TypeStmt} {weakC condC unionC : ℕ} {st st' : List Ent} (hwf : Wf st)
    (hc : weakC = condC + unionC) (h : visit known weakC condC unionC stmt st = some st') :
    Wf st' ∧ st'.map Ent.key =
      (declared known (decide (0 < unionC)) stmt).foldl addKey (st.map Ent.key) := by
  induction stmt generalizing weakC condC unionC st st' with
  | skip =>
    cases h
    exact ⟨hwf, rfl⟩
  | seq a b iha ihb =>
    obtain ⟨st₁, h₁, h₂⟩ := Option.bind_eq_some_iff.mp h
    obtain ⟨hwf₁, hkeys₁⟩ := iha hwf hc h₁
    obtain ⟨hwf₂, hkeys₂⟩ := ihb hwf₁ hc h₂
    exact ⟨hwf₂, by rw [hkeys₂, hkeys₁, declared, List.foldl_append]⟩
  | decl type name =>
    rw [FieldTable.visit] at h
    rw [declared]
    split_ifs at h with hcond hknown
    · obtain ⟨hwf', hkeys⟩ := hwf.add h
      rw [key_of_counts hc hcond] at hkeys
      rw [if_pos hknown]
      exact ⟨hwf', hkeys⟩
    · cases h
      rw [if_neg hknown]
      exact ⟨hwf, rfl⟩
  | func =>
    rw [FieldTable.visit] at h
    split_ifs at h
    cases h
    exact ⟨hwf, rfl⟩
  | cond t iht => exact iht hwf (by omega) h
  | condElse t f iht ihf =>
    obtain ⟨st₁, h₁, h₂⟩ := Option.bind_eq_some_iff.mp h
    obtain ⟨hwf₁, hkeys₁⟩ := iht hwf (by omega) h₁
    obtain ⟨hwf₂, hkeys₂⟩ := ihf hwf₁ (by omega) h₂
    exact ⟨hwf₂, by rw [hkeys₂, hkeys₁, declared, List.foldl_append]⟩
  | union block name ih =>
    rw [FieldTable.visit] at h
    split_ifs at h with hnested
    obtain ⟨st₁, h₁, h₂⟩ := Option.bind_eq_some_iff.mp h
    obtain ⟨hwf₁, hkeys₁⟩ := ih hwf (by omega) h₁
    obtain ⟨hwf₂, hkeys₂⟩ := hwf₁.add h₂
    rw [key_of_counts hc fun hboth => hnested hboth.1] at hkeys₂
    have hmember : decide (0 < unionC + 1) = true := decide_eq_true (Nat.succ_pos unionC)
    rw [hmember] at hkeys₁
    refine ⟨hwf₂, ?_⟩
    rw [hkeys₂, hkeys₁, declared, List.foldl_append]
    rfl

theorem wf_buildSyms {block : TypeStmt} {st : List Ent} (h : buildSyms known block = some st) :
    Wf st ∧ st.map Ent.key = (declared known false block).foldl addKey [] :=
  wf_nil.visit (show 0 = 0 + 0 from rfl) h

end Visit

/-- The first declaration of a name is the one that is entered. -/
theorem find_foldl_addKey (ds ks : List (String × Bool)) (name : String) :
    (ds.foldl addKey ks).find? (fun p => p.1 = name) = (ks ++ ds).find? fun p => p.1 = name := by
  induction ds generalizing ks with
  | nil => rw [List.foldl_nil, List.append_nil]
  | cons d ds ih =>
    rw [List.foldl_cons, ih, addKey]
    split_ifs with hin
    · -- the name is there already, so that its second declaration is not the first of any name
      rw [List.find?_append, List.find?_append, List.find?_cons]
      by_cases hd : d.1 = name
      · obtain ⟨p, hp, hpd⟩ := List.mem_map.mp hin
        have hsome : (ks.find? fun p => p.1 = name).isSome :=
          List.find?_isSome.mpr ⟨p, hp, by rw [hpd, hd]; exact decide_eq_true rfl⟩
        obtain ⟨q, hq⟩ := Option.isSome_iff_exists.mp hsome
        rw [hq]
        rfl
      · simp [hd]
    · rw [List.append_assoc, List.singleton_append]

/-- The entry of a name is left out of the table of all fields if the name was first declared by a
member. -/
theorem find_entry {known : String → Bool} {block : TypeStmt} {st : List Ent}
    (h : buildSyms known block = some st) (name : String) :
    (st.find? fun e => e.name = name).map (fun e => e.key.2) =
      firstIsMember (declared known false block) name := by
  have hfind := find_foldl_addKey (declared known false block) [] name
  rw [List.nil_append] at hfind
  rw [firstIsMember, ← hfind, ← (wf_buildSyms h).2, List.find?_map, Option.map_map]
  rfl

/-! ## What the tables hold -/

theorem add_of_not_mem {new : List Ent} {e : Ent} (hname : e.name ∉ new.map Ent.name)
    (hweak : ¬ (e.isWeak = false ∧ e.isConditional = true)) : add new e = some (new ++ [e]) := by
  rw [add, if_neg hname, if_neg hweak]

theorem exists_copyInto {st new : List Ent} (hnodup : (new.map Ent.name ++ st.map Ent.name).Nodup) :
    ∃ all, copyInto st new = some all ∧ all.length = new.length + st.length := by
  induction st generalizing new with
  | nil => exact ⟨new, rfl, rfl⟩
  | cons e st ih =>
    have hout : e.name ∉ new.map Ent.name := fun hin =>
      (List.nodup_append.mp hnodup).2.2 _ hin _ List.mem_cons_self rfl
    have hadd : add new { e with isConditional := false } =
        some (new ++ [{ e with isConditional := false }]) :=
      add_of_not_mem hout (by simp)
    have hnodup' : ((new ++ [{ e with isConditional := false }]).map Ent.name ++
        st.map Ent.name).Nodup := by simpa using hnodup
    obtain ⟨all, hall, hlen⟩ := ih hnodup'
    refine ⟨all, ?_, ?_⟩
    · rw [copyInto, hadd]
      exact hall
    · rw [hlen, List.length_append, List.length_singleton, List.length_cons]
      omega

theorem addStrongOrConditional_eq {st new : List Ent}
    (hnodup : (new.map Ent.name ++ st.map Ent.name).Nodup)
    (hweak : ∀ e ∈ st, ¬ (e.isWeak = false ∧ e.isConditional = true)) :
    addStrongOrConditional st new = some (new ++ st.filter fun e => e.InAll) := by
  induction st generalizing new with
  | nil => rw [List.filter_nil, List.append_nil, addStrongOrConditional]
  | cons e st ih =>
    obtain ⟨hwe, hws⟩ := List.forall_mem_cons.mp hweak
    rw [addStrongOrConditional, List.filter_cons]
    by_cases hall : e.InAll
    · have hkey : ¬ (e.isWeak && !e.isConditional) = true := by
        rw [Bool.not_eq_true]
        exact e.inAll_iff.mp hall
      have hout : e.name ∉ new.map Ent.name := fun hin =>
        (List.nodup_append.mp hnodup).2.2 _ hin _ List.mem_cons_self rfl
      have hnodup' : ((new ++ [e]).map Ent.name ++ st.map Ent.name).Nodup := by simpa using hnodup
      rw [if_neg hkey, add_of_not_mem hout hwe, if_pos (decide_eq_true hall)]
      refine (ih hnodup' hws).trans ?_
      rw [List.append_assoc, List.singleton_append]
    · have hkey : (e.isWeak && !e.isConditional) = true := by
        rw [← Bool.not_eq_false]
        exact mt e.inAll_iff.mpr hall
      have hsub : (new.map Ent.name ++ st.map Ent.name).Nodup :=
        hnodup.sublist ((List.sublist_cons_self _ _).append_left _)
      rw [if_pos hkey, if_neg (by simpa using hall)]
      exact ih hsub hws

/-- The table of all fields has the strong and conditional entries, and the count of the complete one
is that of all entries. -/
theorem genInstanceType_eq {st : List Ent} (hwf : Wf st) :
    genInstanceType st = some ⟨st.length, (st.filter fun e => e.InAll).map Ent.name⟩ := by
  have hnodup : (([] : List Ent).map Ent.name ++ st.map Ent.name).Nodup := hwf.nodup
  obtain ⟨complete, hcomplete, hlen⟩ := exists_copyInto hnodup
  rw [List.length_nil, Nat.zero_add] at hlen
  rw [genInstanceType, getSymsStrongOrConditional, addStrongOrConditional_eq hnodup hwf.weak, getSyms,
    hcomplete, ← hlen]
  rfl

/-! ## The search -/

section Search

variable {tt : RttType} {name : String}

/-- The search finds a name that is in the table behind `fieldIdx`. -/
theorem findLoop_of_mem {left fieldIdx : ℕ} (hle : tt.fieldAllThunkoff.length ≤ fieldIdx + left)
    (hmem : name ∈ tt.fieldAllThunkoff.drop fieldIdx) :
    ∃ i, findLoop tt name left fieldIdx = .ok (some i) ∧ tt.fieldAllThunkoff[i]? = some name := by
  induction left generalizing fieldIdx with
  | zero =>
    rw [List.drop_eq_nil_of_le (by omega)] at hmem
    exact absurd hmem List.not_mem_nil
  | succ left ih =>
    have hlt : fieldIdx < tt.fieldAllThunkoff.length := by
      by_contra hge
      rw [List.drop_eq_nil_of_le (by omega)] at hmem
      exact absurd hmem List.not_mem_nil
    rw [List.drop_eq_getElem_cons hlt, List.mem_cons] at hmem
    rw [findLoop, List.getElem?_eq_getElem hlt]
    by_cases heq : name = tt.fieldAllThunkoff[fieldIdx]
    · refine ⟨fieldIdx, if_pos heq, ?_⟩
      rw [List.getElem?_eq_getElem hlt, ← heq]
    · obtain ⟨i, hi, hget⟩ := ih (by omega) (hmem.resolve_left heq)
      exact ⟨i, (if_neg heq).trans hi, hget⟩

/-- Without the name in the table the search goes through all of its turns, or leaves the table. -/
theorem findLoop_of_not_mem {left fieldIdx : ℕ} (hout : name ∉ tt.fieldAllThunkoff) :
    findLoop tt name left fieldIdx =
      if fieldIdx + left ≤ tt.fieldAllThunkoff.length ∨ left = 0 then .ok none
      else .error .fault := by
  induction left generalizing fieldIdx with
  | zero => rw [findLoop, if_pos (Or.inr rfl)]
  | succ left ih =>
    rw [findLoop]
    by_cases hlt : fieldIdx < tt.fieldAllThunkoff.length
    · have hne : name ≠ tt.fieldAllThunkoff[fieldIdx] := fun heq =>
        hout (heq ▸ List.getElem_mem hlt)
      rw [List.getElem?_eq_getElem hlt]
      refine (if_neg hne).trans ?_
      rw [ih]
      refine if_congr ?_ rfl rfl
      omega
    · rw [List.getElem?_eq_none (by omega), if_neg (by omega)]

end Search


theorem mem_all {st : List Ent} {name : String} :
    name ∈ (st.filter fun e => e.InAll).map Ent.name ↔ ∃ e ∈ st, e.name = name ∧ e.InAll := by
  constructor
  · intro h
    obtain ⟨e, he, rfl⟩ := List.mem_map.mp h
    obtain ⟨hst, hall⟩ := List.mem_filter.mp he
    exact ⟨e, hst, rfl, of_decide_eq_true hall⟩
  · rintro ⟨e, hst, rfl, hall⟩
    exact List.mem_map_of_mem (List.mem_filter.mpr ⟨hst, decide_eq_true hall⟩)

/-- The search for a name does what it should if the table has the name, or nothing was left out of
it. -/
theorem finds_iff_mem {st : List Ent} {tt : RttType} (hwf : Wf st) (htt : genInstanceType st = some tt)
    (name : String) :
    Finds tt st name ↔ (∃ e ∈ st, e.name = name ∧ e.InAll) ∨ ∀ e ∈ st, e.InAll := by
  obtain ⟨hcount, htab⟩ : tt.fieldC = st.length ∧
      tt.fieldAllThunkoff = (st.filter fun e => e.InAll).map Ent.name := by
    rw [genInstanceType_eq hwf] at htt
    cases htt
    exact ⟨rfl, rfl⟩
  have hlen : ((st.filter fun e => e.InAll).map Ent.name).length =
      (st.filter fun e => e.InAll).length := List.length_map ..
  have hle : (st.filter fun e => e.InAll).length ≤ st.length := List.length_filter_le _ _
  have hfull : (st.filter fun e => e.InAll).length = st.length ↔ ∀ e ∈ st, e.InAll := by
    rw [List.length_filter_eq_length_iff]
    simp
  by_cases hmem : name ∈ (st.filter fun e => e.InAll).map Ent.name
  · have hent := mem_all.mp hmem
    refine iff_of_true ?_ (Or.inl hent)
    rw [← htab] at hmem
    have hin : tt.fieldAllThunkoff.length ≤ 0 + tt.fieldC := by
      rw [htab, hlen, hcount]
      omega
    obtain ⟨i, hi, hget⟩ := findLoop_of_mem hin hmem
    refine ⟨some i, hi, ?_, iff_of_true rfl hent⟩
    rintro _ ⟨⟩
    exact hget
  · have hent := mt mem_all.mpr hmem
    rw [← htab] at hmem
    have hrun : findField tt name = _ := findLoop_of_not_mem hmem
    rw [htab, hcount, hlen, Nat.zero_add] at hrun
    rw [or_iff_right hent, ← hfull]
    constructor
    · rintro ⟨r, hr, -, -⟩
      rw [hrun] at hr
      split_ifs at hr with hin
      omega
    · intro heq
      rw [if_pos (by omega)] at hrun
      refine ⟨none, hrun, ?_, iff_of_false (by simp) hent⟩
      rintro _ ⟨⟩

/-- In every type that the compiler takes, the search for a name stays in the table and finds the field
exactly if it is there as a strong or conditional one, if and only if the name is first declared outside
of unions, or no union of the type has a member with a new name. -/
theorem finds_iff {known : String → Bool} {block : TypeStmt} {st : List Ent}
    (h : buildSyms known block = some st) : ∃ tt, genInstanceType st = some tt ∧
      ∀ name, Finds tt st name ↔ firstIsMember (declared known false block) name = some false ∨
        ∀ other, firstIsMember (declared known false block) other ≠ some true := by
  have hwf := (wf_buildSyms h).1
  refine ⟨_, genInstanceType_eq hwf, fun name => ?_⟩
  rw [finds_iff_mem hwf (genInstanceType_eq hwf)]
  have hentry : ∀ e ∈ st, firstIsMember (declared known false block) e.name = some e.key.2 := by
    intro e he
    have hfind : st.find? (fun e' => e'.name = e.name) = some e :=
      List.find?_of_nodup_map hwf.nodup he
    rw [← find_entry h, hfind]
    rfl
  have hname : ∀ m b, firstIsMember (declared known false block) m = some b →
      ∃ e ∈ st, e.name = m ∧ e.key.2 = b := by
    intro m b hm
    rw [← find_entry h] at hm
    obtain ⟨e, he, hb⟩ := Option.map_eq_some_iff.mp hm
    exact ⟨e, List.mem_of_find?_eq_some he, by simpa using List.find?_some he, hb⟩
  refine or_congr ⟨?_, fun hfirst => ?_⟩ ⟨fun hall m hm => ?_, fun hnone e he => ?_⟩
  · rintro ⟨e, he, rfl, hall⟩
    rw [hentry e he, e.inAll_iff.mp hall]
  · obtain ⟨e, he, heq, hkey⟩ := hname name false hfirst
    exact ⟨e, he, heq, e.inAll_iff.mpr hkey⟩
  · obtain ⟨e, he, -, hkey⟩ := hname m true hm
    rw [e.inAll_iff.mp (hall e he)] at hkey
    cases hkey
  · rw [e.inAll_iff, ← Bool.not_eq_true]
    intro hkey
    exact hnone e.name (by rw [hentry e he, hkey])

/-! ## The table that is numbered -/

open Layout

/-- The statement as far as its entries go. -/
def ofStmt : Stmt → TypeStmt
  | .skip => .skip
  | .seq a b => .seq (ofStmt a) (ofStmt b)
  | .decl d => .decl "" d.name
  | .func _ _ => .func
  | .ifThen _ t => .cond (ofStmt t)
  | .ifElse _ t e => .condElse (ofStmt t) (ofStmt e)
  | .union name members _ => .union (members.foldr (fun d s => .seq (.decl "" d.name) s) .skip) name

/-- The names after one was added. -/
def addName (names : List String) (name : String) : List String :=
  if name ∈ names then names else names ++ [name]

theorem names_add {st st' : List Ent} {e : Ent} (h : add st e = some st') :
    st'.map Ent.name = addName (st.map Ent.name) e.name := by
  unfold add at h
  rw [addName]
  split_ifs at h with hin
  · cases h
    rw [if_pos hin]
  · cases h
    rw [if_neg hin, List.map_append]
    rfl

theorem names_declare (n : Numbering) (name : String) :
    (n.declare name).symtab.map Made.name = addName (n.symtab.map Made.name) name := by
  rw [addName, Numbering.declare]
  split_ifs
  · rfl
  · rw [List.map_append]
    rfl

theorem names_decl {weakC condC unionC : ℕ} {type name : String} {st st' : List Ent}
    (h : visit (fun _ => true) weakC condC unionC (.decl type name) st = some st') :
    st'.map Ent.name = addName (st.map Ent.name) name := by
  rw [visit] at h
  by_cases hcond : 0 < unionC ∧ 0 < condC
  · rw [if_pos hcond] at h
    cases h
  · rw [if_neg hcond, if_pos rfl] at h
    exact names_add h

theorem names_addMembers {weakC condC : ℕ} {members : List Decl} {st st' : List Ent} {n : Numbering}
    (h : visit (fun _ => true) weakC condC 1
      (members.foldr (fun d s => .seq (.decl "" d.name) s) .skip) st = some st')
    (hnames : n.symtab.map Made.name = st.map Ent.name) :
    (n.addMembers members).symtab.map Made.name = st'.map Ent.name := by
  induction members generalizing st n with
  | nil =>
    cases h
    exact hnames
  | cons d members ih =>
    obtain ⟨st₁, h₁, h₂⟩ := Option.bind_eq_some_iff.mp h
    refine ih h₂ ?_
    rw [names_declare, hnames, names_decl h₁]

theorem names_visit {toPhys : Disk → UInt64 → Option UInt64} {type : String} {stmt : Stmt}
    {weakC condC : ℕ} {n n' : Numbering} {st st' : List Ent}
    (hn : Numbering.visit toPhys type stmt n = some n')
    (h : visit (fun _ => true) weakC condC 0 (ofStmt stmt) st = some st')
    (hnames : n.symtab.map Made.name = st.map Ent.name) :
    n'.symtab.map Made.name = st'.map Ent.name := by
  induction stmt generalizing weakC condC n n' st st' with
  | skip =>
    cases hn
    cases h
    exact hnames
  | seq a b iha ihb =>
    obtain ⟨n₁, hn₁, hn₂⟩ := Option.bind_eq_some_iff.mp hn
    obtain ⟨st₁, h₁, h₂⟩ := Option.bind_eq_some_iff.mp h
    exact ihb hn₂ h₂ (iha hn₁ h₁ hnames)
  | decl d =>
    cases hn
    refine (names_declare _ _).trans ?_
    rw [names_decl h, ← hnames]
    rfl
  | func f args =>
    obtain ⟨b, -, rfl⟩ := Option.map_eq_some_iff.mp hn
    rw [ofStmt, visit] at h
    split_ifs at h
    cases h
    exact hnames
  | ifThen c t iht =>
    obtain ⟨n₁, b, hn₁, -, rfl⟩ := Numbering.visit_ifThen hn
    have hbranch := iht hn₁ h hnames
    exact hbranch
  | ifElse c t e iht ihe =>
    obtain ⟨n₁, n₂, b₁, b, hn₁, -, hn₂, -, rfl⟩ := Numbering.visit_ifElse hn
    obtain ⟨st₁, h₁, h₂⟩ := Option.bind_eq_some_iff.mp h
    have htrue := iht hn₁ h₁ hnames
    have hfalse := ihe hn₂ h₂ htrue
    exact hfalse
  | union name members array =>
    obtain ⟨b, -, rfl⟩ := Option.map_eq_some_iff.mp hn
    rw [ofStmt, visit, if_neg (lt_irrefl 0)] at h
    obtain ⟨st₁, h₁, h₂⟩ := Option.bind_eq_some_iff.mp h
    have hmembers : ((n.ask n.last).addMembers members).symtab.map Made.name = st₁.map Ent.name :=
      names_addMembers h₁ hnames
    refine (names_declare _ _).trans ?_
    rw [names_add h₂, hmembers]

/-- The entries are those that `tt_field_table` numbers. -/
theorem names_getSymTab {toPhys : Disk → UInt64 → Option UInt64} {type : String} {numArgs : ℕ}
    {block : Stmt} {n : Numbering} {st : List Ent}
    (hn : Numbering.getSymTab toPhys type numArgs block = some n)
    (h : buildSyms (fun _ => true) (ofStmt block) = some st) :
    n.symtab.map Made.name = st.map Ent.name := by
  obtain ⟨n₁, hn₁, rfl⟩ := Option.map_eq_some_iff.mp hn
  have hinit : (Numbering.init numArgs).symtab.map Made.name = ([] : List Ent).map Ent.name := rfl
  have hnames := names_visit hn₁ h hinit
  exact hnames

/-- `u8 x; union { u8 a; u16 b; } u; if (..) u8 y;` -/
def sampleBlock : TypeStmt :=
  .seq (.decl "u8" "x") (.seq (.union (.seq (.decl "u8" "a") (.decl "u16" "b")) "u")
    (.cond (.decl "u8" "y")))

/-- The entries of the sample. -/
def sampleSyms : List Ent :=
  [⟨"x", false, false⟩, ⟨"a", true, false⟩, ⟨"b", true, false⟩, ⟨"u", false, false⟩, ⟨"y", true, true⟩]

theorem finds_iff_sample : ∃ tt, genInstanceType sampleSyms = some tt ∧
    ∀ name, Finds tt sampleSyms name ↔
      firstIsMember (declared (fun _ => true) false sampleBlock) name = some false ∨
        ∀ other, firstIsMember (declared (fun _ => true) false sampleBlock) other ≠ some true :=
  finds_iff (show buildSyms (fun _ => true) sampleBlock = some sampleSyms by decide)

/-- The search for the member `a` reads two entries behind the three of the table. -/
theorem not_finds_member : ∃ tt, buildSyms (fun _ => true) sampleBlock = some sampleSyms ∧
    genInstanceType sampleSyms = some tt ∧ tt.fieldC = 5 ∧ tt.fieldAllThunkoff = ["x", "u", "y"] ∧
      findField tt "a" = .error .fault ∧ ¬ Finds tt sampleSyms "a" := by
  refine ⟨⟨5, ["x", "u", "y"]⟩, by decide, by decide, rfl, rfl, by decide, ?_⟩
  rintro ⟨r, hr, -⟩
  have hfault : findField ⟨5, ["x", "u", "y"]⟩ "a" = .error .fault := by decide
  rw [hfault] at hr
  cases hr

end Fsl.FieldTable
