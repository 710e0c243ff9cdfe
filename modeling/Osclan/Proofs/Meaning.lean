/-
  File:      Osclan/Proofs/Meaning.lean
  Subject:   What a declaration means, as it is written, given a table of types.

  A written type means the type that the table has under its name, with the written size if there is
  one. From this follows what a field, a record, a variable and the heading of a procedure mean. No
  scope occurs here but the table, so that what is declared early and what is declared late can be
  read off one table: a table that grows at its end keeps every meaning.

  * `TypeExpr.Means`, `Field.Means` -- types and fields;
  * `Record.Means`, `Binding.Means`, `Heading.Means` -- what an item or a statement declares;
  * `Entered` -- an entry under the key of a name;
  * `Field.Means.mono`, `Binding.Means.mono`, `Heading.Means.mono` -- growing tables;
  * `resolveType_means`, `recordType_means`, `declareWith_binds` -- the check finds what is meant.
-/
import Osclan.Proofs.LeafSum
import Osclan.Proofs.Outcome
import Osclan.Proofs.StoreCheck

namespace Osclan

/-! ## 1. Meanings -/

/-- The type that a written type means: the one of its name, with the written size in place of its
    own. -/
def TypeExpr.Means (types : Table Ty) (type : TypeExpr) (t : Ty) : Prop :=
  ∃ base, types.find? (Name.mangle type.name) = some base ∧
    t = { base with size := type.size.getD base.size }

/-- The entry that a field of a record means. A record nested in another means a type of its own,
    which no table holds. -/
inductive Field.Means (types : Table Ty) : Field → String × Ty → Prop where
  | plain {type : TypeExpr} {name : String} {t : Ty} :
      type.Means types t → Field.Means types (.plain type name) (Name.mangle name, t)
  | nested {name : String} {fields : List Field} {parts : List (String × Ty)} :
      List.Forall₂ (Field.Means types) fields parts →
      Field.Means types (.nested name fields) (Name.mangle name, ⟨name, 0, parts⟩)

/-- A record as it is written. -/
structure Record where
  name : String
  fields : List Field

/-- The type of a record has no size of its own, and the fields that are written. -/
structure Record.Means (types : Table Ty) (r : Record) (t : Ty) : Prop where
  name : t.name = r.name
  size : t.size = 0
  fields : List.Forall₂ (Field.Means types) r.fields t.fields

/-- A variable as it is written: its type, its name, and the length of the literal it starts with,
    if it does. -/
structure Binding where
  type : TypeExpr
  name : String
  start : Option UInt64

/-- The type of a variable that starts with a literal of the given length, or without one: an
    elementary type without a size takes that of the literal. -/
def Ty.startingAt (t : Ty) : Option UInt64 → Ty
  | some length => if !t.isComposite && t.size = 0 then { t with size := length } else t
  | none => t

/-- The variable that is meant. Its size is the leaf sum of its type. -/
structure Binding.Means (types : Table Ty) (b : Binding) (v : Variable) : Prop where
  name : v.name = b.name
  pointer : v.pointer = b.type.pointer
  type : ∃ t, b.type.Means types t ∧ v.type = t.startingAt b.start
  size : v.size.toNat = v.type.leafSum

/-- The variable of a parameter, which starts with no literal. -/
def Param.binding (p : Param) : Binding := ⟨p.type, p.name, none⟩

/-- The heading of a procedure. -/
structure Heading where
  returns : TypeExpr
  name : String
  params : List Param

/-- The procedure that a heading means: it returns nothing exactly if the type that is written is
    `void`, in capital or small letters. -/
structure Heading.Means (types : Table Ty) (h : Heading) (p : Procedure) : Prop where
  name : p.name = h.name
  returns_none : p.returns = none ↔ h.returns.name.toList.map Char.toLower = "void".toList
  returns_some : ∀ t, p.returns = some t → h.returns.Means types t
  params : List.Forall₂ (Binding.Means types) (h.params.map Param.binding) p.params

/-- An entry under the key of the name of what it is for. -/
structure Entered {α β : Type} (name : α → String) (R : α → β → Prop) (a : α) (e : String × β) :
    Prop where
  key : e.1 = Name.mangle (name a)
  value : R a e.2

theorem map_eq_map_of_forall₂ {α β γ : Type} {R : α → β → Prop} {f : α → γ} {g : β → γ}
    {as : List α} {bs : List β} (h : List.Forall₂ R as bs) (hr : ∀ a b, R a b → g b = f a) :
    bs.map g = as.map f := by
  induction h with
  | nil => rfl
  | cons hab _ ih => rw [List.map_cons, List.map_cons, hr _ _ hab, ih]

/-- The keys of entries are those of the names, in order. -/
theorem Entered.keys {α β : Type} {name : α → String} {R : α → β → Prop} {as : List α}
    {t : Table β} (h : List.Forall₂ (Entered name R) as t) :
    t.map Prod.fst = as.map fun a => Name.mangle (name a) :=
  map_eq_map_of_forall₂ h fun _ _ he => he.key

/-! ## 2. Growing tables -/

section Growing

variable {types types' : Table Ty}

/-- A table that grows at its end answers as before where it has an answer. -/
theorem Table.find?_of_isPrefix {α : Type} {t t' : Table α} (h : t <+: t') {key : String} {a : α}
    (ha : t.find? key = some a) : t'.find? key = some a := by
  obtain ⟨more, rfl⟩ := h
  have hfound : t.lookup key = some a := ha
  show (t ++ more).lookup key = some a
  rw [List.lookup_append, hfound]
  rfl

theorem TypeExpr.Means.mono (hp : types <+: types') {type : TypeExpr} {t : Ty}
    (h : type.Means types t) : type.Means types' t := by
  obtain ⟨base, hbase, ht⟩ := h
  exact ⟨base, Table.find?_of_isPrefix hp hbase, ht⟩

mutual

theorem Field.Means.mono (hp : types <+: types') : ∀ (f : Field) {e : String × Ty},
    f.Means types e → f.Means types' e
  | .plain type name, e, h => by
    cases h with
    | plain ht => exact .plain (ht.mono hp)
  | .nested name fields, e, h => by
    cases h with
    | nested hfields => exact .nested (Field.Means.monoAll hp fields hfields)

theorem Field.Means.monoAll (hp : types <+: types') : ∀ (fields : List Field)
    {parts : List (String × Ty)}, List.Forall₂ (Field.Means types) fields parts →
    List.Forall₂ (Field.Means types') fields parts
  | [], parts, h => by
    cases h
    exact .nil
  | f :: rest, parts, h => by
    cases h with
    | cons hf hrest => exact .cons (Field.Means.mono hp f hf) (Field.Means.monoAll hp rest hrest)

end

theorem Record.Means.mono (hp : types <+: types') {r : Record} {t : Ty} (h : r.Means types t) :
    r.Means types' t :=
  ⟨h.name, h.size, Field.Means.monoAll hp _ h.fields⟩

theorem Binding.Means.mono (hp : types <+: types') {b : Binding} {v : Variable}
    (h : b.Means types v) : b.Means types' v := by
  obtain ⟨t, ht, hv⟩ := h.type
  exact ⟨h.name, h.pointer, ⟨t, ht.mono hp, hv⟩, h.size⟩

theorem Heading.Means.mono (hp : types <+: types') {h : Heading} {p : Procedure}
    (hm : h.Means types p) : h.Means types' p :=
  ⟨hm.name, hm.returns_none, fun t ht => (hm.returns_some t ht).mono hp,
    hm.params.imp fun _ _ hv => hv.mono hp⟩

theorem Entered.imp {α β : Type} {name : α → String} {R R' : α → β → Prop} {a : α} {e : String × β}
    (h : Entered name R a e) (hr : ∀ b, R a b → R' a b) : Entered name R' a e :=
  ⟨h.key, hr _ h.value⟩

end Growing

/-! ## 3. Types that the check resolves -/

/-- The types that can be seen are those of the table. -/
def ScopeStack.TypedBy (st : ScopeStack) (types : Table Ty) : Prop :=
  ∀ name, st.lookupType? name = types.find? (Name.mangle name)

/-- Types are declared in the root only, so it alone answers. -/
theorem ScopeStack.typedBy_root {root : Scope} {inner : List Scope}
    (h : ∀ sc ∈ inner, sc.types = []) : (ScopeStack.mk root inner).TypedBy root.types := by
  intro name
  have hnone : inner.findSome? (fun sc => sc.types.find? (Name.mangle name)) = none :=
    List.findSome?_eq_none_iff.mpr fun sc hsc => by
      rw [h sc hsc]
      rfl
  show (inner ++ [root]).findSome? (fun sc => sc.types.find? (Name.mangle name)) = _
  rw [List.findSome?_append, hnone, List.findSome?_singleton]
  rfl

section Resolving

variable {st : ScopeStack} {types : Table Ty}

/-- What is known of a written type depends on the types that can be seen. -/
theorem resolveType_congr {st' : ScopeStack} (h : st'.lookupType? = st.lookupType?) (name : String)
    (size : Option UInt64) : resolveType st' name size = resolveType st name size := by
  unfold resolveType
  rw [h]

theorem resolveType_means (hst : st.TypedBy types) {type : TypeExpr} {t : Ty}
    (h : resolveType st type.name type.size = .ok t) : type.Means types t := by
  rcases type with ⟨name, size, pointer⟩
  unfold resolveType at h
  cases hl : st.lookupType? name with
  | none =>
    rw [hl] at h
    cases h
  | some base =>
    have hfound := hst name
    rw [hl] at hfound h
    cases size with
    | none =>
      cases h
      refine ⟨t, hfound.symm, ?_⟩
      cases t
      rfl
    | some size =>
      cases h
      exact ⟨base, hfound.symm, rfl⟩

theorem resultType_means (hst : st.TypedBy types) {l : Label} {type : TypeExpr} {rest : List Node}
    {r : Option Ty} (h : resultType st l (type.toNode :: rest) = .ok r) :
    (r = none ↔ type.name.toList.map Char.toLower = "void".toList) ∧
      ∀ t, r = some t → type.Means types t := by
  rw [resultType, List.head?_cons] at h
  simp only [show type.toNode.kind = .typeExpr from rfl, if_true] at h
  by_cases hv : isVoid type.name = true
  · rw [show type.toNode.value = type.name from rfl, if_pos hv] at h
    cases h
    refine ⟨⟨fun _ => beq_iff_eq.mp hv, fun _ => rfl⟩, fun t ht => ?_⟩
    cases ht
  · rw [show type.toNode.value = type.name from rfl, if_neg hv] at h
    cases ht : resolveType st type.name type.toNode.label.size with
    | error f =>
      rw [ht] at h
      cases h
    | ok t =>
      rw [ht] at h
      cases h
      refine ⟨⟨fun e => ?_, fun e => absurd (beq_iff_eq.mpr e) hv⟩, fun t' ht' => ?_⟩
      · cases e
      · cases ht'
        exact resolveType_means hst ht

mutual

/-- **A field adds to its record the entry it means.** -/
theorem Field.entry (hst : st.TypedBy types) : ∀ (parent : String) (f : Field)
    {fields out : Table Ty} {rest : List Node},
    recordFields st fields (f.toNode parent :: rest) = .ok out →
    ∃ e, f.Means types e ∧ recordFields st (fields ++ [e]) rest = .ok out
  | parent, .plain type name, fields, out, rest, h => by
    rw [Field.toNode] at h
    unfold recordFields at h
    obtain ⟨t, ht, h⟩ := except_bind_ok h
    obtain ⟨fields', hadd, h⟩ := except_bind_ok h
    rw [addField_ok hadd] at h
    exact ⟨_, .plain (resolveType_means hst ht), h⟩
  | parent, .nested name fs, fields, out, rest, h => by
    rw [Field.toNode] at h
    unfold recordFields at h
    obtain ⟨t, ht, h⟩ := except_bind_ok h
    obtain ⟨fields', hadd, h⟩ := except_bind_ok h
    rw [addField_ok hadd] at h
    rw [recordType] at ht
    obtain ⟨inner, hinner, ht⟩ := except_bind_ok ht
    cases ht
    rw [← List.append_nil (Field.toNodes _ fs)] at hinner
    obtain ⟨parts, hparts, hinner⟩ := Field.entries hst _ fs hinner
    unfold recordFields at hinner
    cases hinner
    exact ⟨_, .nested hparts, h⟩

theorem Field.entries (hst : st.TypedBy types) : ∀ (parent : String) (fs : List Field)
    {fields out : Table Ty} {rest : List Node},
    recordFields st fields (Field.toNodes parent fs ++ rest) = .ok out →
    ∃ parts, List.Forall₂ (Field.Means types) fs parts ∧
      recordFields st (fields ++ parts) rest = .ok out
  | parent, [], fields, out, rest, h => by
    refine ⟨[], .nil, ?_⟩
    rw [List.append_nil]
    exact h
  | parent, f :: fs, fields, out, rest, h => by
    rw [Field.toNodes] at h
    obtain ⟨e, he, h⟩ := Field.entry hst parent f h
    obtain ⟨parts, hparts, h⟩ := Field.entries hst parent fs h
    rw [List.append_assoc] at h
    exact ⟨e :: parts, .cons he hparts, h⟩

end

/-- **A record has the type it means.** -/
theorem recordType_means (hst : st.TypedBy types) {l : Label} {fields : List Field}
    {parent : String} {mods : List String} {t : Ty}
    (h : recordType st ⟨l, Field.toNodes parent fields ++ mods.map modifierNode⟩ = .ok t) :
    Record.Means types ⟨l.value, fields⟩ t := by
  rw [recordType] at h
  obtain ⟨out, hout, h⟩ := except_bind_ok h
  obtain ⟨parts, hparts, hout⟩ := Field.entries hst parent fields hout
  rw [recordFields_modifiers] at hout
  cases hout
  cases h
  exact ⟨rfl, rfl, hparts⟩

end Resolving

/-! ## 4. Variables that the check declares -/

section Declaring

variable {s : Analyzer} {types : Table Ty}

/-- The step declares the variable that is meant, and files nothing. Where it stops it has changed
    no scope. -/
def Check.Binds {α : Type} (step : Check α) (s : Analyzer) (types : Table Ty) (b : Binding) : Prop :=
  step.Runs s
    (fun _ t => ∃ v, b.Means types v ∧ s.scopes.declareVariable v = .ok t.scopes ∧
      t.archive = s.archive)
    fun _ t => t.scopes = s.scopes

/-- The last steps of a declaration: the variable is made, and declared. -/
theorem makeVariable_binds {l : Label} {type : TypeExpr} {t ty : Ty} {start : Option UInt64}
    (hpointer : l.pointer = type.pointer) (ht : type.Means types t) (hty : ty = t.startingAt start) :
    (do
      let v ← Check.makeVariable l.value ty l.pointer
      Check.declare (·.declareVariable v)).Binds s types ⟨type, l.value, start⟩ := by
  refine (Check.Runs.makeVariable rfl).bind ?_
  intro v u hu
  obtain ⟨hv, rfl⟩ := hu
  obtain ⟨hname, hvtype, hvpointer, hsize⟩ := make?_eq_some hv
  refine (Check.Runs.declare fun _ => rfl).imp_ok ?_
  intro _ w hw
  obtain ⟨st, hdeclared, rfl⟩ := hw
  refine ⟨v, ⟨hname, hvpointer.trans hpointer, ⟨t, ht, hvtype.trans hty⟩, ?_⟩, hdeclared, rfl⟩
  rw [hvtype]
  exact hsize

/-- **A parameter declares the variable it means.** -/
theorem declareTyped_binds (hst : s.scopes.TypedBy types) {l : Label} {type : TypeExpr} :
    (declareTyped (l.typedAs type.label)).Binds s types ⟨type, l.value, none⟩ := by
  unfold declareTyped
  refine .bind_scopes (.bind_ofExcept (fun _ => rfl) fun ty hty => ?_)
  exact makeVariable_binds (l := l.typedAs type.label) rfl (resolveType_means hst hty) rfl

/-- **A declaration declares the variable it means.** Storing the literal changes no scope. -/
theorem declareWith_binds (hst : s.scopes.TypedBy types) (l : Label) (type : TypeExpr)
    (literal : Option Ty) :
    (declareWith (l.typedAs type.label) literal).Binds s types
      ⟨type, l.value, literal.map Ty.size⟩ := by
  unfold declareWith
  refine .bind_scopes (.bind_ofExcept (fun _ => rfl) fun ty hty => ?_)
  have hmeans := resolveType_means hst hty
  have hstore : ∀ ty' : Ty, ty' = ty.startingAt (literal.map Ty.size) →
      (do
        Check.assignLiteral ty' (l.typedAs type.label).pointer literal
        let v ← Check.makeVariable (l.typedAs type.label).value ty' (l.typedAs type.label).pointer
        Check.declare (·.declareVariable v)).Binds s types ⟨type, l.value, literal.map Ty.size⟩ := by
    intro ty' hty'
    refine (((Check.Files.assignLiteral ty' _ literal).imp (fun _ _ h => h)
      fun _ _ h => h.1).bind ?_)
    intro _ t ht
    refine (makeVariable_binds (l := l.typedAs type.label) rfl hmeans hty').imp ?_ ?_
    · intro _ u hu
      obtain ⟨v, hv, hscopes, harchive⟩ := hu
      rw [ht.1] at hscopes
      rw [ht.2, List.append_nil] at harchive
      exact ⟨v, hv, hscopes, harchive⟩
    · intro _ u hu
      exact hu.trans ht.1
  cases literal with
  | none => exact hstore ty rfl
  | some source => exact hstore _ rfl

end Declaring

end Osclan
