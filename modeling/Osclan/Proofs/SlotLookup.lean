/-
  File:      Osclan/Proofs/SlotLookup.lean
  Subject:   Scopes answer with the sizes that are declared.

  `Lookup.lean` compares scopes and declarations by names and fields alone. Here the declared sizes
  are compared too, and procedures with their parameters and results.

  * `Slot.HasType` -- a type of the check has the name, the size and the fields of a slot;
  * `Knows` -- a stack and the declarations before a place agree;
  * `KnowsTop`, `KnowsBody` -- the same between two items and between two statements;
  * `KnowsTop.declareType`, `KnowsTop.declareProcedure`, … -- what a declaration adds on both sides;
  * `Field.adds`, `Field.addsAll` -- a record has the fields it is written with.
-/
import Osclan.Proofs.LiteralStore
import Osclan.Proofs.Lookup
import Osclan.Proofs.SourceNames

namespace Osclan

/-! ## 1. Slots and types -/

/-- The type has the name, the size and the fields of the slot. -/
inductive Slot.HasType : Slot → Ty → Prop where
  | mk {name : String} {size : UInt64} {fields : List (String × Slot)} {types : Table Ty} :
      List.Forall₂ (Keyed Slot.HasType) fields types →
      Slot.HasType ⟨name, size, fields⟩ ⟨name, size, types⟩

namespace Slot.HasType

variable {t : Slot} {ty : Ty}

theorem name (h : t.HasType ty) : ty.name = t.name := by
  cases h
  rfl

theorem size (h : t.HasType ty) : ty.size = t.size := by
  cases h
  rfl

theorem isComposite (h : t.HasType ty) : ty.isComposite = !t.isElementary := by
  cases h with
  | mk hf => cases hf <;> rfl

theorem isNumeric (h : t.HasType ty) : ty.isNumeric = t.isNumeric := by
  rw [Ty.isNumeric, Slot.isNumeric, h.isComposite, h.name, Bool.not_not]

theorem sized (h : t.HasType ty) (size : UInt64) :
    ({ t with size } : Slot).HasType { ty with size } := by
  cases h with
  | mk hf => exact .mk hf

/-- **A type has the fields of its slot**, under plain names. -/
theorem field (h : t.HasType ty) {name : String} (hn : Name.Plain name) :
    Option.Rel Slot.HasType (t.field? name) (ty.field? name) := by
  cases h with
  | mk hf => exact lookup_related hf hn

end Slot.HasType

/-- The procedure has the result and the parameters of the signature. -/
structure Signature.Of (sig : Signature) (p : Procedure) : Prop where
  returns : Option.Rel Slot.HasType sig.returns p.returns
  params : List.Forall₂ (fun q v => q.1.HasType v.type ∧ v.pointer = q.2) sig.params p.params

/-! ## 2. Stacks and declarations -/

/-- **The stack answers as the declarations do**, for plain names: a type it knows is that of the
    name, and it knows the variables and procedures that are declared and no others. -/
structure Knows (st : ScopeStack) (d : Decls) : Prop where
  types : ∀ {name : String} {ty : Ty}, Name.Plain name → st.lookupType? name = some ty →
    (d.slot ⟨name, none, false⟩).HasType ty
  vars : ∀ {name : String}, Name.Plain name →
    Option.Rel (fun t v => t.HasType v.type) (d.slotOf? name) (st.lookupVariable? name)
  procs : ∀ {name : String}, Name.Plain name →
    Option.Rel Signature.Of (d.procs.lookup name) (st.lookupProcedure? name)

/-- Between two items. -/
structure KnowsTop (st : ScopeStack) (d : Decls) : Prop where
  knows : Knows st d
  top : st.AtTop
  outside : d.locals = []

/-- One scope is open inside the given ones. -/
def ScopeStack.Around (outer st : ScopeStack) : Prop :=
  ∃ sc, st = { outer with inner := sc :: outer.inner }

/-- Between two statements: one scope is open inside the given ones, and the procedure is one with
    the result of the declarations. -/
structure KnowsBody (outer : ScopeStack) (s : Analyzer) (d : Decls) : Prop where
  knows : Knows s.scopes d
  inner : outer.Around s.scopes
  result : ∃ p, s.procedure = some p ∧ Option.Rel Slot.HasType d.result p.returns

theorem lookup_cons_if {α : Type} (name key : String) (a : α) (l : List (String × α)) :
    ((key, a) :: l).lookup name = if name = key then some a else l.lookup name := by
  rw [List.lookup_cons]
  by_cases h : name = key
  · rw [if_pos h, beq_iff_eq.mpr h]
  · rw [if_neg h, beq_eq_false_iff_ne.mpr h]

theorem Knows.fresh : Knows ScopeStack.fresh {} := by
  refine ⟨fun hn hl => ?_, fun _ => .none, fun _ => .none⟩
  rw [lookupType?_fresh hn hl]
  exact .mk .nil

theorem Knows.same {st st' : ScopeStack} {d : Decls} (h : Knows st d) (hst : st' = st) :
    Knows st' d := by
  rw [hst]
  exact h

/-- An open scope without entries is not seen. -/
theorem Knows.push {st : ScopeStack} {d : Decls} (h : Knows st d) : Knows st.push d :=
  ⟨fun hn hl => h.types hn hl, fun hn => h.vars hn, fun hn => h.procs hn⟩

/-- What a procedure returns is no part of what the stack answers. -/
theorem Knows.returning {st : ScopeStack} {d : Decls} (h : Knows st d) (result : Option Slot) :
    Knows st { d with result } :=
  ⟨fun hn hl => h.types hn hl, fun hn => h.vars hn, fun hn => h.procs hn⟩

theorem lookupProcedure?_declareVariable {st st' : ScopeStack} {v : Variable}
    (h : st.declareVariable v = .ok st') (name : String) :
    st'.lookupProcedure? name = st.lookupProcedure? name := by
  obtain ⟨_, rfl⟩ := ScopeStack.declareVariable_ok.mp h
  rcases st with ⟨root, inner⟩
  cases inner with
  | nil => rfl
  | cons sc rest => rfl

/-- **A variable declared on both sides**: it hides what the name stood for, and nothing else
    changes. -/
theorem Knows.declareVariable {st st' : ScopeStack} {d d' : Decls} {v : Variable} {t : Slot}
    (h : Knows st d) (hd : st.declareVariable v = .ok st') (hv : Name.Plain v.name)
    (ht : t.HasType v.type) (hrecords : d'.records = d.records) (hprocs : d'.procs = d.procs)
    (hslots : ∀ name, d'.slotOf? name = if name = v.name then some t else d.slotOf? name) :
    Knows st' d' := by
  constructor
  · intro name ty hn hl
    rw [lookupType?_declareVariable hd] at hl
    rw [Decls.slot, hrecords]
    exact h.types hn hl
  · intro name hn
    rw [lookupVariable?_declareVariable hd, hslots]
    by_cases hname : name = v.name
    · rw [if_pos hname, if_pos (by rw [hname]; rfl)]
      exact .some ht
    · have hm : ¬ Name.mangle name = v.mangled := fun e => hname (hn.mangle_inj hv e)
      rw [if_neg hname, if_neg hm]
      exact h.vars hn
  · intro name hn
    rw [lookupProcedure?_declareVariable hd, hprocs]
    exact h.procs hn

theorem KnowsTop.fresh : KnowsTop ScopeStack.fresh {} := ⟨.fresh, ⟨rfl, rfl⟩, rfl⟩

theorem KnowsTop.declareVariable {st st' : ScopeStack} {d : Decls} {v : Variable} {t : Slot}
    (h : KnowsTop st d) (hd : st.declareVariable v = .ok st') (hv : Name.Plain v.name)
    (ht : t.HasType v.type) : KnowsTop st' (d.addGlobal v.name t) := by
  refine ⟨h.knows.declareVariable hd hv ht rfl rfl fun name => ?_, ?_, h.outside⟩
  · unfold Decls.slotOf? Decls.addGlobal
    rw [h.outside]
    exact lookup_cons_if name v.name t d.globals
  · obtain ⟨_, rfl⟩ := ScopeStack.declareVariable_ok.mp hd
    rw [ScopeStack.modifyInnermost, h.top.inner]
    exact ⟨rfl, h.top.depth⟩

theorem KnowsBody.declareVariable {outer : ScopeStack} {s s' : Analyzer} {d : Decls} {v : Variable}
    {t : Slot} (h : KnowsBody outer s d) (hd : s.scopes.declareVariable v = .ok s'.scopes)
    (hp : s'.procedure = s.procedure) (hv : Name.Plain v.name) (ht : t.HasType v.type) :
    KnowsBody outer s' (d.addLocal v.name t) := by
  refine ⟨h.knows.declareVariable hd hv ht rfl rfl fun name => ?_, ?_, ?_⟩
  · exact lookup_cons_if name v.name t (d.locals ++ d.globals)
  · obtain ⟨_, hst⟩ := ScopeStack.declareVariable_ok.mp hd
    obtain ⟨sc, hsc⟩ := h.inner
    rw [hst, hsc]
    exact ⟨_, rfl⟩
  · rw [hp]
    exact h.result

/-- **A record declared on both sides**, from the scope of the record, which is closed right
    after. -/
theorem KnowsTop.declareType {st st' : ScopeStack} {d : Decls} {name : String}
    {fields : List (String × Slot)} {ty : Ty} (h : KnowsTop st d)
    (hd : st.push.declareType ty = .ok st') (hn : Name.Plain name)
    (ht : (Slot.mk name 0 fields).HasType ty) : KnowsTop st'.pop.2 (d.addRecord name fields) := by
  obtain ⟨outer, htop, rfl, htypes, hvars, hprocs⟩ := h.top.lookup_declareType hd
  refine ⟨⟨fun {other t} hother hl => ?_, fun {other} hother => ?_, fun {other} hother => ?_⟩, htop,
    h.outside⟩
  · have hfind : outer.lookupType? other = some t := hl
    rw [htypes, ht.name] at hfind
    simp only [Decls.slot, Decls.addRecord, lookup_cons_if, Option.getD_none]
    by_cases hname : other = name
    · rw [if_pos (by rw [hname])] at hfind
      rw [if_pos hname, ← Option.some.inj hfind, hname]
      exact ht
    · have hm : ¬ Name.mangle other = Name.mangle name := fun e => hname (hother.mangle_inj hn e)
      rw [if_neg hm] at hfind
      rw [if_neg hname]
      exact h.knows.types hother hfind
  · show Option.Rel _ _ (outer.lookupVariable? other)
    rw [hvars]
    exact h.knows.vars hother
  · show Option.Rel _ _ (outer.lookupProcedure? other)
    rw [hprocs]
    exact h.knows.procs hother

/-- **A procedure declared on both sides**, outside of its own scope. -/
theorem KnowsTop.declareProcedure {st st' : ScopeStack} {d : Decls} {p : Procedure}
    {sig : Signature} (h : KnowsTop st d) (hd : st.push.declareProcedure p = .ok st')
    (hn : Name.Plain p.name) (hs : sig.Of p) :
    ∃ outer, st' = outer.push ∧ KnowsTop outer (d.addProc p.name sig) := by
  obtain ⟨outer, htop, rfl, hprocs, hvars, htypes⟩ := h.top.lookup_declareProcedure hd
  refine ⟨outer, rfl, ⟨fun hother hl => ?_, fun hother => ?_, fun {other} hother => ?_⟩, htop,
    h.outside⟩
  · rw [htypes] at hl
    exact h.knows.types hother hl
  · rw [hvars]
    exact h.knows.vars hother
  · rw [hprocs, Decls.addProc, lookup_cons_if]
    by_cases hname : other = p.name
    · rw [if_pos hname, if_pos (by rw [hname]; rfl)]
      exact .some hs
    · have hm : ¬ Name.mangle other = p.mangled := fun e => hname (hother.mangle_inj hn e)
      rw [if_neg hname, if_neg hm]
      exact h.knows.procs hother

/-! ## 3. Written types -/

/-- The name in the label of a tree of plain names is plain. -/
theorem Node.Named.plain {n : Node} (h : n.Named Name.Plain) (hn : n.label.naming = true) :
    Name.Plain n.value := by
  rcases h.label.value hn with he | hp
  · rw [Node.value, he]
    decide
  · exact hp

section

variable {st : ScopeStack} {d : Decls}

theorem resolveType_hasType (h : Knows st d) {type : TypeExpr} (hn : Name.Plain type.name)
    {ty : Ty} (hr : resolveType st type.name type.size = .ok ty) : (d.slot type).HasType ty := by
  rcases type with ⟨name, size, pointer⟩
  unfold resolveType at hr
  cases hl : st.lookupType? name with
  | none =>
    rw [hl] at hr
    cases hr
  | some t =>
    have ht := h.types hn hl
    rw [hl] at hr
    cases size with
    | none =>
      cases hr
      exact ht
    | some size =>
      cases hr
      exact ht.sized size

/-- The type of a label that was made for a written type. -/
theorem declaredType_hasType (h : Knows st d) {l : Label} {type : TypeExpr}
    (hn : Name.Plain type.name) {ty : Ty} (hr : declaredType st (l.typedAs type.label) = .ok ty) :
    (d.slot type).HasType ty :=
  resolveType_hasType h hn hr

mutual

/-- **A field adds to its record what it writes.** -/
theorem Field.adds (h : Knows st d) : ∀ (parent : String) (f : Field),
    (f.toNode parent).Named Name.Plain → ∀ {fields out : Table Ty} {rest : List Node},
    recordFields st fields (f.toNode parent :: rest) = .ok out →
    ∃ ty, Keyed Slot.HasType (d.field f) (Name.mangle (d.field f).1, ty) ∧
      recordFields st (fields ++ [(Name.mangle (d.field f).1, ty)]) rest = .ok out
  | parent, .plain type name, hn, fields, out, rest, hr => by
    rw [Field.toNode] at hn hr
    rw [Decls.field]
    have hname : Name.Plain name := hn.plain rfl
    have htype : Name.Plain type.name := (hn.children type.toNode List.mem_cons_self).plain rfl
    unfold recordFields at hr
    obtain ⟨ty, hty, hr⟩ := except_bind_ok hr
    obtain ⟨fields', hadd, hr⟩ := except_bind_ok hr
    rw [addField_ok hadd] at hr
    exact ⟨ty, .mk hname (resolveType_hasType h htype hty), hr⟩
  | parent, .nested name fs, hn, fields, out, rest, hr => by
    rw [Field.toNode] at hn hr
    rw [Decls.field]
    have hname : Name.Plain name := hn.plain rfl
    unfold recordFields at hr
    obtain ⟨ty, hty, hr⟩ := except_bind_ok hr
    obtain ⟨fields', hadd, hr⟩ := except_bind_ok hr
    rw [addField_ok hadd] at hr
    rw [recordType] at hty
    obtain ⟨inner, hinner, hty⟩ := except_bind_ok hty
    cases hty
    rw [← List.append_nil (Field.toNodes _ fs)] at hinner
    obtain ⟨mid, hmid, hinner⟩ := Field.addsAll h _ fs hn.children .nil hinner
    unfold recordFields at hinner
    rw [← Except.ok.inj hinner] at hr
    exact ⟨_, .mk hname (.mk hmid), hr⟩

theorem Field.addsAll (h : Knows st d) : ∀ (parent : String) (fs : List Field),
    (∀ n ∈ Field.toNodes parent fs, n.Named Name.Plain) →
    ∀ {before : List (String × Slot)} {fields out : Table Ty} {rest : List Node},
    List.Forall₂ (Keyed Slot.HasType) before fields →
    recordFields st fields (Field.toNodes parent fs ++ rest) = .ok out →
    ∃ mid, List.Forall₂ (Keyed Slot.HasType) (before ++ d.fields fs) mid ∧
      recordFields st mid rest = .ok out
  | parent, [], _, before, fields, out, rest, hf, hr => by
    rw [Decls.fields, List.append_nil]
    exact ⟨fields, hf, hr⟩
  | parent, f :: fs, hn, before, fields, out, rest, hf, hr => by
    rw [Field.toNodes] at hn hr
    obtain ⟨hfirst, hrest⟩ := List.forall_mem_cons.mp hn
    obtain ⟨ty, hty, hr⟩ := Field.adds h parent f hfirst hr
    have hone := List.rel_append hf (.cons hty .nil)
    obtain ⟨mid, hmid, hr⟩ := Field.addsAll h parent fs hrest hone hr
    rw [List.append_assoc] at hmid
    rw [Decls.fields]
    exact ⟨mid, hmid, hr⟩

end

end

end Osclan
