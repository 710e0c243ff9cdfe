/-
  File:      Osclan/Proofs/StoreCheck.lean
  Subject:   The check looks at every literal that a program stores.

  The walk is followed from item to item, and in a procedure from statement to statement, beside the
  declarations of the program. Between two of them the scopes answer as the declarations do, sizes
  included, so that each literal is compared with the slot that the program says it goes to.

  * `binding_stores`, `Statement.checked`, `Statement.checkedAll` -- statements and bodies;
  * `Field.still`, `Item.checked`, `Item.checkedAll` -- records, procedures and items;
  * `stores_checked` -- the main result.
-/
import Osclan.Proofs.Resolution
import Osclan.Proofs.Sequencing
import Osclan.Proofs.StageContract
import Osclan.Proofs.StoreRuns

namespace Osclan

/-! ## 1. Variables -/

/-- A variable of the name and the slot is declared between the two states. -/
def Analyzer.Declares (s : Analyzer) (name : String) (t : Slot) (s' : Analyzer) : Prop :=
  ∃ v, s.scopes.declareVariable v = .ok s'.scopes ∧ v.name = name ∧ t.HasType v.type

section

variable {s : Analyzer} {d : Decls}

theorem makeVariable_stores {name : String} {t : Slot} {ty : Ty} {pointer : Bool}
    (ht : t.HasType ty) :
    (Check.makeVariable name ty pointer >>= fun v => Check.declare (·.declareVariable v)).Stores s
      [] fun _ u => s.Declares name t u := by
  refine .bind_first .makeVariable ?_
  intro v u hpost
  obtain ⟨hv, rfl⟩ := hpost
  obtain ⟨hname, rfl, _⟩ := Check.fields_of_make? hv
  exact Check.Accounts.declare.imp fun _ w hw => ⟨v, hw, hname, ht⟩

theorem declareTyped_stores {l : Label} {type : TypeExpr} (h : Knows s.scopes d)
    (ht : Name.Plain type.name) :
    (declareTyped (l.typedAs type.label)).Stores s [] fun _ t =>
      s.Declares l.value (d.slot type) t := by
  refine .bind_scopes ?_
  refine .bind_ofExcept (fun _ => declaredType_ne rfl) fun ty hty => ?_
  exact makeVariable_stores (declaredType_hasType h ht hty)

/-- **A variable is declared with the size of its literal** if it has none of its own, and the
    literal is stored in it. -/
theorem declareWith_stores {l : Label} {type : TypeExpr} (value : Value) (h : Knows s.scopes d)
    (ht : Name.Plain type.name) :
    (declareWith (l.typedAs type.label) (value.literal?.map Literal.type)).Stores s
      (value.writeIn .declared type.pointer (some (d.slotWith type value.literal?)))
      fun _ t => s.Declares l.value (d.slotWith type value.literal?) t := by
  refine .bind_scopes ?_
  refine .bind_ofExcept (fun _ => declaredType_ne rfl) fun ty hty => ?_
  have hslot := declaredType_hasType h ht hty
  have hstore : ∀ ty' : Ty, (d.slotWith type value.literal?).HasType ty' →
      (Check.assignLiteral ty' type.pointer (value.literal?.map Literal.type) >>= fun _ =>
        Check.makeVariable l.value ty' type.pointer >>= fun v =>
          Check.declare (·.declareVariable v)).Stores s
        (value.writeIn .declared type.pointer (some (d.slotWith type value.literal?)))
        fun _ t => s.Declares l.value (d.slotWith type value.literal?) t := by
    intro ty' hty'
    refine (Check.Stores.assignLiteral hty' (Bool.and_true type.pointer) value).bind_last ?_
    intro _ w hw
    refine (makeVariable_stores hty').imp ?_
    intro _ x hend
    obtain ⟨v, hv, hpost⟩ := hend
    exact ⟨v, by rw [← hw]; exact hv, hpost⟩
  unfold Value.writeIn Decls.slotWith at hstore ⊢
  generalize value.literal? = lit at hstore ⊢
  cases lit with
  | none => exact hstore ty hslot
  | some x =>
    simp only [Slot.startingWith] at hstore ⊢
    have hcond : (!ty.isComposite && decide (ty.size = 0)) =
        ((d.slot type).isElementary && (d.slot type).size == 0) := by
      rw [hslot.isComposite, hslot.size, Bool.not_not]
      rfl
    simp only [Option.map_some, hcond]
    by_cases hc : ((d.slot type).isElementary && (d.slot type).size == 0) = true
    · simp only [if_pos hc] at hstore ⊢
      exact hstore _ (hslot.sized x.size)
    · simp only [if_neg hc] at hstore ⊢
      exact hstore ty hslot

/-- The value is the second operand, whatever modifiers follow. -/
theorem visitOperand_stores {target n : Node} {mods : List Node} {ws : List Write}
    (ht : target.kind ≠ .modifier) (hn : n.kind ≠ .modifier) (h : (visit n).StoresOnly s ws) :
    (visitOperand 1 (target :: n :: mods)).Stores s ws fun ns t =>
      ∃ n', ns = target :: n' :: mods ∧ visit n s = .ok n' t ∧ t.scopes = s.scopes := by
  have hvalue : (visitOperand 0 (n :: mods)).Stores s ws fun ns t =>
      ∃ n', ns = n' :: mods ∧ visit n s = .ok n' t ∧ t.scopes = s.scopes := by
    unfold visitOperand
    simp only [if_neg hn]
    refine (Check.Accounts.with_ok h).bind_last ?_
    intro n' t hpost
    exact .pure ⟨n', rfl, hpost⟩
  unfold visitOperand
  simp only [if_neg ht]
  refine hvalue.bind_last ?_
  intro _ t hend
  obtain ⟨n', rfl, hpost⟩ := hend
  exact .pure ⟨n', rfl, hpost⟩

/-- **A binding stores its literal in the variable it declares.** -/
theorem binding_stores {type : TypeExpr} {name : String} {value : Value} {mods : List Node}
    (hm : ∀ m ∈ mods, m.IsModifier) (hn : (declarationNode type name value).Named Name.Plain)
    (h : Knows s.scopes d) :
    (visit ⟨(declarationNode type name value).label,
      (declarationNode type name value).children ++ mods⟩).Stores s (d.bindingWrites type value)
      fun _ t => s.Declares name (d.slotWith type value.literal?) t := by
  have hchildren := hn.children
  have hvalue := value.checked (hchildren _ (List.mem_cons_of_mem _ List.mem_cons_self)) h
  have htype : Name.Plain type.name :=
    (hchildren _ List.mem_cons_self).label.typeName type.name rfl
  have hk := value.kind_ne (.inr rfl : NodeKind.modifier = .typeExpr ∨ _)
  have htarget : (Node.mk (({ kind := .reference, value := name } : Label).typedAs type.label)
      []).kind ≠ .modifier := NodeKind.noConfusion
  unfold declarationNode visit
  simp only [List.cons_append, List.nil_append, operandsOf_pair htarget hk hm]
  refine (visitOperand_stores htarget hk hvalue).bind ?_
  intro _ t hpost
  obtain ⟨n', rfl, hvisit, ht⟩ := hpost
  have hk' : n'.kind ≠ .modifier := by
    rw [visit_kind hvisit]
    exact hk
  have hliteral : (operandsOf (⟨({ kind := .reference, value := name } : Label).typedAs type.label,
      []⟩ :: n' :: mods))[1]?.bind literalType? = value.literal?.map Literal.type := by
    rw [operandsOf_pair htarget hk' hm]
    exact Value.literalType?_visit hvisit
  simp only [hliteral]
  refine (declareWith_stores value (h.same ht) htype).bind_last ?_
  intro _ u hend
  obtain ⟨v, hv, hpost⟩ := hend
  exact .pure ⟨v, by rw [← ht]; exact hv, hpost⟩

end

/-! ## 2. Statements -/

section

variable {outer : ScopeStack} {s t : Analyzer} {d : Decls} {m : Pointers}

theorem KnowsBody.same (h : KnowsBody outer s d) (ht : t.scopes = s.scopes)
    (hp : t.procedure = s.procedure) : KnowsBody outer t d := by
  refine ⟨h.knows.same ht, ?_, ?_⟩
  · rw [ht]
    exact h.inner
  · rw [hp]
    exact h.result

theorem KnowsBody.declares {name : String} {x : Slot} (h : KnowsBody outer s d)
    (hv : s.Declares name x t) (hp : t.procedure = s.procedure) (hn : Name.Plain name) :
    KnowsBody outer t (d.addLocal name x) := by
  obtain ⟨v, hd, rfl, hx⟩ := hv
  exact h.declareVariable hd hp hn hx

/-- **An assignment stores its literal in the slot its path leads to**, behind the stores inside the
    value. -/
theorem assignment_stores {target : Path} {value : Value} {isPointer : Bool}
    (hn : (Statement.assign target value).toNode.Named Name.Plain) (h : Knows s.scopes d) :
    (visit (Statement.assign target value).toNode).StoresOnly s
      (value.writes d ++ value.writeIn .assigned isPointer (d.slotAt? target)) := by
  have htarget := hn.children (target.toNode .reference) List.mem_cons_self
  have hvalue := value.checked (hn.children _ (List.mem_cons_of_mem _ List.mem_cons_self)) h
  have hne : ¬ (target.toNode .reference).kind = .field := by
    rw [target.kind_toNode]
    exact NodeKind.noConfusion
  unfold Statement.toNode visit
  simp only [if_neg hne]
  refine (Check.Accounts.with_ok hvalue).bind ?_
  intro n t hpost
  obtain ⟨hvisit, ht⟩ := hpost
  refine .bind_first (target.checked (.inl rfl) htarget (h.same ht)) ?_
  intro r u hpost
  obtain ⟨target', dest⟩ := r
  obtain ⟨hu, hpointer, slot, hslot, htype⟩ := hpost
  have hpointer' : target'.label.pointer = false := hpointer
  simp only [hpointer', Value.literalType?_visit hvisit, hslot]
  refine (Check.Stores.assignLiteral htype (Bool.and_false isPointer) value).bind_last ?_
  intro _ w hw
  exact .pure (hw.trans (hu.trans ht))

theorem bareReturn_stores (h : KnowsBody outer s d) :
    (visit (Statement.ret none).toNode).StoresOnly s [] := by
  obtain ⟨⟨name, returns, params⟩, hproc, _⟩ := h.result
  unfold Statement.toNode visit
  simp only [Option.map_none, Option.toList_none]
  unfold visitAll checkReturn
  simp only [pure_bind, bind_assoc]
  refine .bind_get ?_
  simp only [hproc]
  cases returns with
  | none => exact .pure rfl
  | some dest => exact .bind_refuse fun _ => Fault.noConfusion

/-- **A return stores its literal in the result of the procedure.** -/
theorem return_stores {v : Value} {isPointer : Bool} (hn : v.toNode.Named Name.Plain)
    (h : KnowsBody outer s d) :
    (visit (Statement.ret (some v)).toNode).StoresOnly s
      (v.writes d ++ v.writeIn .returned isPointer d.result) := by
  obtain ⟨⟨name, returns, params⟩, hproc, hrel⟩ := h.result
  unfold Statement.toNode visit
  simp only [Option.map_some, Option.toList_some]
  unfold visitAll visitAll checkReturn
  simp only [pure_bind, bind_assoc]
  refine (Check.Accounts.with_procedure (Check.Accounts.with_ok (v.checked hn h.knows))).bind ?_
  intro n t hpost
  obtain ⟨⟨hvisit, ht⟩, hp⟩ := hpost
  refine .bind_get ?_
  simp only [hp, hproc, List.head?_cons]
  generalize d.result = result at hrel ⊢
  cases hrel with
  | none => exact .bind_refuse fun _ => Fault.noConfusion
  | some htype =>
    simp only [Value.literalType?_visit hvisit]
    refine (Check.Stores.assignLiteral htype (Bool.and_false isPointer) v).bind_last ?_
    intro _ w hw
    exact .pure (hw.trans ht)

/-- **A statement makes its stores**, and what follows it sees what it declares. -/
theorem Statement.checked (st : Statement) (hn : st.toNode.Named Name.Plain)
    (h : KnowsBody outer s d) :
    (visit st.toNode).Stores s (st.writes d m) fun _ t => KnowsBody outer t (d.behind st) := by
  have hkeep : ∀ {n : Node} {ws : List Write}, (visit n).StoresOnly s ws →
      (visit n).Stores s ws fun _ t => KnowsBody outer t d := by
    intro n ws hvisit
    exact (Check.Accounts.with_procedure hvisit).imp fun _ _ ht => h.same ht.1 ht.2
  cases st with
  | declare type name value =>
    have hname : Name.Plain name := (hn.children _ List.mem_cons_self).plain rfl
    have hbinding := binding_stores (fun m hm => absurd hm List.not_mem_nil) hn h.knows
    rw [List.append_nil] at hbinding
    refine hbinding.with_procedure.imp ?_
    intro _ t hpost
    obtain ⟨hv, hp⟩ := hpost
    exact h.declares hv hp hname
  | assign target value => exact hkeep (assignment_stores hn h.knows)
  | ret value =>
    refine hkeep ?_
    cases value with
    | none => exact bareReturn_stores h
    | some v => exact return_stores (hn.children _ List.mem_cons_self) h
  | print value =>
    refine hkeep ?_
    have hvalue := value.checked (hn.children _ List.mem_cons_self) h.knows
    unfold Statement.toNode visit visitAll visitAll
    simp only [pure_bind, bind_assoc]
    refine Check.Accounts.bind_last hvalue ?_
    intro n t ht
    exact .pure ht
  | call name args => exact hkeep ((Value.call name args).checked hn h.knows)

/-- **A body makes the stores of its statements**, each with what those before it declare. -/
theorem Statement.checkedAll : ∀ (body : List Statement),
    (∀ n ∈ body.map Statement.toNode, n.Named Name.Plain) →
    ∀ {s : Analyzer} {d : Decls} {m : Pointers}, KnowsBody outer s d →
    (visitAll (body.map Statement.toNode)).Stores s (Statement.writesAll d m body) fun _ t =>
      ∃ d', KnowsBody outer t d'
  | [], _, s, d, m, h => by
    rw [List.map_nil, Statement.writesAll]
    unfold visitAll
    exact .pure ⟨d, h⟩
  | st :: rest, hn, s, d, m, h => by
    obtain ⟨hfirst, hrest⟩ := List.forall_mem_cons.mp hn
    rw [List.map_cons, Statement.writesAll]
    unfold visitAll
    refine (st.checked hfirst h).bind ?_
    intro n t ht
    refine (Statement.checkedAll rest hrest ht).bind_last ?_
    intro ns u hu
    exact .pure hu

end

/-! ## 3. Procedures -/

section

variable {s : Analyzer} {d : Decls} {m : Pointers}

theorem visitAll_append_stores {ns ms : List Node} {ws more : List Write}
    {mid post : List Node → Analyzer → Prop} (h : (visitAll ns).Stores s ws mid)
    (h' : ∀ ns' t, mid ns' t → (visitAll ms).Stores t more fun ms' u => post (ns' ++ ms') u) :
    (visitAll (ns ++ ms)).Stores s (ws ++ more) post := by
  rw [visitAll_append]
  refine h.bind ?_
  intro ns' t ht
  refine (h' ns' t ht).bind_last ?_
  intro ms' u hu
  exact .pure hu

theorem typeNode_stores (type : TypeExpr) :
    (visit type.toNode).Stores s [] fun n t => n = type.toNode ∧ t = s := by
  unfold TypeExpr.toNode visit
  have hk : type.label.kind = .typeExpr := rfl
  simp only [hk]
  split
  · exact .pure ⟨rfl, rfl⟩
  · refine .bind_scopes ?_
    refine .bind_ofExcept (fun _ => resolveType_ne rfl) fun ty _ => ?_
    exact .pure ⟨rfl, rfl⟩

theorem modifiers_stores : ∀ (mods : List String) {s : Analyzer},
    (visitAll (mods.map modifierNode)).Stores s [] fun ns t => ns = mods.map modifierNode ∧ t = s
  | [], s => by
    rw [List.map_nil]
    unfold visitAll
    exact .pure ⟨rfl, rfl⟩
  | m :: rest, s => by
    rw [List.map_cons]
    unfold visitAll modifierNode visit
    simp only [pure_bind]
    refine (modifiers_stores rest).bind_last ?_
    intro _ t hpost
    obtain ⟨rfl, rfl⟩ := hpost
    exact .pure ⟨rfl, rfl⟩

theorem modifierNode_isModifier (mods : List String) :
    ∀ m ∈ mods.map modifierNode, m.IsModifier :=
  List.forall_mem_map.mpr fun name _ => ⟨name, rfl⟩

/-- **Parameters are declared one after the other.** -/
theorem Param.checkedAll {outer : ScopeStack} : ∀ (params : List Param),
    (∀ n ∈ params.map Param.toNode, n.Named Name.Plain) → ∀ {s : Analyzer} {d : Decls},
    KnowsBody outer s d →
    (visitAll (params.map Param.toNode)).Stores s [] fun _ t =>
      KnowsBody outer t (d.addParams params)
  | [], _, s, d, h => by
    rw [List.map_nil]
    unfold visitAll
    exact .pure h
  | p :: rest, hn, s, d, h => by
    obtain ⟨hfirst, hrest⟩ := List.forall_mem_cons.mp hn
    have hname : Name.Plain p.name := hfirst.plain rfl
    have htype : Name.Plain p.type.name := hfirst.label.typeName p.type.name rfl
    have hvisit : (visit p.toNode).Stores s [] fun _ t => s.Declares p.name (d.slot p.type) t := by
      unfold Param.toNode visit
      refine (declareTyped_stores h.knows htype).bind_last ?_
      intro _ t ht
      exact .pure ht
    rw [List.map_cons]
    unfold visitAll
    refine hvisit.with_procedure.bind_first ?_
    intro n t hpost
    obtain ⟨hv, hp⟩ := hpost
    refine (Param.checkedAll rest hrest (h.declares hv hp hname)).bind_last ?_
    intro ns u hu
    exact .pure hu

theorem paramVariables_stores {st : ScopeStack} (h : Knows st d) : ∀ (params : List Param),
    (∀ n ∈ params.map Param.toNode, n.Named Name.Plain) → ∀ {s : Analyzer},
    (paramVariables st (params.map Param.toNode)).Stores s [] fun vs t =>
      List.Forall₂ (fun q v => q.1.HasType v.type ∧ v.pointer = q.2)
        (params.map fun p => (d.slot p.type, p.type.pointer)) vs ∧ t = s
  | [], _, s => .pure ⟨.nil, rfl⟩
  | p :: rest, hn, s => by
    obtain ⟨hfirst, hrest⟩ := List.forall_mem_cons.mp hn
    have htype : Name.Plain p.type.name := hfirst.label.typeName p.type.name rfl
    rw [List.map_cons, List.map_cons, paramVariables]
    refine .bind_ofExcept (fun _ => declaredType_ne rfl) fun ty hty => ?_
    refine .bind_first .makeVariable ?_
    intro v t hpost
    obtain ⟨hv, rfl⟩ := hpost
    obtain ⟨_, rfl, hpointer⟩ := Check.fields_of_make? hv
    refine .bind_first (paramVariables_stores h rest hrest) ?_
    intro vs t hpost
    obtain ⟨hvs, rfl⟩ := hpost
    exact .pure ⟨.cons ⟨declaredType_hasType h htype hty, hpointer⟩ hvs, rfl⟩

/-- What a procedure returns, by its type. -/
theorem resultType_hasType {st : ScopeStack} (h : Knows st d) {l : Label} {type : TypeExpr}
    (hn : Name.Plain type.name) {rest : List Node} {ty : Option Ty}
    (hr : resultType st l (type.toNode :: rest) = .ok ty) :
    Option.Rel Slot.HasType (d.result? type) ty := by
  rw [resultType, List.head?_cons] at hr
  simp only [show type.toNode.kind = .typeExpr from rfl, if_true] at hr
  unfold Decls.result?
  by_cases hv : isVoid type.name = true
  · rw [show type.toNode.value = type.name from rfl, if_pos hv] at hr
    cases hr
    rw [if_pos hv]
    exact .none
  · rw [show type.toNode.value = type.name from rfl, if_neg hv] at hr
    rw [if_neg hv]
    cases ht : resolveType st type.name type.toNode.label.size with
    | error f =>
      rw [ht] at hr
      cases hr
    | ok t =>
      rw [ht] at hr
      cases hr
      exact .some (resolveType_hasType h hn ht)

/-- The nodes below a procedure. -/
def procedureNodes (returns : TypeExpr) (params : List Param) (body : List Statement)
    (mods : List String) : List Node :=
  (returns.toNode :: (params.map Param.toNode ++ body.map Statement.toNode)) ++
    mods.map modifierNode

theorem filter_procedureNodes (returns : TypeExpr) (params : List Param) (body : List Statement)
    (mods : List String) :
    (procedureNodes returns params body mods).filter (·.kind == .argument) =
      params.map Param.toNode := by
  have hparams : (params.map Param.toNode).filter (·.kind == .argument) = params.map Param.toNode :=
    List.filter_eq_self.mpr (List.forall_mem_map.mpr fun _ _ => rfl)
  have hbody : (body.map Statement.toNode).filter (·.kind == .argument) = [] :=
    List.filter_eq_nil_iff.mpr (List.forall_mem_map.mpr fun st _ => by
      simp [st.kind_ne_argument])
  have hmods : (mods.map modifierNode).filter (·.kind == .argument) = [] :=
    List.filter_eq_nil_iff.mpr (List.forall_mem_map.mpr fun _ _ => Bool.false_ne_true)
  rw [procedureNodes, List.cons_append, List.filter_cons_of_neg Bool.false_ne_true,
    List.filter_append, List.filter_append, hparams, hbody, hmods, List.append_nil,
    List.append_nil]

/-- **The procedure that is declared has the signature it is written with.** -/
theorem procedureOf_stores {returns : TypeExpr} {name : String} {params : List Param}
    {body : List Statement} {mods : List String} (h : Knows s.scopes d)
    (hr : Name.Plain returns.name) (hp : ∀ n ∈ params.map Param.toNode, n.Named Name.Plain) :
    (procedureOf { kind := .procedure, value := name }
      (procedureNodes returns params body mods)).Stores s [] fun p t =>
      p.name = name ∧ (d.signature returns params).Of p ∧ t = s := by
  unfold procedureOf
  rw [filter_procedureNodes]
  refine .bind_scopes ?_
  refine .bind_ofExcept (fun _ => resultType_ne rfl) fun ty hty => ?_
  refine .bind_first (paramVariables_stores h params hp) ?_
  intro vs t hpost
  obtain ⟨hvs, rfl⟩ := hpost
  split
  · exact .bind_refuse fun _ => Fault.noConfusion
  · exact .pure ⟨rfl, ⟨resultType_hasType h hr hty, hvs⟩, rfl⟩

theorem procedureBody_stores {outer : ScopeStack} {returns : TypeExpr} {params : List Param}
    {body : List Statement} {mods : List String}
    (hp : ∀ n ∈ params.map Param.toNode, n.Named Name.Plain)
    (hb : ∀ n ∈ body.map Statement.toNode, n.Named Name.Plain) (h : KnowsBody outer s d) :
    (visitAll (procedureNodes returns params body mods)).Stores s
      (Statement.writesAll (d.addParams params) m body) fun _ t => outer.Around t.scopes := by
  have hinner : (visitAll (params.map Param.toNode ++ body.map Statement.toNode)).Stores s
      (Statement.writesAll (d.addParams params) m body) fun _ t => outer.Around t.scopes := by
    refine visitAll_append_stores (Param.checkedAll params hp h) fun _ t ht => ?_
    refine (Statement.checkedAll body hb ht).imp ?_
    intro _ u hpost
    obtain ⟨d', hu⟩ := hpost
    exact hu.inner
  have houter : (visitAll (returns.toNode :: (params.map Param.toNode ++
      body.map Statement.toNode))).Stores s (Statement.writesAll (d.addParams params) m body)
      fun _ t => outer.Around t.scopes := by
    unfold visitAll
    refine .bind_first (typeNode_stores returns) ?_
    intro _ t hpost
    obtain ⟨rfl, rfl⟩ := hpost
    refine hinner.bind_last ?_
    intro ns u hu
    exact .pure hu
  rw [← List.append_nil (Statement.writesAll _ m body)]
  refine visitAll_append_stores houter fun ns t ht => (modifiers_stores mods).imp ?_
  intro _ u hpost
  obtain ⟨_, rfl⟩ := hpost
  exact ht

/-- **A procedure makes the stores of its body**, and is known outside of it. -/
theorem procedure_stores {returns : TypeExpr} {name : String} {params : List Param}
    {body : List Statement} {mods : List String} (h : KnowsTop s.scopes d)
    (hn : (Node.mk { kind := .procedure, value := name }
      (procedureNodes returns params body mods)).Named Name.Plain) :
    (visit ⟨{ kind := .procedure, value := name },
      procedureNodes returns params body mods⟩).Stores s
      (Statement.writesAll ((d.addProc name (d.signature returns params)).enter returns params) m
        body)
      fun _ t => KnowsTop t.scopes (d.addProc name (d.signature returns params)) := by
  obtain ⟨hchildren, _⟩ := List.forall_mem_append.mp hn.children
  obtain ⟨hreturns, hrest⟩ := List.forall_mem_cons.mp hchildren
  obtain ⟨hparams, hbody⟩ := List.forall_mem_append.mp hrest
  unfold visit
  simp only
  refine .inScope (.bind_first (procedureOf_stores h.knows.push (hreturns.plain rfl) hparams) ?_)
  intro p t hpost
  obtain ⟨hname, hsig, rfl⟩ := hpost
  refine .bind_first .declare ?_
  intro _ u hu
  have hplain : Name.Plain p.name := by
    rw [hname]
    exact hn.plain rfl
  obtain ⟨outer, hscopes, htop⟩ := h.declareProcedure hu hplain hsig
  rw [hname] at htop
  have hstart : KnowsBody outer { u with procedure := some p }
      { d.addProc name (d.signature returns params) with result := d.result? returns } := by
    refine ⟨?_, ?_, p, rfl, hsig.returns⟩
    · show Knows u.scopes _
      rw [hscopes]
      exact htop.knows.push.returning _
    · exact ⟨_, hscopes⟩
  have hwalk : (Check.inBodyOf p (visitAll (procedureNodes returns params body mods))).Stores u
      (Statement.writesAll ((d.addProc name (d.signature returns params)).enter returns params) m
        body) fun _ t => outer.Around t.scopes :=
    .inBodyOf ((procedureBody_stores hparams hbody hstart).imp fun _ _ ht => ht)
  refine hwalk.bind_last ?_
  intro ns t hpost
  obtain ⟨sc, hsc⟩ := hpost
  refine .pure ?_
  rw [Check.leave_scopes, hsc]
  exact htop

end

/-! ## 4. Records -/

mutual

/-- **A field is walked without a trace**, and comes back as it is. -/
theorem Field.still : ∀ (parent : String) (f : Field) (s : Analyzer),
    (visit (f.toNode parent)).Stores s [] fun n t => n = f.toNode parent ∧ t.scopes = s.scopes
  | parent, .plain type name, s => by
    rw [Field.toNode]
    unfold visit visitAll visitAll
    simp only [pure_bind, bind_assoc]
    refine .bind_first (typeNode_stores type) ?_
    intro _ t hpost
    obtain ⟨rfl, rfl⟩ := hpost
    exact .pure ⟨rfl, rfl⟩
  | parent, .nested name fields, s => by
    have hfields := Field.stillAll (joinPath parent name) fields
    -- a record in a record declares nothing: its path has segments
    have hpath : hasSegments (joinPath parent name).toList = true := by
      rw [joinPath, String.toList_append, String.toList_append, List.append_assoc]
      exact hasSegments_append _ _
    rw [Field.toNode]
    unfold visit
    simp only
    refine .inScope ((hfields _).bind_last ?_)
    intro _ t hpost
    obtain ⟨rfl, ht⟩ := hpost
    rw [declareRecord, if_pos (by simp only [Option.any_some, hpath, Bool.or_true]), pure_bind]
    exact .pure ⟨rfl, Check.leave_push ht⟩

theorem Field.stillAll : ∀ (parent : String) (fields : List Field) (s : Analyzer),
    (visitAll (Field.toNodes parent fields)).Stores s [] fun ns t =>
      ns = Field.toNodes parent fields ∧ t.scopes = s.scopes
  | parent, [], s => by
    rw [Field.toNodes]
    unfold visitAll
    exact .pure ⟨rfl, rfl⟩
  | parent, f :: rest, s => by
    have hf := Field.still parent f s
    have hrest := Field.stillAll parent rest
    rw [Field.toNodes]
    unfold visitAll
    refine .bind_first hf ?_
    intro _ t hpost
    obtain ⟨rfl, ht⟩ := hpost
    refine .bind_first (hrest t) ?_
    intro _ u hpost
    obtain ⟨rfl, hu⟩ := hpost
    exact .pure ⟨rfl, hu.trans ht⟩

end

section

variable {s : Analyzer} {d : Decls} {m : Pointers}

theorem recordFields_modifiers (st : ScopeStack) (fields : Table Ty) (mods : List String) :
    recordFields st fields (mods.map modifierNode) = .ok fields := by
  induction mods with
  | nil =>
    rw [List.map_nil]
    unfold recordFields
    rfl
  | cons m rest ih =>
    have hm : (modifierNode m).noField := ⟨NodeKind.noConfusion, NodeKind.noConfusion⟩
    rw [List.map_cons, recordFields_cons_of_noField st fields hm, ih]

/-- **The type of a record has the fields it is written with.** -/
theorem recordType_hasType {st : ScopeStack} (h : Knows st d) {name : String}
    {fields : List Field} {mods : List String} {l : Label} {ty : Ty}
    (hn : ∀ n ∈ Field.toNodes name fields, n.Named Name.Plain)
    (hr : recordType st ⟨l, Field.toNodes name fields ++ mods.map modifierNode⟩ = .ok ty) :
    (Slot.mk l.value 0 (d.fields fields)).HasType ty := by
  rw [recordType] at hr
  obtain ⟨out, hout, hr⟩ := except_bind_ok hr
  obtain ⟨mid, hmid, hout⟩ := Field.addsAll h name fields hn .nil hout
  rw [recordFields_modifiers] at hout
  cases hout
  cases hr
  exact .mk hmid

/-- **A record stores nothing**, and is known behind it if it has a name. -/
theorem record_stores {name : String} {fields : List Field} {mods : List String}
    (h : KnowsTop s.scopes d) (hname : Name.Plain name)
    (hn : ∀ n ∈ Field.toNodes name fields, n.Named Name.Plain) :
    (visit ⟨{ kind := .record, value := name },
      Field.toNodes name fields ++ mods.map modifierNode⟩).Stores s [] fun _ t =>
      KnowsTop t.scopes (if name = "" then d else d.addRecord name (d.fields fields)) := by
  have hwalk : (visitAll (Field.toNodes name fields ++ mods.map modifierNode)).Stores
      { s with scopes := s.scopes.push } [] fun ns t =>
        ns = Field.toNodes name fields ++ mods.map modifierNode ∧ t.scopes = s.scopes.push := by
    refine visitAll_append_stores (Field.stillAll name fields _) ?_
    intro _ t hpost
    obtain ⟨rfl, ht⟩ := hpost
    refine (modifiers_stores mods).imp ?_
    intro _ u hpost
    obtain ⟨rfl, rfl⟩ := hpost
    exact ⟨rfl, ht⟩
  unfold visit
  simp only
  refine .inScope (hwalk.bind_last ?_)
  intro _ t hpost
  obtain ⟨rfl, ht⟩ := hpost
  by_cases hempty : name = ""
  · rw [declareRecord, if_pos (by simp [Node.value, hempty]), pure_bind, if_pos hempty]
    refine .pure ?_
    rw [Check.leave_push ht]
    exact h
  · rw [declareRecord, if_neg (by simp [Node.value, hempty]), if_neg hempty]
    simp only [bind_assoc]
    refine .bind_scopes ?_
    refine .bind_ofExcept (fun _ => recordType_ne rfl _) fun ty hty => ?_
    rw [ht] at hty
    have hslot := recordType_hasType h.knows.push hn hty
    refine .bind_first .declare ?_
    intro _ w hw
    rw [ht] at hw
    refine .pure ?_
    rw [Check.leave_scopes]
    exact h.declareType hw hname hslot

/-! ## 5. Programs -/

/-- **An item makes its stores**, and what follows it sees what it declares. -/
theorem Item.checked (item : Item) (hn : item.toNode.Named Name.Plain)
    (h : KnowsTop s.scopes d) :
    (visit item.toNode).Stores s (item.writes d m) fun _ t =>
      KnowsTop t.scopes (d.behindItem item) := by
  cases item with
  | directive name argument =>
    unfold Item.toNode visit visitAll visitAll visit visitAll
    simp only [List.filter_nil, List.length_nil, pure_bind]
    exact .pure h
  | declaration mods declared =>
    cases declared with
    | record name fields =>
      obtain ⟨hfields, _⟩ := List.forall_mem_append.mp hn.children
      exact record_stores h (hn.plain rfl) hfields
    | procedure returns name params body => exact procedure_stores h hn
    | «global» type name value =>
      obtain ⟨hparts, _⟩ := List.forall_mem_append.mp hn.children
      have hname : Name.Plain name := (hparts _ List.mem_cons_self).plain rfl
      have hnamed : (declarationNode type name value).Named Name.Plain := .mk hn.label hparts
      refine (binding_stores (modifierNode_isModifier mods) hnamed h.knows).imp ?_
      intro _ t hpost
      obtain ⟨v, hv, rfl, hslot⟩ := hpost
      exact h.declareVariable hv hname hslot

theorem Item.checkedAll : ∀ (items : List Item),
    (∀ n ∈ items.map Item.toNode, n.Named Name.Plain) →
    ∀ {s : Analyzer} {d : Decls} {m : Pointers}, KnowsTop s.scopes d →
    (visitAll (items.map Item.toNode)).Stores s (Item.writesAll d m items) fun _ _ => True
  | [], _, s, d, m, _ => by
    rw [List.map_nil, Item.writesAll]
    unfold visitAll
    exact .pure trivial
  | item :: rest, hn, s, d, m, h => by
    obtain ⟨hfirst, hrest⟩ := List.forall_mem_cons.mp hn
    rw [List.map_cons, Item.writesAll]
    unfold visitAll
    refine (item.checked hfirst h).bind ?_
    intro n t ht
    refine (Item.checkedAll rest hrest ht).bind_last ?_
    intro ns u _
    exact .pure trivial

theorem Program.checked (p : Program) (hn : p.toNode.Named Name.Plain) :
    (visit p.toNode).Stores .fresh p.writes fun _ _ => True := by
  have hitems := Item.checkedAll p.items hn.children (s := .fresh) (m := {}) .fresh
  unfold Program.toNode visit
  simp only
  refine hitems.bind_last ?_
  intro ns t _
  exact .pure trivial

end

/-! ## 6. The main result -/

namespace Write

variable {ws : List Write}

theorem mem_checkedStores {o : Store} :
    o ∈ checkedStores ws ↔ ∃ w ∈ ws, w.isExempt = false ∧ w.store = o := by
  simp only [checkedStores, List.mem_map, List.mem_filter, Bool.not_eq_true', and_assoc]

theorem losses_eq_checkedStores :
    losses ws = ((checkedStores ws).filter Store.loses).map Store.warning := by
  rw [losses, checkedStores, List.filter_map, List.map_map, List.filter_filter]
  congr 1
  exact List.filter_congr fun w _ => Bool.and_comm _ _

theorem find?_checkedStores :
    (checkedStores ws).find? Store.isIllegal = (ws.find? isRefused).map store := by
  rw [checkedStores, List.find?_map, List.find?_filter]
  simp only [Bool.decide_and, Bool.decide_eq_true, Function.comp_apply]
  rfl

end Write

/-- **Literal stores are checked exactly.** Of an accepted source every literal that is stored has a
    slot, no text goes to an elementary `int` or `uint`, and the warnings are those of the literals
    that are longer than the size declared for their elementary slot, one for each and in order. A
    source refused for an illegal assignment stores a text in an elementary `int` or `uint`, and
    the fault names the first such store. -/
theorem stores_checked {file source : String} {ts : List Token} {p : Program}
    (ht : tokenize file source = .ok ts) (hp : Program.ofTokens ts = .ok p) :
    (∀ a s, Check.analyze p.toNode .fresh = .ok a s →
      (∀ o ∈ p.stores, o.dest.isSome = true ∧ o.isIllegal = false) ∧
      a.warnings = (p.stores.filter Store.loses).map Store.warning) ∧
    ∀ dest value s, Check.analyze p.toNode .fresh =
        .error (.fault (.illegalAssignment dest value)) s →
      ∃ o, p.stores.find? Store.isIllegal = some o ∧ o.destText = dest ∧ o.sourceText = value := by
  have hnamed : p.toNode.Named Name.Plain :=
    ofTokens_named ht hp (by decide) (by decide) fun _ hs => hs.plain
  have hwalk := p.checked hnamed
  constructor
  · intro a s ha
    obtain ⟨n, t, hn, hover⟩ := Check.bind_ok.mp ha
    cases hover
    obtain ⟨⟨hlegal, hwarnings⟩, _⟩ := hwalk.ok hn
    refine ⟨fun o ho => ?_, hwarnings.trans Write.losses_eq_checkedStores⟩
    obtain ⟨w, hw, hchecked, rfl⟩ := Write.mem_checkedStores.mp ho
    exact hlegal w hw hchecked
  · intro dest value s hs
    rcases Check.bind_error.mp hs with hs | ⟨n, t, _, hover⟩
    · obtain ⟨w, hw, hdest, hsource⟩ := Check.Stores.stop hwalk hs
      refine ⟨w.store, ?_, hdest, hsource⟩
      rw [Program.stores, Write.find?_checkedStores, hw]
      rfl
    · cases hover

/-- The program `declare [void] :: f([int(1)] a) call f(…) end` that hands over the given value. -/
def handingSample (value : Value) : Program :=
  ⟨[.declaration [] (.procedure ⟨"void", none, false⟩ "f" [⟨⟨"int", some 1, false⟩, "a"⟩]
    [.call "f" [value]])]⟩

/-- Its tokens, if the value is three characters long. -/
def handingTokens (kind : TokenKind) (value : String) : List Token :=
  [sampleToken 0 .declare "declare", sampleToken 8 .lbracket "[", sampleToken 9 .ident "void",
    sampleToken 13 .rbracket "]", sampleToken 15 .doubleColon "::", sampleToken 18 .ident "f",
    sampleToken 19 .lparen "(", sampleToken 20 .lbracket "[", sampleToken 21 .ident "int",
    sampleToken 24 .lparen "(", sampleToken 25 .number "1", sampleToken 26 .rparen ")",
    sampleToken 27 .rbracket "]", sampleToken 29 .ident "a", sampleToken 30 .rparen ")",
    sampleToken 32 .call "call", sampleToken 37 .ident "f", sampleToken 38 .lparen "(",
    sampleToken 39 kind value, sampleToken 42 .rparen ")", sampleToken 44 .endBlock "end",
    sampleToken 47 .eof ""]

set_option maxRecDepth 20000 in
/-- A number that is longer than the parameter is warned of, and a text is refused. -/
theorem stores_checked_of_samples :
    (∃ a, Accepted "sample" "declare [void] :: f([int(1)] a) call f(300) end"
        (handingSample (.number "300")) a ∧ a.warnings = [⟨"int(1)", "int(3)"⟩]) ∧
    ∃ ts s, tokenize "sample" "declare [void] :: f([int(1)] a) call f(\"x\") end" = .ok ts ∧
      Program.ofTokens ts = .ok (handingSample (.text "x")) ∧
      Check.analyze (handingSample (.text "x")).toNode .fresh =
        .error (.fault (.illegalAssignment "int(1)" "string(1)")) s ∧
      ∃ o ∈ (handingSample (.text "x")).stores, o.isIllegal = true := by
  constructor
  · have ht : (tokenize "sample" "declare [void] :: f([int(1)] a) call f(300) end").toOption =
        some (handingTokens .number "300") := by decide +kernel
    have hp : Program.ofTokens (handingTokens .number "300") =
        .ok (handingSample (.number "300")) := by cbv
    obtain ⟨a, h⟩ := accepted_of_stages ht hp (by cbv)
    obtain ⟨ts, s, htokens, hprogram, ha⟩ := id h
    refine ⟨a, h, ?_⟩
    rw [((stores_checked htokens hprogram).1 a s ha).2]
    cbv
  · have ht : tokenize "sample" "declare [void] :: f([int(1)] a) call f(\"x\") end" =
        .ok (handingTokens .text "x") := ok_of_toOption (by decide +kernel)
    have hp : Program.ofTokens (handingTokens .text "x") = .ok (handingSample (.text "x")) := by cbv
    have he : (Check.analyze (handingSample (.text "x")).toNode).abort? .fresh =
        some (.fault (.illegalAssignment "int(1)" "string(1)")) := by cbv
    obtain ⟨s, hs⟩ := Check.error_of_abort? he
    obtain ⟨o, ho, _⟩ := (stores_checked ht hp).2 _ _ s hs
    exact ⟨_, s, ht, hp, hs, o, List.mem_of_find?_eq_some ho, List.find?_some ho⟩

end Osclan
