/-
  File:      Osclan/Proofs/StageContract.lean
  Subject:   What reading promises to the check.

  The check takes any tree and refuses one of a wrong shape: an assignment without two sides, a
  declaration without a type, a procedure without a result. `Node.formed` is the shape it relies on,
  as a test that can be run on any tree. The trees of programs pass the test, and over a tree that
  passes it, from any state, the check never stops at a shape.

  * `Fault.isSemantic` -- the faults that are not about shapes;
  * `Node.formed` -- the shape of a tree, node by node;
  * `Check.Semantic` -- a step that stops at no shape, and its rules;
  * `visit_semantic` -- the walk over a formed tree;
  * `Program.formed_toNode` -- the trees of programs;
  * `analyze_faults` -- the main result.
-/
import Osclan.Proofs.Annotation
import Osclan.Proofs.Outcome
import Osclan.Proofs.Parsing

namespace Osclan

/-! ## 1. Faults and shapes -/

/-- A fault of what the program says, not of the shape of its tree. -/
def Fault.isSemantic : Fault → Bool
  | .unresolvedVariable _ | .unresolvedType _ | .unresolvedPath _ | .unresolvedProcedure _
  | .redeclared _ | .illegalAssignment _ _ | .argumentCount _ _ _ | .unreachableCode _
  | .unexpectedReturnValue _ | .missingReturnValue _ => true
  | .malformedParameter _ | .malformedNode _ _ => false

mutual

/-- A field has a type, and so have the fields of a nested record. -/
def Node.fieldsTyped : Node → Bool
  | ⟨l, children⟩ =>
    match l.kind with
    | .field => children.any (·.kind == .typeExpr)
    | .record => Node.fieldsTypedAll children
    | _ => true

/-- Every field among them has a type. -/
def Node.fieldsTypedAll : List Node → Bool
  | [] => true
  | n :: rest => n.fieldsTyped && Node.fieldsTypedAll rest

end

/-- The shape of a node with respect to its own children. -/
def Label.fits (l : Label) (children : List Node) : Bool :=
  match l.kind with
  | .record => Node.fieldsTypedAll children
  | .procedure =>
    children.head?.any (·.kind == .typeExpr) &&
      (children.filter (·.kind == .argument)).all (·.label.typeName.isSome)
  | .argument =>
    -- a parameter has one type, an argument of a call or of a directive has none
    match (children.filter (·.kind == .typeExpr)).length with
    | 0 => true
    | 1 => l.typeName.isSome
    | _ => false
  | .assignment => children.length == 2
  | .declaration =>
    match operandsOf children with
    | [target, _] => target.label.typeName.isSome
    | _ => false
  | .allocation => l.typeName.isSome
  | _ => true

mutual

/-- Every node of the tree has the shape the check relies on. -/
def Node.formed : Node → Bool
  | ⟨l, children⟩ => l.fits children && Node.formedAll children

/-- Every tree among them has this shape. -/
def Node.formedAll : List Node → Bool
  | [] => true
  | n :: rest => n.formed && Node.formedAll rest

end

/-! ## 2. Rules for steps -/

/-- If the step stops at a fault, from whatever state, the fault is not about a shape. -/
def Check.Semantic {α : Type} (step : Check α) : Prop :=
  ∀ s, step.Runs s (fun _ _ => True) fun e _ => ∀ f, e = .fault f → f.isSemantic = true

/-- The same of an outcome. -/
def semanticError {α : Type} (r : Except Fault α) : Prop := ∀ f, r = .error f → f.isSemantic = true

theorem semanticError_ok {α : Type} (a : α) : semanticError (.ok a) := by
  intro f h
  cases h

namespace Check

section Rules

variable {α β : Type}

/-- A step that gives a result from every state. -/
theorem Semantic.of_ok {step : Check α} (h : ∀ s, ∃ a s', step s = .ok a s') : Semantic step := by
  refine fun s => ⟨fun _ => trivial, fun e => ?_⟩
  obtain ⟨a, t, ht⟩ := h s
  rw [ht] at e
  cases e

theorem Semantic.pure (a : α) : Semantic (Pure.pure a : Check α) := fun _ => .pure trivial

theorem Semantic.get : Semantic (MonadState.get : Check Analyzer) := fun _ => Runs.get.forget

theorem Semantic.refuse {fault : Fault} (h : fault.isSemantic = true) :
    Semantic (refuse fault : Check α) := fun _ =>
  .refuse fun _ e => Abort.fault.inj e ▸ h

/-- A sequence of steps; the second may rely on the result being one the first can give. -/
theorem Semantic.bind_of {x : Check α} {f : α → Check β} (hx : Semantic x)
    (hf : ∀ s a s', x s = .ok a s' → Semantic (f a)) : Semantic (x >>= f) := fun s =>
  (hx s).with_ok.bind fun a t ht => hf s a t ht.1 t

theorem Semantic.bind {x : Check α} {f : α → Check β} (hx : Semantic x)
    (hf : ∀ a, Semantic (f a)) : Semantic (x >>= f) :=
  .bind_of hx fun _ a _ _ => hf a

theorem Semantic.ofExcept {r : Except Fault α} (h : semanticError r) : Semantic (ofExcept r) :=
  fun _ => (Runs.ofExcept fun fault hr _ e => Abort.fault.inj e ▸ h fault hr).forget

theorem Semantic.scopes : Semantic scopes := fun _ => Runs.scopes.forget

theorem Semantic.declare (f : ScopeStack → Except Redeclared ScopeStack) :
    Semantic (declare f) := fun _ =>
  (Runs.declare fun _ _ e => Abort.fault.inj e ▸ rfl).forget

theorem Semantic.makeVariable (name : String) (type : Ty) (pointer : Bool) :
    Semantic (makeVariable name type pointer) := fun _ =>
  (Runs.makeVariable fun _ => nofun).forget

theorem Semantic.inScope {step : Check α} (h : Semantic step) : Semantic (inScope step) :=
  fun _ => .inScope (h _)

theorem Semantic.inBodyOf {step : Check α} (p : Procedure) (h : Semantic step) :
    Semantic (inBodyOf p step) := fun _ =>
  .inBodyOf (h _)

theorem Semantic.assignLiteral (dest : Ty) (pointer : Bool) (literal : Option Ty) :
    Semantic (assignLiteral dest pointer literal) := fun _ =>
  (Runs.assignLiteral fun _ _ _ e => Abort.fault.inj e ▸ rfl).forget

end Rules

end Check

/-! ## 3. Rules for the parts of the walk -/

theorem resolveType_semantic (st : ScopeStack) (name : String) (size : Option UInt64) :
    semanticError (resolveType st name size) := by
  unfold resolveType
  cases st.lookupType? name with
  | none =>
    intro f h
    cases h
    rfl
  | some type => cases size <;> exact semanticError_ok _

theorem declaredType_semantic (st : ScopeStack) {l : Label} (hl : l.typeName.isSome = true) :
    semanticError (declaredType st l) := by
  unfold declaredType
  cases e : l.typeName with
  | none =>
    rw [e] at hl
    cases hl
  | some name => exact resolveType_semantic st name l.size

theorem fieldType_semantic (st : ScopeStack) (l : Label) {children : List Node}
    (hc : children.any (·.kind == .typeExpr) = true) :
    semanticError (fieldType st l children) := by
  unfold fieldType
  cases e : children.find? (·.kind == .typeExpr) with
  | none =>
    obtain ⟨n, hn, hk⟩ := List.any_eq_true.mp hc
    exact absurd hk (List.find?_eq_none.mp e n hn)
  | some type => exact resolveType_semantic st type.value type.label.size

theorem addField_semantic (fields : Table Ty) (name : String) (type : Ty) :
    semanticError (addField fields name type) := by
  intro f h
  simp only [addField] at h
  split at h
  · cases h
    rfl
  · cases h

theorem semanticError_bind {α β : Type} {x : Except Fault α} {f : α → Except Fault β}
    (hx : semanticError x) (hf : ∀ a, semanticError (f a)) : semanticError (x >>= f) := by
  cases x with
  | ok a => exact hf a
  | error fault =>
    intro f h
    cases h
    exact hx fault rfl

mutual

theorem recordType_semantic (st : ScopeStack) : ∀ (l : Label) (children : List Node),
    Node.fieldsTypedAll children = true → semanticError (recordType st ⟨l, children⟩)
  | l, children, h => by
    unfold recordType
    exact semanticError_bind (recordFields_semantic st [] children h) fun _ => semanticError_ok _

/-- The type of a record whose fields have types can only be refused for a name. -/
theorem recordFields_semantic (st : ScopeStack) : ∀ (fields : Table Ty) (ns : List Node),
    Node.fieldsTypedAll ns = true → semanticError (recordFields st fields ns)
  | _, [], _ => by
    unfold recordFields
    exact semanticError_ok _
  | fields, ⟨l, children⟩ :: rest, h => by
    rw [Node.fieldsTypedAll, Node.fieldsTyped, Bool.and_eq_true] at h
    obtain ⟨hn, hrest⟩ := h
    unfold recordFields
    cases hk : l.kind with
    | field =>
      simp only [hk] at hn
      refine semanticError_bind (fieldType_semantic st l hn) fun type => ?_
      refine semanticError_bind (addField_semantic fields l.value type) fun fields => ?_
      exact recordFields_semantic st fields rest hrest
    | record =>
      simp only [hk] at hn
      refine semanticError_bind (recordType_semantic st l children hn) fun type => ?_
      refine semanticError_bind (addField_semantic fields l.value type) fun fields => ?_
      exact recordFields_semantic st fields rest hrest
    | _ => exact recordFields_semantic st fields rest hrest

end

mutual

theorem fieldsTyped_untyped : ∀ n : Node, n.untyped.fieldsTyped = n.fieldsTyped
  | ⟨l, children⟩ => by
    have hany : (Node.untypedAll children).any (·.kind == .typeExpr) =
        children.any (·.kind == .typeExpr) := by
      rw [untypedAll_eq_map, List.any_map]
      simp only [Function.comp_def, untyped_kind]
    rw [Node.untyped, Node.fieldsTyped, Node.fieldsTyped, hany, fieldsTypedAll_untyped children]
    rfl

theorem fieldsTypedAll_untyped : ∀ ns : List Node,
    Node.fieldsTypedAll (Node.untypedAll ns) = Node.fieldsTypedAll ns
  | [] => rfl
  | n :: rest => by
    rw [Node.untypedAll, Node.fieldsTypedAll, Node.fieldsTypedAll, fieldsTyped_untyped n,
      fieldsTypedAll_untyped rest]

end

theorem paramVariables_semantic (st : ScopeStack) {ns : List Node}
    (h : ns.all (·.label.typeName.isSome) = true) : (paramVariables st ns).Semantic := by
  induction ns with
  | nil => exact .pure []
  | cons n rest ih =>
    rw [List.all_cons, Bool.and_eq_true] at h
    refine .bind (.ofExcept (declaredType_semantic st h.1)) fun type => ?_
    exact .bind (.makeVariable _ _ _) fun v => .bind (ih h.2) fun _ => .pure _

theorem resultType_semantic (st : ScopeStack) (l : Label) {children : List Node}
    (h : children.head?.any (·.kind == .typeExpr) = true) :
    semanticError (resultType st l children) := by
  unfold resultType
  cases children with
  | nil => cases h
  | cons type rest =>
    have hk : type.kind = .typeExpr := by simpa using h
    simp only [List.head?_cons, hk, if_true]
    split
    · exact semanticError_ok _
    · cases e : resolveType st type.value type.label.size with
      | ok t => exact semanticError_ok _
      | error fault =>
        intro f hf
        cases hf
        exact resolveType_semantic st _ _ fault e

theorem procedureOf_semantic {l : Label} {children : List Node} (hk : l.kind = .procedure)
    (h : l.fits children = true) : (procedureOf l children).Semantic := by
  simp only [Label.fits, hk, Bool.and_eq_true] at h
  refine .bind .scopes fun st => .bind (.ofExcept (resultType_semantic st l h.1)) fun returns => ?_
  refine .bind (paramVariables_semantic st h.2) fun params => ?_
  by_cases hu : hasUnreachable (statements children) = true
  · simp only [hu, if_true]
    exact .bind (.refuse rfl) fun _ => .pure _
  · simp only [hu]
    exact .pure _

theorem assignArguments_semantic : ∀ (params : List Variable) (args : List Node),
    (assignArguments params args).Semantic
  | _ :: params, _ :: args =>
    .bind (.assignLiteral _ _ _) fun _ => assignArguments_semantic params args
  | [], _ => .pure ()
  | _ :: _, [] => .pure ()

theorem checkArguments_semantic (p : Procedure) (args : List Node) :
    (checkArguments p args).Semantic := by
  unfold checkArguments
  split
  · exact .refuse rfl
  · exact assignArguments_semantic p.params args

theorem checkReturn_semantic (value : Option Node) : (checkReturn value).Semantic := by
  refine .bind .get fun s => ?_
  cases s.procedure with
  | none => exact .pure ()
  | some p =>
    rcases p with ⟨name, returns, params⟩
    cases returns <;> cases value
    · exact .pure ()
    · exact .refuse rfl
    · exact .refuse rfl
    · exact .assignLiteral _ _ _

theorem declareRecord_semantic (l : Label) {children : List Node}
    (h : Node.fieldsTypedAll children = true) : (declareRecord ⟨l, children⟩).Semantic := by
  unfold declareRecord
  split
  · exact .pure ()
  · refine .bind .scopes fun st => ?_
    exact .bind (.ofExcept (recordType_semantic st l children h)) fun t => .declare _

theorem declareTyped_semantic {l : Label} (h : l.typeName.isSome = true) :
    (declareTyped l).Semantic := by
  refine .bind .scopes fun st => .bind (.ofExcept (declaredType_semantic st h)) fun type => ?_
  exact .bind (.makeVariable _ _ _) fun v => .declare _

theorem declareWith_semantic {l : Label} (h : l.typeName.isSome = true) (literal : Option Ty) :
    (declareWith l literal).Semantic := by
  refine .bind .scopes fun st => .bind (.ofExcept (declaredType_semantic st h)) fun type => ?_
  refine .bind (.assignLiteral _ _ _) fun _ => ?_
  exact .bind (.makeVariable _ _ _) fun v => .declare _

theorem resolve_semantic {children : List Node}
    (h : ∀ parent leaf, (resolveFields parent leaf children).Semantic) (l : Label) :
    (resolve ⟨l, children⟩).Semantic := by
  unfold resolve
  refine .bind .scopes fun st => ?_
  cases st.lookupVariable? l.value with
  | none => exact .refuse rfl
  | some v => exact .bind (h _ _) fun _ => .pure _

/-! ## 4. The walk -/

mutual

/-- **The walk over a formed tree never stops at a shape.** -/
theorem visit_semantic : ∀ n : Node, n.formed = true → (visit n).Semantic
  | ⟨l, children⟩, h => by
    rw [Node.formed, Bool.and_eq_true] at h
    obtain ⟨hfits, hc⟩ := h
    have hall := visitAll_semantic children hc
    unfold visit
    cases hk : l.kind with
    | root | directive | field | print => exact .bind hall fun _ => .pure _
    | record =>
      -- the record is declared after its fields have been visited, which keeps their kinds
      refine .inScope (.bind_of hall fun s ns s' hv => ?_)
      have hns : Node.fieldsTypedAll ns = true := by
        rw [← fieldsTypedAll_untyped, visitAll_untyped children hv, fieldsTypedAll_untyped]
        simpa only [Label.fits, hk] using hfits
      exact .bind (declareRecord_semantic l hns) fun _ => .pure _
    | procedure =>
      refine .inScope (.bind (procedureOf_semantic hk hfits) fun p => ?_)
      exact .bind (.declare _) fun _ => .bind (.inBodyOf p hall) fun _ => .pure _
    | argument =>
      simp only [Label.fits, hk] at hfits
      simp only
      split
      · exact .bind hall fun _ => .pure _
      · rename_i hn
        simp only [hn] at hfits
        exact .bind (declareTyped_semantic hfits) fun _ => .pure _
      · rename_i h0 h1
        split at hfits
        · exact absurd ‹_› h0
        · exact absurd ‹_› h1
        · cases hfits
    | call =>
      refine .bind .scopes fun st => ?_
      cases st.lookupProcedure? l.value with
      | none => exact .refuse rfl
      | some p => exact .bind hall fun _ => .bind (checkArguments_semantic p _) fun _ => .pure _
    | typeExpr =>
      simp only
      split
      · exact .pure _
      · exact .bind .scopes fun _ => .bind (.ofExcept (resolveType_semantic _ _ _)) fun _ =>
          .pure _
    | modifier | scalar => exact .pure _
    | assignment =>
      simp only [Label.fits, hk, beq_iff_eq] at hfits
      match children, hfits, hc with
      | [⟨lt, ct⟩, value], _, hc =>
        simp only [Node.formedAll, Node.formed, Bool.and_eq_true] at hc
        obtain ⟨⟨_, ht⟩, hv, _⟩ := hc
        refine .bind (visit_semantic value hv) fun value' => ?_
        split
        · exact .pure _
        · have hf := fun p t => resolveFields_semantic p t ct ht
          exact .bind (resolve_semantic hf lt) fun _ => .bind (.assignLiteral _ _ _) fun _ =>
            .pure _
    | declaration =>
      simp only [Label.fits, hk] at hfits
      simp only
      split
      · rename_i target value ho
        simp only [ho] at hfits
        exact .bind (visitOperand_semantic 1 children hc) fun _ =>
          .bind (declareWith_semantic hfits _) fun _ => .pure _
      · rename_i hne
        split at hfits
        · rename_i target value ho
          exact absurd ho (hne target value)
        · cases hfits
    | reference | dynamicOffset =>
      have hf := fun p t => resolveFields_semantic p t children hc
      exact .bind (resolve_semantic hf l) fun _ => .pure _
    | allocation =>
      simp only [Label.fits, hk] at hfits
      exact .bind .scopes fun st => .bind (.ofExcept (declaredType_semantic st hfits)) fun _ =>
        .pure _
    | ret => exact .bind hall fun _ => .bind (checkReturn_semantic _) fun _ => .pure _

theorem visitAll_semantic : ∀ ns : List Node, Node.formedAll ns = true → (visitAll ns).Semantic
  | [], _ => by
    unfold visitAll
    exact .pure []
  | n :: rest, h => by
    rw [Node.formedAll, Bool.and_eq_true] at h
    unfold visitAll
    exact .bind (visit_semantic n h.1) fun _ => .bind (visitAll_semantic rest h.2) fun _ => .pure _

theorem visitOperand_semantic : ∀ (before : Nat) (ns : List Node), Node.formedAll ns = true →
    (visitOperand before ns).Semantic
  | _, [], _ => by
    unfold visitOperand
    exact .pure []
  | before, n :: rest, h => by
    rw [Node.formedAll, Bool.and_eq_true] at h
    unfold visitOperand
    split
    · exact .bind (visitOperand_semantic before rest h.2) fun _ => .pure _
    · cases before with
      | zero => exact .bind (visit_semantic n h.1) fun _ => .pure _
      | succ before => exact .bind (visitOperand_semantic before rest h.2) fun _ => .pure _

theorem resolveFields_semantic : ∀ (parent leaf : Ty) (ns : List Node),
    Node.formedAll ns = true → (resolveFields parent leaf ns).Semantic
  | _, _, [], _ => by
    unfold resolveFields
    exact .pure _
  | parent, leaf, ⟨l, children⟩ :: rest, h => by
    rw [Node.formedAll, Bool.and_eq_true] at h
    have hc : Node.formedAll children = true := by
      have hn := h.1
      rw [Node.formed, Bool.and_eq_true] at hn
      exact hn.2
    have hf := fun p t => resolveFields_semantic p t children hc
    have hvisit := visit_semantic ⟨l, children⟩ h.1
    have hrest := fun leaf => resolveFields_semantic parent leaf rest h.2
    unfold resolveFields
    cases l.kind with
    | field =>
      cases parent.field? l.value with
      | none => exact .refuse rfl
      | some type => exact .bind (hf type type) fun r => .bind (hrest r.2) fun _ => .pure _
    | dynamicOffset =>
      exact .bind (resolve_semantic hf l) fun _ => .bind (hrest leaf) fun _ => .pure _
    | _ => exact .bind hvisit fun _ => .bind (hrest leaf) fun _ => .pure _

end

/-! ## 5. The trees of programs -/

theorem formedAll_eq_all : ∀ ns : List Node, Node.formedAll ns = ns.all Node.formed
  | [] => rfl
  | n :: rest => by rw [Node.formedAll, formedAll_eq_all rest, List.all_cons]

theorem formedAll_append (ns ms : List Node) :
    Node.formedAll (ns ++ ms) = (Node.formedAll ns && Node.formedAll ms) := by
  rw [formedAll_eq_all, formedAll_eq_all, formedAll_eq_all, List.all_append]

theorem fieldsTypedAll_append (ns ms : List Node) :
    Node.fieldsTypedAll (ns ++ ms) = (Node.fieldsTypedAll ns && Node.fieldsTypedAll ms) := by
  induction ns with
  | nil => rfl
  | cons n rest ih =>
    rw [List.cons_append, Node.fieldsTypedAll, Node.fieldsTypedAll, ih, Bool.and_assoc]

mutual

theorem Path.formed_toNode {kind : NodeKind} (h : kind = .reference ∨ kind = .dynamicOffset) :
    ∀ p : Path, (p.toNode kind).formed = true
  | .mk base segments => by
    have ih := Segment.formed_toNodes base segments
    rcases h with rfl | rfl
    · simp only [Path.toNode, Node.formed, Label.fits, ih, Bool.and_self]
    · simp only [Path.toNode, Node.formed, Label.fits, ih, Bool.and_self]

theorem Segment.formed_toNodes : ∀ (before : String) (segments : List Segment),
    Node.formedAll (Segment.toNodes before segments) = true
  | _, [] => rfl
  | before, .fixed name offset :: rest => by
    have ih := Segment.formed_toNodes (joinPath before name) rest
    simp only [Segment.toNodes, Node.formedAll, Node.formed, Label.fits, ih, Bool.and_self]
  | before, .dynamic name offset :: rest => by
    have ih := Segment.formed_toNodes (joinPath before name) rest
    have ho := Path.formed_toNode (.inr rfl) offset
    simp only [Segment.toNodes, Node.formedAll, Node.formed, Label.fits, ih, ho, Bool.and_self]

end

/-- The members of an anonymous record are no fields. -/
theorem Member.fieldsTyped_toNodes (members : List Member) :
    Node.fieldsTypedAll (Member.toNodes members) = true := by
  induction members with
  | nil => rfl
  | cons m rest ih =>
    rcases m with ⟨name, value⟩
    rw [Member.toNodes, Node.fieldsTypedAll, ih]
    rfl

mutual

/-- **The tree of a value is formed.** -/
theorem Value.formed_toNode : ∀ v : Value, v.toNode.formed = true
  | .allocate _ => rfl
  | .number _ => rfl
  | .text _ => rfl
  | .path p => by
    rw [Value.toNode]
    exact p.formed_toNode (.inl rfl)
  | .pointer _ => rfl
  | .anon members => by
    have ih := Member.formed_toNodes members
    simp only [Value.toNode, Node.formed, Label.fits, Member.fieldsTyped_toNodes, ih,
      Bool.and_self]
  | .call name args => by
    have ih := Value.formed_argNodes args
    simp only [Value.toNode, Node.formed, Label.fits, ih, Bool.and_self]

theorem Member.formed_toNodes : ∀ members : List Member,
    Node.formedAll (Member.toNodes members) = true
  | [] => rfl
  | .mk name value :: rest => by
    have ih := Member.formed_toNodes rest
    have hv := Value.formed_toNode value
    simp only [Member.toNodes, Node.formedAll, Node.formed, hv, ih, Bool.and_true]
    rfl

theorem Value.formed_argNodes : ∀ args : List Value, Node.formedAll (Value.argNodes args) = true
  | [] => rfl
  | value :: rest => by
    have ih := Value.formed_argNodes rest
    have hv := Value.formed_toNode value
    have hk : (value.toNode.kind == .typeExpr) = false :=
      beq_eq_false_iff_ne.mpr (value.kind_ne (.inl rfl))
    simp only [Value.argNodes, Node.formedAll, Node.formed, hv, ih, Bool.and_true, Label.fits,
      List.filter_cons, hk]
    rfl

end

/-- A declaration keeps its shape with modifiers behind it. -/
theorem declarationNode_formed (type : TypeExpr) (name : String) (value : Value)
    {mods : List Node} (hm : ∀ m ∈ mods, m.kind = .modifier) (hf : Node.formedAll mods = true) :
    Node.formed ⟨(declarationNode type name value).label,
      (declarationNode type name value).children ++ mods⟩ = true := by
  have hk : (value.toNode.kind != .modifier) = true := bne_iff_ne.mpr (value.kind_ne (.inr rfl))
  have hnone : mods.filter (·.kind != .modifier) = [] :=
    List.filter_eq_nil_iff.mpr fun m h => by simp [hm m h]
  have hops : operandsOf ((declarationNode type name value).children ++ mods) =
      (declarationNode type name value).children := by
    rw [operandsOf, List.filter_append, hnone, List.append_nil]
    simp only [declarationNode, List.filter_cons, hk]
    rfl
  rw [Node.formed, formedAll_append, hf, Label.fits]
  simp only [declarationNode] at hops ⊢
  simp only [hops, Node.formedAll, Node.formed, value.formed_toNode]
  rfl

theorem Statement.formed_toNode (st : Statement) : st.toNode.formed = true := by
  cases st with
  | declare type name value =>
    have h := declarationNode_formed type name value (fun m hm => absurd hm List.not_mem_nil) rfl
    rwa [List.append_nil] at h
  | assign target value =>
    have ht := target.formed_toNode (.inl rfl)
    simp only [Statement.toNode, Node.formed, Node.formedAll, ht, value.formed_toNode]
    rfl
  | ret value =>
    cases value with
    | none => rfl
    | some v =>
      simp only [Statement.toNode, Option.map_some, Option.toList_some, Node.formed,
        Node.formedAll, v.formed_toNode]
      rfl
  | print value =>
    simp only [Statement.toNode, Node.formed, Node.formedAll, value.formed_toNode]
    rfl
  | call name args => exact (Value.call name args).formed_toNode

theorem Statement.kind_ne_argument (st : Statement) : st.toNode.kind ≠ .argument := by
  cases st with
  | declare => exact NodeKind.noConfusion
  | assign => exact NodeKind.noConfusion
  | ret => exact NodeKind.noConfusion
  | print => exact NodeKind.noConfusion
  | call => exact NodeKind.noConfusion

mutual

theorem Field.formed_toNode : ∀ (parent : String) (field : Field),
    (field.toNode parent).formed = true ∧ (field.toNode parent).fieldsTyped = true
  | parent, .plain type name => by
    rw [Field.toNode]
    exact ⟨rfl, rfl⟩
  | parent, .nested name fields => by
    obtain ⟨hf, ht⟩ := Field.formed_toNodes (joinPath parent name) fields
    rw [Field.toNode, Node.formed, Node.fieldsTyped]
    exact ⟨Bool.and_eq_true_iff.mpr ⟨ht, hf⟩, ht⟩

theorem Field.formed_toNodes : ∀ (parent : String) (fields : List Field),
    Node.formedAll (Field.toNodes parent fields) = true ∧
      Node.fieldsTypedAll (Field.toNodes parent fields) = true
  | _, [] => ⟨rfl, rfl⟩
  | parent, field :: rest => by
    obtain ⟨hf, ht⟩ := Field.formed_toNode parent field
    obtain ⟨hfs, hts⟩ := Field.formed_toNodes parent rest
    rw [Field.toNodes, Node.formedAll, Node.fieldsTypedAll, hf, ht, hfs, hts]
    exact ⟨rfl, rfl⟩

end

theorem modifierNodes_kind (modifiers : List String) :
    ∀ m ∈ modifiers.map modifierNode, m.kind = .modifier := by
  intro m hm
  obtain ⟨name, _, rfl⟩ := List.mem_map.mp hm
  rfl

theorem modifierNodes_formed (modifiers : List String) :
    Node.formedAll (modifiers.map modifierNode) = true ∧
      Node.fieldsTypedAll (modifiers.map modifierNode) = true := by
  induction modifiers with
  | nil => exact ⟨rfl, rfl⟩
  | cons m rest ih =>
    rw [List.map_cons, Node.formedAll, Node.fieldsTypedAll, ih.1, ih.2]
    exact ⟨rfl, rfl⟩

theorem Item.formed_toNode (item : Item) : item.toNode.formed = true := by
  cases item with
  | directive name argument => rfl
  | declaration modifiers declared =>
    obtain ⟨hm, ht⟩ := modifierNodes_formed modifiers
    have hkind := modifierNodes_kind modifiers
    cases declared with
    | record name fields =>
      obtain ⟨hf, hft⟩ := Field.formed_toNodes name fields
      simp only [Item.toNode, Declared.toNode, Node.formed, Label.fits, fieldsTypedAll_append,
        formedAll_append, hf, hft, hm, ht, Bool.and_self]
    | procedure returns name params body =>
      have hp : Node.formedAll (params.map Param.toNode) = true := by
        rw [formedAll_eq_all, List.all_map]
        exact List.all_eq_true.mpr fun p _ => rfl
      have hb : Node.formedAll (body.map Statement.toNode) = true := by
        rw [formedAll_eq_all, List.all_map]
        exact List.all_eq_true.mpr fun st _ => st.formed_toNode
      have htypes : ∀ n ∈ (returns.toNode :: (params.map Param.toNode ++
          body.map Statement.toNode) ++ modifiers.map modifierNode).filter (·.kind == .argument),
          n.label.typeName.isSome = true := by
        intro n hn
        obtain ⟨hn, hk⟩ := List.mem_filter.mp hn
        have hk := beq_iff_eq.mp hk
        simp only [List.cons_append, List.mem_cons, List.mem_append, List.mem_map] at hn
        rcases hn with rfl | (⟨p, _, rfl⟩ | ⟨st, _, rfl⟩) | ⟨m, _, rfl⟩
        · cases hk
        · rfl
        · exact absurd hk st.kind_ne_argument
        · cases hk
      simp only [Item.toNode, Declared.toNode, Node.formed, Label.fits, formedAll_append,
        Node.formedAll, List.all_eq_true.mpr htypes, hp, hb, hm]
      rfl
    | «global» type name value => exact declarationNode_formed type name value hkind hm

/-- **The tree of a program is formed.** -/
theorem Program.formed_toNode (p : Program) : p.toNode.formed = true := by
  have hitems : Node.formedAll (p.items.map Item.toNode) = true := by
    rw [formedAll_eq_all, List.all_map]
    exact List.all_eq_true.mpr fun item _ => item.formed_toNode
  rw [Program.toNode, Node.formed, hitems]
  rfl

/-! ## 6. The contract -/

/-- A run over the tree of a program stops at no shape. -/
theorem Program.analyze_semantic (p : Program) : (Check.analyze p.toNode).Semantic :=
  .bind (visit_semantic p.toNode p.formed_toNode) fun _ => .of_ok fun _ => ⟨_, _, rfl⟩

/-- **A tree that was read is never refused for its shape.** From whatever state the check is run on
    it, a fault it stops at is one of what the program says; else only a size can stop it. -/
theorem analyze_faults {ts : List Token} {tree : Node}
    (hp : (Program.ofTokens ts).map Program.toNode = .ok tree) {s s' : Analyzer} {e : Abort}
    (h : Check.analyze tree s = .error e s') :
    e = .sizeOverflow ∨ ∃ f, e = .fault f ∧ f.isSemantic = true := by
  cases e with
  | sizeOverflow => exact .inl rfl
  | fault f =>
    refine .inr ⟨f, rfl, ?_⟩
    cases hr : Program.ofTokens ts with
    | error err =>
      rw [hr] at hp
      cases hp
    | ok p =>
      rw [hr] at hp
      obtain rfl : p.toNode = tree := Except.ok.inj hp
      exact (p.analyze_semantic s).stop h f rfl

/-- The procedure `declare [void] :: f([int] a) a : declare anon a end ret 1 end`, which returns a
    value where there is none to return. -/
def returningSample : List Token :=
  [tokenOf .declare "declare", tokenOf .lbracket "[", tokenOf .ident "void",
   tokenOf .rbracket "]", tokenOf .doubleColon "::", tokenOf .ident "f", tokenOf .lparen "(",
   tokenOf .lbracket "[", tokenOf .ident "int", tokenOf .rbracket "]", tokenOf .ident "a",
   tokenOf .rparen ")", tokenOf .ident "a", tokenOf .colon ":", tokenOf .declare "declare",
   tokenOf .anon "anon", tokenOf .ident "a", tokenOf .endBlock "end", tokenOf .ret "ret",
   tokenOf .number "1", tokenOf .endBlock "end", tokenOf .eof ""]

/-- The program of these tokens. -/
def returningProgram : Program :=
  ⟨[.declaration [] (.procedure ⟨"void", none, false⟩ "f" [⟨⟨"int", none, false⟩, "a"⟩]
    [.assign (.mk "a" []) (.anon [.mk "a" (.path (.mk "a" []))]), .ret (some (.number "1"))])]⟩

set_option maxRecDepth 20000 in
theorem analyze_faults_of_returningSample : ∃ s',
    (Program.ofTokens returningSample).map Program.toNode = .ok returningProgram.toNode ∧
    Check.analyze returningProgram.toNode .fresh =
      .error (.fault (.unexpectedReturnValue "f")) s' ∧
    ∃ f, Abort.fault (.unexpectedReturnValue "f") = .fault f ∧ f.isSemantic = true := by
  have hp : Program.ofTokens returningSample = .ok returningProgram := by cbv
  have htree : (Program.ofTokens returningSample).map Program.toNode =
      .ok returningProgram.toNode := by
    rw [hp]
    rfl
  have ha : (Check.analyze returningProgram.toNode).abort? Analyzer.fresh =
      some (.fault (.unexpectedReturnValue "f")) := by cbv
  obtain ⟨s', hr⟩ := Check.error_of_abort? ha
  have hf := (analyze_faults htree hr).resolve_left Abort.noConfusion
  exact ⟨s', htree, hr, hf⟩

end Osclan
