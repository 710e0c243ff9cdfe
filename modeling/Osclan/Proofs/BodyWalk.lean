/-
  File:      Osclan/Proofs/BodyWalk.lean
  Subject:   What the walk over the body of a procedure declares.

  In a body the root and the scope of the procedure are open, and only the second changes. A
  parameter or a declaration adds the variable that it means to the end of it. Any other node of a
  body declares nothing.

  * `Node.binding?`, `Node.bindings` -- the variables that a node and a procedure declare;
  * `ScopeStack.inBody` -- the scopes in a body;
  * `Check.Fills` -- a step that declares variables in a body;
  * `declarationNode_runs` -- a declaration, in a body or at the top;
  * `visitAll_fills`, `procedureNodes_inBody` -- whole bodies.
-/
import Osclan.Proofs.Blocks
import Osclan.Proofs.Meaning

namespace Osclan

/-! ## 1. What is declared in a procedure -/

/-- The length in bytes of a literal. -/
def Node.literalLength? (n : Node) : Option UInt64 :=
  if n.kind = .scalar then some (byteSize n.value) else none

/-- The variable of a label that carries a type. -/
def Label.binding? (l : Label) (start : Option UInt64) : Option Binding :=
  l.typeName.map fun type => ⟨⟨type, l.size, l.pointer⟩, l.value, start⟩

/-- The variable that a parameter or a declaration declares. -/
def Node.binding? (n : Node) : Option Binding :=
  match n.kind with
  | .argument => n.label.binding? none
  | .declaration =>
    match n.operands with
    | target :: value :: _ => target.label.binding? value.literalLength?
    | _ => none
  | _ => none

/-- The variables that a procedure declares: its parameters, and behind them those of its body. -/
def Node.bindings (n : Node) : List Binding :=
  (n.childrenOf .argument).filterMap Node.binding? ++
    (n.childrenOf .declaration).filterMap Node.binding?

/-! ## 2. The bindings of programs -/

/-- A variable that is declared with a value. -/
def Value.binding (type : TypeExpr) (name : String) (value : Value) : Binding :=
  ⟨type, name, value.literal?.map Literal.size⟩

theorem literalType?_size (n : Node) : (literalType? n).map Ty.size = n.literalLength? := by
  unfold literalType? Node.literalLength?
  split
  · simp only
    split <;> rfl
  · rfl

theorem Value.literalLength?_toNode (v : Value) :
    v.toNode.literalLength? = v.literal?.map Literal.size := by
  rw [← literalType?_size, v.literalType?_toNode, Option.map_map]
  cases v with
  | number digits => rfl
  | text content => rfl
  | _ => rfl

theorem Node.binding?_of_kind {n : Node} (h : n.kind ≠ .argument) (h' : n.kind ≠ .declaration) :
    n.binding? = none := by
  unfold Node.binding?
  split
  · exact absurd ‹_› h
  · exact absurd ‹_› h'
  · rfl

theorem binding?_declarationNode (type : TypeExpr) (name : String) (value : Value) :
    (declarationNode type name value).binding? = some (value.binding type name) := by
  have htarget : (Node.mk (({ kind := .reference, value := name } : Label).typedAs type.label)
      []).kind ≠ .modifier := nofun
  have hoperands := operandsOf_pair htarget (value.kind_ne (.inr rfl)) (List.forall_mem_nil _)
  have hmatch : (declarationNode type name value).operands =
      [⟨({ kind := .reference, value := name } : Label).typedAs type.label, []⟩, value.toNode] :=
    hoperands
  unfold Node.binding?
  simp only [show (declarationNode type name value).kind = .declaration from rfl, hmatch]
  rw [value.literalLength?_toNode]
  rfl

theorem Param.binding?_toNode (p : Param) : p.toNode.binding? = some p.binding := rfl

/-- Below a procedure the parameters come first, so that its variables are those of its children in
    order. -/
theorem bindings_procedureNodes (l : Label) (returns : TypeExpr) (params : List Param)
    (body : List Statement) (mods : List String) :
    (Node.mk l (procedureNodes returns params body mods)).bindings =
      (procedureNodes returns params body mods).filterMap Node.binding? := by
  have hbody : ∀ ns : List Node, (∀ n ∈ ns, n.kind ≠ .argument) →
      (ns.filter (·.kind == .declaration)).filterMap Node.binding? =
        ns.filterMap Node.binding? := by
    intro ns hns
    rw [List.filterMap_filter]
    refine List.filterMap_congr fun n hn => ?_
    by_cases hk : n.kind = .declaration
    · rw [if_pos (beq_iff_eq.mpr hk)]
    · rw [if_neg (fun e => hk (beq_iff_eq.mp e)), Node.binding?_of_kind (hns n hn) hk]
  have hparams : (params.map Param.toNode).filter (·.kind == .declaration) = [] :=
    List.filter_eq_nil_iff.mpr (List.forall_mem_map.mpr fun _ _ => Bool.false_ne_true)
  have hstatements : ∀ n ∈ body.map Statement.toNode ++ mods.map modifierNode,
      n.kind ≠ .argument :=
    List.forall_mem_append.mpr ⟨List.forall_mem_map.mpr fun st _ => st.kind_ne_argument,
      List.forall_mem_map.mpr fun _ _ => nofun⟩
  have hreturns : returns.toNode.binding? = none := Node.binding?_of_kind nofun nofun
  have hnodes : procedureNodes returns params body mods = returns.toNode ::
      (params.map Param.toNode ++ (body.map Statement.toNode ++ mods.map modifierNode)) := by
    rw [procedureNodes, List.cons_append, List.append_assoc]
  unfold Node.bindings Node.childrenOf
  simp only
  rw [filter_procedureNodes, hnodes, List.filter_cons_of_neg Bool.false_ne_true,
    List.filter_append, hparams, List.nil_append, hbody _ hstatements,
    List.filterMap_cons_none hreturns, ← List.filterMap_append]

/-! ## 3. Stacks at the top and in a body -/

namespace ScopeStack

/-- The scopes in a procedure that has declared the given variables. -/
def inBody (root : Scope) (vars : Table Variable) : ScopeStack := ⟨root, [{ depth := 1, vars }]⟩

section

variable {root : Scope} {vars : Table Variable} {st : ScopeStack}

theorem push_root (hs : st = mk root []) (h : root.depth = 0) : st.push = inBody root [] := by
  rw [hs]
  show mk root [{ depth := root.depth + 1 }] = _
  rw [h]
  rfl

theorem inBody_typedBy : (inBody root vars).TypedBy root.types :=
  typedBy_root (List.forall_mem_singleton.mpr rfl)

theorem root_typedBy : (mk root []).TypedBy root.types := typedBy_root (List.forall_mem_nil _)

theorem declareVariable_root {v : Variable} (h : (mk root []).declareVariable v = .ok st) :
    st = ⟨{ root with vars := root.vars ++ [(v.mangled, v)] }, []⟩ := by
  obtain ⟨hc, rfl⟩ := declareVariable_ok.mp h
  have hlast := Table.insert_of_not_contains v.mangled v root.vars hc
  show mk { root with vars := root.vars.insert v.mangled v } [] = _
  rw [hlast]

theorem declareVariable_inBody {v : Variable} (h : (inBody root vars).declareVariable v = .ok st) :
    st = inBody root (vars ++ [(v.mangled, v)]) := by
  obtain ⟨hc, rfl⟩ := declareVariable_ok.mp h
  have hlast := Table.insert_of_not_contains v.mangled v vars hc
  show inBody root (vars.insert v.mangled v) = _
  rw [hlast]

/-- A type declared in the scope of its record goes to the root. -/
theorem declareType_inBody {t : Ty} (h : (inBody root vars).declareType t = .ok st) :
    root.types.contains (Name.mangle t.name) = false ∧
      st = inBody { root with types := root.types ++ [(Name.mangle t.name, t)] } vars := by
  obtain ⟨hc, rfl⟩ := declareType_ok.mp h
  have hhost : root.types.contains (Name.mangle t.name) = false := hc
  refine ⟨hhost, ?_⟩
  show inBody { root with types := root.types.insert (Name.mangle t.name) t } vars = _
  rw [Table.insert_of_not_contains _ t root.types hhost]

/-- A procedure declared in its own scope goes to the root. -/
theorem declareProcedure_inBody {p : Procedure}
    (h : (inBody root vars).declareProcedure p = .ok st) :
    st = inBody { root with procs := root.procs ++ [(p.mangled, p)] } vars := by
  obtain ⟨hc, rfl⟩ := declareProcedure_ok.mp h
  have hhost : root.procs.contains p.mangled = false := hc
  show inBody { root with procs := root.procs.insert p.mangled p } vars = _
  rw [Table.insert_of_not_contains _ p root.procs hhost]

end

end ScopeStack

theorem leave_inBody {t : Analyzer} {root : Scope} {vars : Table Variable}
    (h : t.scopes = .inBody root vars) :
    (Check.leave t).scopes = ⟨root, []⟩ ∧
      (Check.leave t).archive = t.archive ++ [{ depth := 1, vars }] := by
  unfold Check.leave
  rw [h]
  exact ⟨rfl, rfl⟩

/-! ## 4. Bodies -/

/-- The step declares the variables that the bindings mean, in a body that has declared `vars`, and
    files the given scopes. However it ends, it has declared nothing outside of the body. -/
def Check.Fills {α : Type} (step : Check α) (s : Analyzer) (root : Scope) (vars : Table Variable)
    (bs : List Binding) (closed : List Scope) : Prop :=
  step.Runs s
    (fun _ t => ∃ vs, List.Forall₂ (Entered Binding.name (Binding.Means root.types)) bs vs ∧
      t.scopes = .inBody root (vars ++ vs) ∧ t.archive = s.archive ++ closed)
    fun _ t => ∃ vars', t.scopes = .inBody root vars'

section Bodies

variable {α β : Type} {s : Analyzer} {root : Scope} {vars : Table Variable} {bs more : List Binding}
  {closed closed' : List Scope}

theorem Check.Fills.of_files {step : Check α} (hs : s.scopes = .inBody root vars)
    (h : step.Files s closed) : step.Fills s root vars [] closed := by
  refine h.imp ?_ ?_
  · intro a t ht
    refine ⟨[], .nil, ?_, ht.2⟩
    rw [List.append_nil, ht.1, hs]
  · intro e t ht
    exact ⟨vars, ht.1.trans hs⟩

/-- What comes behind finds the body as it was left. -/
theorem Check.Fills.bind {x : Check β} {f : β → Check α} (hx : x.Fills s root vars bs closed)
    (hf : ∀ b t vars', t.scopes = .inBody root vars' → (f b).Fills t root vars' more closed') :
    (x >>= f).Fills s root vars (bs ++ more) (closed ++ closed') := by
  refine Check.Runs.bind hx ?_
  intro b t ht
  obtain ⟨vs, hvs, hscopes, harchive⟩ := ht
  refine (hf b t _ hscopes).imp_ok ?_
  intro a u hu
  obtain ⟨vs', hvs', hscopes', harchive'⟩ := hu
  refine ⟨vs ++ vs', List.rel_append hvs hvs', ?_, ?_⟩
  · rw [hscopes', List.append_assoc]
  · rw [harchive', harchive, List.append_assoc]

theorem Check.Fills.bind_pure {x : Check β} {f : β → α} (hx : x.Fills s root vars bs closed) :
    (do return f (← x)).Fills s root vars bs closed := by
  have h : (x >>= fun b => pure (f b)).Fills s root vars (bs ++ []) (closed ++ []) :=
    hx.bind fun b t vars' ht => .of_files ht (.pure (f b))
  rwa [List.append_nil, List.append_nil] at h

/-- A node of a body: its blocks are records, and the walk over it declares the variable that it
    binds, if it binds one. -/
structure Node.InBody (n : Node) : Prop where
  records : n.HoldsRecords
  fills : ∀ (root : Scope) (vars : Table Variable) (s : Analyzer), s.scopes = .inBody root vars →
    (visit n).Fills s root vars n.binding?.toList ((n.blocks 1).map emptyScope)

theorem Node.Inert.inBody {n : Node} (h : n.Inert) (hk : n.kind ≠ .argument)
    (hk' : n.kind ≠ .declaration) : n.InBody := by
  refine ⟨h.records, fun root vars s hs => ?_⟩
  have hdepth : s.scopes.depth = 1 := by
    rw [hs]
    rfl
  have hfiles := h.files s
  rw [hdepth] at hfiles
  rw [Node.binding?_of_kind hk hk']
  exact .of_files hs hfiles

/-- **A body declares the variables of its nodes in order.** -/
theorem visitAll_fills : ∀ {ns : List Node}, (∀ n ∈ ns, n.InBody) →
    ∀ {vars : Table Variable} {s : Analyzer}, s.scopes = .inBody root vars →
    (visitAll ns).Fills s root vars (ns.filterMap Node.binding?)
      ((Node.blocksAll 1 ns).map emptyScope)
  | [], _, vars, s, hs => by
    unfold visitAll
    exact .of_files hs (.pure [])
  | n :: rest, h, vars, s, hs => by
    obtain ⟨hn, hrest⟩ := List.forall_mem_cons.mp h
    have hfilter : (n :: rest).filterMap Node.binding? =
        n.binding?.toList ++ rest.filterMap Node.binding? := by
      rw [List.filterMap_cons]
      cases n.binding? <;> rfl
    rw [hfilter, Node.blocksAll, List.map_append]
    unfold visitAll
    refine (hn.fills root vars s hs).bind fun n' t vars' ht => ?_
    exact (visitAll_fills hrest ht).bind_pure

/-- A declaration is walked through its value, the second of its operands, and nothing else. -/
theorem visit_declarationNode {type : TypeExpr} {name : String} {value : Value} {mods : List Node}
    (hm : ∀ m ∈ mods, m.IsModifier) :
    visit ⟨(declarationNode type name value).label,
      (declarationNode type name value).children ++ mods⟩ = do
      let n ← visit value.toNode
      declareWith (({ kind := .reference, value := name } : Label).typedAs type.label)
        ((operandsOf (⟨({ kind := .reference, value := name } : Label).typedAs type.label, []⟩ ::
          n :: mods))[1]?.bind literalType?)
      return ⟨(declarationNode type name value).label,
        ⟨({ kind := .reference, value := name } : Label).typedAs type.label, []⟩ :: n :: mods⟩ := by
  have hk := value.kind_ne (.inr rfl : NodeKind.modifier = .typeExpr ∨ _)
  have htarget : (Node.mk (({ kind := .reference, value := name } : Label).typedAs type.label)
      []).kind ≠ .modifier := nofun
  have hwalk : visitOperand 1 (⟨({ kind := .reference, value := name } : Label).typedAs type.label,
      []⟩ :: value.toNode :: mods) = do
      let n ← visit value.toNode
      return ⟨({ kind := .reference, value := name } : Label).typedAs type.label, []⟩ :: n ::
        mods := by
    simp only [visitOperand, if_neg htarget, if_neg hk, bind_assoc, pure_bind]
  unfold declarationNode
  conv_lhs => unfold visit
  simp only [List.cons_append, List.nil_append, operandsOf_pair htarget hk hm, hwalk, bind_assoc,
    pure_bind]

/-- **A declaration declares the variable it means**, behind the walk over its value. -/
theorem declarationNode_runs {types : Table Ty} (type : TypeExpr) (name : String) (value : Value)
    {mods : List Node} (hm : ∀ m ∈ mods, m.IsModifier) (hst : s.scopes.TypedBy types) :
    (visit ⟨(declarationNode type name value).label,
      (declarationNode type name value).children ++ mods⟩).Runs s
      (fun _ t => ∃ v, (value.binding type name).Means types v ∧
        s.scopes.declareVariable v = .ok t.scopes ∧
        t.archive = s.archive ++ (value.toNode.blocks s.scopes.depth).map emptyScope)
      fun _ t => t.scopes = s.scopes := by
  have hk := value.kind_ne (.inr rfl : NodeKind.modifier = .typeExpr ∨ _)
  have htarget : (Node.mk (({ kind := .reference, value := name } : Label).typedAs type.label)
      []).kind ≠ .modifier := nofun
  rw [visit_declarationNode hm]
  refine ((value.inert.files s).imp (fun _ _ h => h) fun _ _ h => h.1).with_ok.bind ?_
  intro n t ht
  obtain ⟨hvisit, hscopes, harchive⟩ := ht
  have hk' : n.kind ≠ .modifier := by
    rw [visit_kind hvisit]
    exact hk
  have hliteral : (operandsOf (⟨({ kind := .reference, value := name } : Label).typedAs type.label,
      []⟩ :: n :: mods))[1]?.bind literalType? = value.literal?.map Literal.type := by
    rw [operandsOf_pair htarget hk' hm]
    exact Value.literalType?_visit hvisit
  have hstart : (value.literal?.map Literal.type).map Ty.size = value.literal?.map Literal.size := by
    rw [← value.literalType?_toNode, literalType?_size, value.literalLength?_toNode]
  have hbinds : (declareWith (({ kind := .reference, value := name } : Label).typedAs type.label)
      (value.literal?.map Literal.type)).Binds t types (value.binding type name) := by
    have h := declareWith_binds (hscopes ▸ hst) { kind := .reference, value := name } type
      (value.literal?.map Literal.type)
    rw [hstart] at h
    exact h
  rw [hliteral]
  refine (hbinds.imp (fun _ _ h => h) fun _ _ h => h.trans hscopes).bind ?_
  intro _ u hu
  obtain ⟨v, hv, hdeclared, hsame⟩ := hu
  rw [hscopes] at hdeclared
  exact .pure ⟨v, hv, hdeclared, hsame.trans harchive⟩

/-- The blocks of a declaration are those of its value. -/
theorem blocks_declarationNode (type : TypeExpr) (name : String) (value : Value)
    (mods : List String) (above : Nat) :
    Node.blocks above ⟨(declarationNode type name value).label,
      (declarationNode type name value).children ++ mods.map modifierNode⟩ =
      value.toNode.blocks above := by
  have hplain : Node.blocks above ⟨(declarationNode type name value).label,
      (declarationNode type name value).children ++ mods.map modifierNode⟩ =
      Node.blocksAll above ((declarationNode type name value).children ++ mods.map modifierNode) :=
    Node.blocks_plain ⟨nofun, nofun⟩
  have htarget : Node.blocks above ⟨({ kind := .reference, value := name } : Label).typedAs
      type.label, []⟩ = [] := Node.blocks_plain ⟨nofun, nofun⟩
  rw [hplain, Node.blocksAll_append, Node.blocksAll_modifiers, List.append_nil]
  simp only [declarationNode, Node.blocksAll, htarget, List.nil_append, List.append_nil]

theorem declarationNode_inBody (type : TypeExpr) (name : String) (value : Value) :
    (declarationNode type name value).InBody := by
  have hblocks : ∀ above, (declarationNode type name value).blocks above =
      value.toNode.blocks above := blocks_declarationNode type name value []
  refine ⟨fun above => ?_, fun root vars s hs => ?_⟩
  · rw [hblocks]
    exact value.inert.records above
  · have hst : s.scopes.TypedBy root.types := by
      rw [hs]
      exact ScopeStack.inBody_typedBy
    have hdepth : s.scopes.depth = 1 := by
      rw [hs]
      rfl
    have hruns := declarationNode_runs type name value (List.forall_mem_nil _) hst
    rw [List.append_nil, hdepth] at hruns
    rw [binding?_declarationNode, hblocks]
    refine hruns.imp ?_ ?_
    · intro _ t ht
      obtain ⟨v, hv, hdeclared, harchive⟩ := ht
      rw [hs] at hdeclared
      exact ⟨[(v.mangled, v)], .cons ⟨congrArg Name.mangle hv.name, hv⟩ .nil,
        ScopeStack.declareVariable_inBody hdeclared, harchive⟩
    · intro _ t ht
      exact ⟨vars, ht.trans hs⟩

theorem Param.inBody (p : Param) : p.toNode.InBody := by
  have hblocks : ∀ above, p.toNode.blocks above = [] := by
    intro above
    have htype : p.type.toNode.blocks above = [] := Node.blocks_plain ⟨nofun, nofun⟩
    have hplain : p.toNode.blocks above = Node.blocksAll above [p.type.toNode] :=
      Node.blocks_plain ⟨nofun, nofun⟩
    rw [hplain, Node.blocksAll, htype, Node.blocksAll, List.append_nil]
  refine ⟨fun above => ?_, fun root vars s hs => ?_⟩
  · rw [hblocks]
    exact List.forall_mem_nil _
  · have hst : s.scopes.TypedBy root.types := by
      rw [hs]
      exact ScopeStack.inBody_typedBy
    rw [hblocks, p.binding?_toNode]
    unfold Param.toNode visit
    refine Check.Fills.bind_pure ?_
    refine (declareTyped_binds hst).imp ?_ ?_
    · intro _ t ht
      obtain ⟨v, hv, hdeclared, harchive⟩ := ht
      rw [hs] at hdeclared
      refine ⟨[(v.mangled, v)], .cons ⟨congrArg Name.mangle hv.name, hv⟩ .nil,
        ScopeStack.declareVariable_inBody hdeclared, ?_⟩
      rw [harchive]
      exact (List.append_nil _).symm
    · intro _ t ht
      exact ⟨vars, ht.trans hs⟩

theorem Statement.inBody (st : Statement) : st.toNode.InBody := by
  by_cases hk : st.toNode.kind = .declaration
  · cases st with
    | declare type name value => exact declarationNode_inBody type name value
    | assign target value => cases hk
    | ret value => cases hk
    | print value => cases hk
    | call name args => cases hk
  · exact (st.inert hk).inBody st.kind_ne_argument hk

theorem procedureNodes_inBody (returns : TypeExpr) (params : List Param) (body : List Statement)
    (mods : List String) : ∀ n ∈ procedureNodes returns params body mods, n.InBody := by
  refine List.forall_mem_append.mpr ⟨List.forall_mem_cons.mpr ⟨?_, ?_⟩, ?_⟩
  · exact returns.inert.inBody nofun nofun
  · exact List.forall_mem_append.mpr ⟨List.forall_mem_map.mpr fun p _ => p.inBody,
      List.forall_mem_map.mpr fun st _ => st.inBody⟩
  · intro n hn
    have hk : n.kind = .modifier := (modifierNode_isModifier mods n hn).kind
    refine (modifierNodes_inert mods n hn).inBody ?_ ?_
    · rw [hk]
      exact nofun
    · rw [hk]
      exact nofun

end Bodies

end Osclan
