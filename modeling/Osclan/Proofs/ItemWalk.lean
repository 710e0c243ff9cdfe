/-
  File:      Osclan/Proofs/ItemWalk.lean
  Subject:   What the walk over an item declares, and what it puts on file.

  Between items only the root is open. A record opens a scope of its own and leaves it empty, since
  its type goes to the root. A procedure goes to the root too; its scope takes the parameters and the
  variables of the body. A global is a variable of the root. Where the walk over an item stops, the
  types of the root are those from before.

  * `Scope.OfBlock` -- the scope that is filed for a block;
  * `Item.Adds` -- what an item adds to the root;
  * `procedure_runs`, `record_runs`, `Item.runs` -- items;
  * `record_accepted` -- records whose types can be formed;
  * `analyze_procedure` -- procedures whose types are known;
  * `Program.runs` -- whole programs.
-/
import Osclan.Proofs.BodyWalk

namespace Osclan

/-! ## 1. Scopes of blocks -/

/-- The scope of a block: as deep as the block, without types and procedures. It is empty for a
    record, and holds for a procedure what the procedure declares. -/
structure Scope.OfBlock (types : Table Ty) (block : Nat × Node) (sc : Scope) : Prop where
  depth : sc.depth = block.1
  noTypes : sc.types = []
  noProcs : sc.procs = []
  ofRecord : block.2.kind = .record → sc.vars = []
  ofProcedure : block.2.kind = .procedure →
    List.Forall₂ (Entered Binding.name (Binding.Means types)) block.2.bindings sc.vars

theorem Scope.OfBlock.mono {types types' : Table Ty} (hp : types <+: types') {block : Nat × Node}
    {sc : Scope} (h : sc.OfBlock types block) : sc.OfBlock types' block :=
  ⟨h.depth, h.noTypes, h.noProcs, h.ofRecord, fun hk =>
    (h.ofProcedure hk).imp fun _ _ he => he.imp fun _ hv => hv.mono hp⟩

/-- The empty scopes of records. -/
theorem ofBlock_emptyScopes (types : Table Ty) {blocks : List (Nat × Node)}
    (h : ∀ b ∈ blocks, b.2.kind = .record) :
    List.Forall₂ (fun b sc => sc.OfBlock types b) blocks (blocks.map emptyScope) := by
  rw [List.forall₂_map_right_iff, List.forall₂_same]
  intro b hb
  refine ⟨rfl, rfl, rfl, fun _ => rfl, fun hk => ?_⟩
  rw [h b hb] at hk
  cases hk

/-! ## 2. Procedures -/

section Procedures

variable {s : Analyzer} {root : Scope}

theorem paramVariables_runs {st : ScopeStack} {types : Table Ty} (hst : st.TypedBy types) :
    ∀ (params : List Param) {s : Analyzer},
    (paramVariables st (params.map Param.toNode)).Runs s
      (fun vs t => List.Forall₂ (Binding.Means types) (params.map Param.binding) vs ∧ t = s)
      fun _ t => t = s
  | [], s => .pure ⟨.nil, rfl⟩
  | p :: rest, s => by
    rw [List.map_cons, List.map_cons, paramVariables]
    refine .bind_ofExcept (fun _ => rfl) fun ty hty => ?_
    refine (Check.Runs.makeVariable rfl).bind ?_
    intro v t ht
    obtain ⟨hv, rfl⟩ := ht
    obtain ⟨hname, htype, hpointer, hsize⟩ := make?_eq_some hv
    refine (paramVariables_runs hst rest).bind ?_
    intro vs t ht
    obtain ⟨hvs, rfl⟩ := ht
    refine .pure ⟨.cons ⟨hname, hpointer, ⟨ty, resolveType_means hst hty, htype⟩, ?_⟩ hvs, rfl⟩
    rw [htype]
    exact hsize

theorem procedureOf_runs {types : Table Ty} {returns : TypeExpr} {name : String}
    {params : List Param} {body : List Statement} {mods : List String}
    (hst : s.scopes.TypedBy types) :
    (procedureOf { kind := .procedure, value := name }
      (procedureNodes returns params body mods)).Runs s
      (fun p t => Heading.Means types ⟨returns, name, params⟩ p ∧ t = s) fun _ t => t = s := by
  unfold procedureOf
  rw [filter_procedureNodes]
  refine .bind_scopes (.bind_ofExcept (fun _ => rfl) fun r hr => ?_)
  obtain ⟨hnone, hsome⟩ := resultType_means hst hr
  refine (paramVariables_runs hst params).bind ?_
  intro vs t ht
  obtain ⟨hvs, rfl⟩ := ht
  split
  · exact .bind_refuse rfl
  · exact .pure ⟨⟨rfl, hnone, hsome, hvs⟩, rfl⟩

/-- **A procedure is added to the root**, and its scope is filed with its parameters and variables. -/
theorem procedure_runs {returns : TypeExpr} {name : String} {params : List Param}
    {body : List Statement} {mods : List String} (hs : s.scopes = ⟨root, []⟩)
    (hdepth : root.depth = 0) :
    (visit ⟨{ kind := .procedure, value := name }, procedureNodes returns params body mods⟩).Runs s
      (fun _ t => ∃ p vs, Heading.Means root.types ⟨returns, name, params⟩ p ∧
        List.Forall₂ (Entered Binding.name (Binding.Means root.types))
          ((procedureNodes returns params body mods).filterMap Node.binding?) vs ∧
        t.scopes = ⟨{ root with procs := root.procs ++ [(Name.mangle name, p)] }, []⟩ ∧
        t.archive = s.archive ++
          ((Node.blocksAll 1 (procedureNodes returns params body mods)).map emptyScope ++
            [{ depth := 1, vars := vs }]))
      fun _ t => ∃ root', t.scopes = ⟨root', []⟩ ∧ root'.depth = 0 ∧ root'.types = root.types := by
  have hpush := ScopeStack.push_root hs hdepth
  unfold visit
  simp only
  refine .inScope ?_
  simp only [hpush]
  refine ((procedureOf_runs ScopeStack.inBody_typedBy).imp (fun _ _ h => h) ?_).bind ?_
  · intro _ t ht
    rw [ht]
    exact ⟨root, (leave_inBody rfl).1, hdepth, rfl⟩
  intro p t ht
  obtain ⟨hp, rfl⟩ := ht
  refine (Check.Runs.declare fun _ => ?_).bind ?_
  · exact ⟨root, (leave_inBody rfl).1, hdepth, rfl⟩
  intro _ u hu
  obtain ⟨st, hdeclared, rfl⟩ := hu
  have hscopes := ScopeStack.declareProcedure_inBody hdeclared
  have hbody := visitAll_fills (procedureNodes_inBody returns params body mods)
    (s := { s with scopes := st, procedure := some p }) hscopes
  have hwalk : (Check.inBodyOf p (visitAll (procedureNodes returns params body mods))).Fills
      { s with scopes := st } { root with procs := root.procs ++ [(p.mangled, p)] } []
      ((procedureNodes returns params body mods).filterMap Node.binding?)
      ((Node.blocksAll 1 (procedureNodes returns params body mods)).map emptyScope) :=
    Check.Runs.inBodyOf hbody
  refine (hwalk.imp (fun _ _ h => h) ?_).bind ?_
  · intro _ w hw
    obtain ⟨vars', hw⟩ := hw
    exact ⟨_, (leave_inBody hw).1, hdepth, rfl⟩
  intro ns w hw
  obtain ⟨vs, hvs, hscopes, hfiled⟩ := hw
  obtain ⟨hleave, hclosed⟩ := leave_inBody hscopes
  refine .pure ⟨p, vs, hp, hvs, ?_, ?_⟩
  · rw [hleave, Procedure.mangled, hp.name]
  · rw [hclosed, hfiled, List.append_assoc]
    rfl

end Procedures

/-! ## 3. Records -/

/-- **A record with a name is added to the root**, and its scope is filed empty. -/
theorem record_runs {s : Analyzer} {root : Scope} {name : String} {fields : List Field}
    {mods : List String} (hs : s.scopes = ⟨root, []⟩) (hdepth : root.depth = 0) (hname : name ≠ "") :
    (visit ⟨{ kind := .record, value := name },
      Field.toNodes name fields ++ mods.map modifierNode⟩).Runs s
      (fun _ t => ∃ ty, Record.Means root.types ⟨name, fields⟩ ty ∧
        root.types.contains (Name.mangle name) = false ∧
        t.scopes = ⟨{ root with types := root.types ++ [(Name.mangle name, ty)] }, []⟩ ∧
        t.archive = s.archive ++ ((Node.blocksAll 1
          (Field.toNodes name fields ++ mods.map modifierNode)).map emptyScope ++ [{ depth := 1 }]))
      fun _ t => t.scopes = ⟨root, []⟩ := by
  have hpush := ScopeStack.push_root hs hdepth
  have hinert : ∀ n ∈ Field.toNodes name fields ++ mods.map modifierNode, n.Inert :=
    List.forall_mem_append.mpr ⟨Field.inertAll name fields, modifierNodes_inert mods⟩
  have hfiles := visitAll_files hinert { s with scopes := .inBody root [] }
  -- the nodes come back as they are, so that the type is read off what is written
  have hsame : ∀ {ns : List Node} {u t : Analyzer},
      visitAll (Field.toNodes name fields ++ mods.map modifierNode) u = .ok ns t →
      ns = Field.toNodes name fields ++ mods.map modifierNode := by
    intro ns u t h
    rw [visitAll_append] at h
    obtain ⟨ns₁, t₁, h₁, h⟩ := Check.bind_ok.mp h
    obtain ⟨ns₂, t₂, h₂, h⟩ := Check.bind_ok.mp h
    obtain ⟨rfl, rfl⟩ := Check.pure_ok.mp h
    rw [((Field.stillAll name fields u).ok h₁).2.1, ((modifiers_stores mods).ok h₂).2.1]
  unfold visit
  simp only
  refine .inScope ?_
  simp only [hpush]
  refine (hfiles.imp (fun _ _ h => h) fun _ t ht => (leave_inBody ht.1).1).with_ok.bind ?_
  intro ns t ht
  obtain ⟨hvisit, hscopes, harchive⟩ := ht
  obtain rfl := hsame hvisit
  rw [declareRecord, if_neg (by simp [Node.value, hname])]
  simp only [bind_assoc]
  refine .bind_scopes (.bind_ofExcept (fun _ => (leave_inBody hscopes).1) fun ty hty => ?_)
  rw [hscopes] at hty
  have hmeans := recordType_means ScopeStack.inBody_typedBy hty
  refine (Check.Runs.declare fun _ => (leave_inBody hscopes).1).bind ?_
  intro _ u hu
  obtain ⟨st, hdeclared, rfl⟩ := hu
  rw [hscopes] at hdeclared
  obtain ⟨hnew, hst⟩ := ScopeStack.declareType_inBody hdeclared
  rw [hmeans.name] at hnew hst
  obtain ⟨hleave, hclosed⟩ := leave_inBody (t := { t with scopes := st }) hst
  refine .pure ⟨ty, hmeans, hnew, hleave, ?_⟩
  rw [hclosed, harchive, List.append_assoc]
  rfl

/-- A written type is walked without a trace if it is known. -/
theorem TypeExpr.visit_of_resolved {type : TypeExpr} {s : Analyzer} {t : Ty}
    (h : resolveType s.scopes type.name type.size = .ok t) :
    visit type.toNode s = .ok type.toNode s := by
  have hk : type.label.kind = .typeExpr := rfl
  unfold TypeExpr.toNode visit
  simp only [hk]
  split
  · rfl
  · exact Check.bind_ok.mpr ⟨_, s, Check.scopes_ok.mpr ⟨rfl, rfl⟩,
      Check.bind_ok.mpr ⟨t, s, Check.ofExcept_ok.mpr ⟨h, rfl⟩, rfl⟩⟩

theorem Check.bind_of_ok {α β : Type} {x : Check α} {f : α → Check β} {s t : Analyzer} {a : α}
    (h : x s = .ok a t) : (x >>= f) s = f a t := by
  simp only [bind, EStateM.bind, h]

/-- A procedure whose type is known is walked from behind the type on. -/
theorem visit_procedure_of_resolved {l : Label} {type : TypeExpr} {rest : List Node}
    {s : Analyzer} {t : Ty} (hk : l.kind = .procedure) (hs : s.scopes.AtTop)
    (h : resolveType s.scopes type.name type.size = .ok t) :
    visit ⟨l, type.toNode :: rest⟩ s = Check.inScope (do
      let p ← procedureOf l (type.toNode :: rest)
      Check.declare (·.declareProcedure p)
      return ⟨l, type.toNode :: (← Check.inBodyOf p (visitAll rest))⟩) s := by
  unfold visit
  simp only [hk]
  unfold Check.inScope
  cases hp : procedureOf l (type.toNode :: rest) { s with scopes := s.scopes.push } with
  | error e u => simp only [bind, EStateM.bind, hp]
  | ok p u =>
    obtain rfl := procedureOf_state hp
    rw [Check.bind_of_ok hp, Check.bind_of_ok hp]
    cases hd : Check.declare (·.declareProcedure p) { s with scopes := s.scopes.push } with
    | error e u => simp only [bind, EStateM.bind, hd]
    | ok v u =>
      obtain ⟨st, hst, rfl⟩ := Check.declare_ok.mp hd
      obtain ⟨outer, _, rfl, _, _, htypes⟩ := hs.lookup_declareProcedure hst
      rw [Check.bind_of_ok hd, Check.bind_of_ok hd]
      have hres : resolveType outer.push type.name type.size = .ok t :=
        (resolveType_congr (funext htypes) type.name type.size).trans h
      have htype : visit type.toNode { s with scopes := outer.push, procedure := some p } =
          .ok type.toNode { s with scopes := outer.push, procedure := some p } :=
        TypeExpr.visit_of_resolved hres
      have hwalk : visitAll (type.toNode :: rest)
            { s with scopes := outer.push, procedure := some p } =
          (do return type.toNode :: (← visitAll rest) : Check (List Node))
            { s with scopes := outer.push, procedure := some p } := by
        rw [visitAll]
        exact Check.bind_of_ok htype
      simp only [bind, EStateM.bind, Check.inBodyOf, hwalk]
      cases visitAll rest { s with scopes := outer.push, procedure := some p } with
      | ok ns w => rfl
      | error e w => rfl

/-- A program of one item is walked through the item. -/
theorem analyze_single (item : Item) : Check.analyze (Program.toNode ⟨[item]⟩) =
    visit item.toNode >>= fun n => Check.handOver ⟨{ kind := .root }, [n]⟩ := by
  rw [Check.analyze, Program.toNode, List.map_singleton]
  conv_lhs =>
    unfold visit
  simp only [visitAll, pure_bind, bind_assoc]

/-- A program of one procedure whose type is known is walked from behind the type on. -/
theorem analyze_procedure {returns : TypeExpr} {t : Ty} {name : String} {params : List Param}
    {body : List Statement}
    (h : resolveType Analyzer.fresh.scopes returns.name returns.size = .ok t) :
    Check.analyze (Program.toNode ⟨[.declaration [] (.procedure returns name params body)]⟩) .fresh =
      (Check.inScope (do
        let l : Label := { kind := .procedure, value := name }
        let p ← procedureOf l (procedureNodes returns params body [])
        Check.declare (·.declareProcedure p)
        return ⟨l, returns.toNode :: (← Check.inBodyOf p
          (visitAll (params.map Param.toNode ++ body.map Statement.toNode ++ [])))⟩) >>= fun n =>
        Check.handOver ⟨{ kind := .root }, [n]⟩) .fresh := by
  have hvisit : visit (Item.declaration [] (.procedure returns name params body)).toNode .fresh = _ :=
    visit_procedure_of_resolved (l := { kind := .procedure, value := name }) rfl ⟨rfl, rfl⟩ h
  rw [analyze_single]
  simp only [bind, EStateM.bind] at hvisit ⊢
  rw [hvisit]
  rfl

mutual

/-- A field is walked if a type is found for it. -/
theorem Field.walked {st : ScopeStack} : ∀ (parent : String) (f : Field) {fields out : Table Ty}
    {rest : List Node} {s : Analyzer}, s.scopes.lookupType? = st.lookupType? →
    recordFields st fields (f.toNode parent :: rest) = .ok out →
    (∃ t, visit (f.toNode parent) s = .ok (f.toNode parent) t) ∧
      ∃ fields', recordFields st fields' rest = .ok out
  | parent, .plain type name, fields, out, rest, s, hs, h => by
    rw [Field.toNode] at h ⊢
    unfold recordFields at h
    obtain ⟨t, ht, h⟩ := except_bind_ok h
    obtain ⟨fields', _, h⟩ := except_bind_ok h
    have hresolve := (resolveType_congr hs type.name type.size).trans ht
    refine ⟨⟨s, ?_⟩, fields', h⟩
    unfold visit visitAll visitAll
    exact Check.bind_ok.mpr ⟨_, s, Check.bind_ok.mpr ⟨_, s, TypeExpr.visit_of_resolved hresolve,
      rfl⟩, rfl⟩
  | parent, .nested name fs, fields, out, rest, s, hs, h => by
    rw [Field.toNode] at h ⊢
    unfold recordFields at h
    obtain ⟨t, ht, h⟩ := except_bind_ok h
    obtain ⟨fields', _, h⟩ := except_bind_ok h
    rw [recordType] at ht
    obtain ⟨inner, hinner, _⟩ := except_bind_ok ht
    rw [← List.append_nil (Field.toNodes _ fs)] at hinner
    have hpush : s.scopes.push.lookupType? = st.lookupType? := hs
    obtain ⟨⟨u, hu⟩, _⟩ := Field.walkedAll (s := { s with scopes := s.scopes.push }) _ fs hpush
      hinner
    have hnone : declareRecord
        ⟨{ kind := .record, value := name, path := some (joinPath parent name) },
          Field.toNodes (joinPath parent name) fs⟩ = pure () := by
      apply declareRecord_eq_pure
      exact .inr (hasSegments_joinPath parent name)
    refine ⟨⟨Check.leave u, ?_⟩, fields', h⟩
    unfold visit
    refine Check.inScope_ok.mpr ⟨u, Check.bind_ok.mpr ⟨_, u, hu, ?_⟩, rfl⟩
    rw [hnone]
    rfl

theorem Field.walkedAll {st : ScopeStack} : ∀ (parent : String) (fs : List Field)
    {fields out : Table Ty} {rest : List Node} {s : Analyzer},
    s.scopes.lookupType? = st.lookupType? →
    recordFields st fields (Field.toNodes parent fs ++ rest) = .ok out →
    (∃ t, visitAll (Field.toNodes parent fs) s = .ok (Field.toNodes parent fs) t) ∧
      ∃ fields', recordFields st fields' rest = .ok out
  | parent, [], fields, out, rest, s, _, h => by
    rw [Field.toNodes] at h ⊢
    unfold visitAll
    exact ⟨⟨s, rfl⟩, fields, h⟩
  | parent, f :: fs, fields, out, rest, s, hs, h => by
    rw [Field.toNodes] at h ⊢
    obtain ⟨⟨t, ht⟩, fields', h⟩ := Field.walked parent f hs h
    have hscopes := (((Field.inert parent f).files s).ok ht).1
    obtain ⟨⟨u, hu⟩, hrest⟩ := Field.walkedAll (s := t) parent fs (by rw [hscopes, hs]) h
    refine ⟨⟨u, ?_⟩, hrest⟩
    unfold visitAll
    exact Check.bind_ok.mpr ⟨_, t, ht, Check.bind_ok.mpr ⟨_, u, hu, rfl⟩⟩

end

/-- **A record is accepted** if its type can be formed and its name is new. -/
theorem record_accepted {s : Analyzer} {root : Scope} {name : String} {fields : List Field} {ty : Ty}
    (hs : s.scopes = ⟨root, []⟩) (hdepth : root.depth = 0) (hname : name ≠ "")
    (hty : recordType (.inBody root [])
      ⟨{ kind := .record, value := name }, Field.toNodes name fields⟩ = .ok ty)
    (hnew : root.types.contains (Name.mangle ty.name) = false) :
    ∃ t, visit ⟨{ kind := .record, value := name }, Field.toNodes name fields⟩ s =
        .ok ⟨{ kind := .record, value := name }, Field.toNodes name fields⟩ t ∧
      t.scopes = ⟨{ root with types := root.types ++ [(Name.mangle ty.name, ty)] }, []⟩ := by
  have hpush := ScopeStack.push_root hs hdepth
  have hwalk : ∃ u, visitAll (Field.toNodes name fields) { s with scopes := .inBody root [] } =
      .ok (Field.toNodes name fields) u := by
    rw [recordType] at hty
    obtain ⟨out, hout, _⟩ := except_bind_ok hty
    rw [← List.append_nil (Field.toNodes _ fields)] at hout
    exact (Field.walkedAll name fields rfl hout).1
  obtain ⟨u, hu⟩ := hwalk
  have hscopes : u.scopes = .inBody root [] :=
    ((visitAll_files (Field.inertAll name fields) _).ok hu).1
  obtain ⟨st, hst⟩ : ∃ st, (ScopeStack.inBody root []).declareType ty = .ok st :=
    ⟨_, ScopeStack.declareType_ok.mpr ⟨hnew, rfl⟩⟩
  have hdeclare : declareRecord ⟨{ kind := .record, value := name }, Field.toNodes name fields⟩ u =
      .ok () { u with scopes := st } := by
    rw [declareRecord, if_neg (by simp [Node.value, hname])]
    exact Check.bind_ok.mpr ⟨_, u, Check.scopes_ok.mpr ⟨hscopes, rfl⟩, Check.bind_ok.mpr ⟨ty, u,
      Check.ofExcept_ok.mpr ⟨hty, rfl⟩, Check.declare_ok.mpr ⟨st, hscopes ▸ hst, rfl⟩⟩⟩
  refine ⟨Check.leave { u with scopes := st }, ?_,
    (leave_inBody (ScopeStack.declareType_inBody hst).2).1⟩
  unfold visit
  refine Check.inScope_ok.mpr ⟨{ u with scopes := st }, ?_, rfl⟩
  rw [hpush]
  exact Check.bind_ok.mpr ⟨_, u, hu, Check.bind_ok.mpr ⟨(), _, hdeclare, rfl⟩⟩

/-! ## 4. Items -/

/-- What an item adds to the root. A record without a name adds nothing. -/
inductive Item.Adds : Item → Scope → Scope → Prop where
  | directive (name argument : String) (sc : Scope) : Adds (.directive name argument) sc sc
  | anonymous (mods : List String) (fields : List Field) (sc : Scope) :
      Adds (.declaration mods (.record "" fields)) sc sc
  | record {mods : List String} {name : String} {fields : List Field} {sc : Scope} {t : Ty} :
      name ≠ "" → sc.types.contains (Name.mangle name) = false →
      Record.Means sc.types ⟨name, fields⟩ t →
      Adds (.declaration mods (.record name fields)) sc
        { sc with types := sc.types ++ [(Name.mangle name, t)] }
  | procedure {mods : List String} {returns : TypeExpr} {name : String} {params : List Param}
      {body : List Statement} {sc : Scope} {p : Procedure} :
      Heading.Means sc.types ⟨returns, name, params⟩ p →
      Adds (.declaration mods (.procedure returns name params body)) sc
        { sc with procs := sc.procs ++ [(Name.mangle name, p)] }
  | «global» {mods : List String} {type : TypeExpr} {name : String} {value : Value} {sc : Scope}
      {v : Variable} :
      (value.binding type name).Means sc.types v →
      Adds (.declaration mods (.global type name value)) sc
        { sc with vars := sc.vars ++ [(Name.mangle name, v)] }

theorem Item.Adds.depth {item : Item} {sc sc' : Scope} (h : item.Adds sc sc') :
    sc'.depth = sc.depth := by
  cases h <;> rfl

theorem Item.Adds.types {item : Item} {sc sc' : Scope} (h : item.Adds sc sc') :
    sc.types <+: sc'.types := by
  cases h with
  | record => exact List.prefix_append _ _
  | directive => exact List.prefix_refl _
  | anonymous => exact List.prefix_refl _
  | procedure => exact List.prefix_refl _
  | «global» => exact List.prefix_refl _

theorem directive_inert (name argument : String) : (Item.directive name argument).toNode.Inert := by
  refine .through (.inr (.inl rfl)) (List.forall_mem_singleton.mpr ?_)
  refine .of_no_blocks (fun _ => Node.blocks_plain ⟨nofun, nofun⟩) fun s => ?_
  unfold visit visitAll
  exact .pure _

/-- **The walk over an item** adds to the root what the item declares, and files the scopes of its
    blocks in the order in which they end. Where it stops, the types are those from before. -/
theorem Item.runs (item : Item) {s : Analyzer} {root : Scope} (hs : s.scopes = ⟨root, []⟩)
    (hdepth : root.depth = 0) :
    (visit item.toNode).Runs s
      (fun _ t => ∃ root' scopes, t.scopes = ⟨root', []⟩ ∧ item.Adds root root' ∧
        t.archive = s.archive ++ scopes ∧
        List.Forall₂ (fun b sc => sc.OfBlock root.types b) (item.toNode.blocks 0) scopes)
      fun _ t => ∃ root', t.scopes = ⟨root', []⟩ ∧ root'.depth = 0 ∧
        root'.types = root.types := by
  have hst : s.scopes.TypedBy root.types := by
    rw [hs]
    exact ScopeStack.root_typedBy
  have hstop : ∀ t : Analyzer, t.scopes = s.scopes →
      ∃ root', t.scopes = ⟨root', []⟩ ∧ root'.depth = 0 ∧ root'.types = root.types :=
    fun t ht => ⟨root, ht.trans hs, hdepth, rfl⟩
  have hdepth' : s.scopes.depth = 0 := by
    rw [hs]
    exact hdepth
  have hinert : ∀ {item : Item}, item.toNode.Inert → item.Adds root root →
      (visit item.toNode).Runs s
        (fun _ t => ∃ root' scopes, t.scopes = ⟨root', []⟩ ∧ item.Adds root root' ∧
          t.archive = s.archive ++ scopes ∧
          List.Forall₂ (fun b sc => sc.OfBlock root.types b) (item.toNode.blocks 0) scopes)
        fun _ t => ∃ root', t.scopes = ⟨root', []⟩ ∧ root'.depth = 0 ∧
          root'.types = root.types := by
    intro item h hadds
    have hfiles := h.files s
    rw [hdepth'] at hfiles
    refine hfiles.imp ?_ fun _ t ht => hstop t ht.1
    intro _ t ht
    exact ⟨root, _, ht.1.trans hs, hadds, ht.2, ofBlock_emptyScopes _ (h.records 0)⟩
  cases item with
  | directive name argument => exact hinert (directive_inert name argument) (.directive ..)
  | declaration mods declared =>
    cases declared with
    | record name fields =>
      by_cases hname : name = ""
      · subst hname
        refine hinert ?_ (.anonymous mods fields root)
        exact .record rfl (.inl rfl) (List.forall_mem_append.mpr
          ⟨Field.inertAll "" fields, modifierNodes_inert mods⟩)
      · refine (record_runs hs hdepth hname).imp ?_ fun _ t ht => hstop t (ht.trans hs.symm)
        intro _ t ht
        obtain ⟨ty, hty, hnew, hscopes, harchive⟩ := ht
        refine ⟨_, _, hscopes, .record hname hnew hty, harchive, ?_⟩
        have hblocks : (Item.declaration mods (.record name fields)).toNode.blocks 0 =
            Node.blocksAll 1 (Field.toNodes name fields ++ mods.map modifierNode) ++
              [(1, (Item.declaration mods (.record name fields)).toNode)] :=
          Node.blocks_block (.inl rfl)
        rw [hblocks]
        have hrecords : ∀ n ∈ Field.toNodes name fields ++ mods.map modifierNode,
            n.HoldsRecords :=
          List.forall_mem_append.mpr ⟨fun n hn => (Field.inertAll name fields n hn).records,
            fun n hn => (modifierNodes_inert mods n hn).records⟩
        refine List.rel_append (ofBlock_emptyScopes _ (records_blocksAll hrecords 1)) ?_
        exact .cons ⟨rfl, rfl, rfl, fun _ => rfl, nofun⟩ .nil
    | procedure returns name params body =>
      refine (procedure_runs hs hdepth).imp_ok ?_
      intro _ t ht
      obtain ⟨p, vs, hp, hvs, hscopes, harchive⟩ := ht
      refine ⟨_, _, hscopes, .procedure hp, harchive, ?_⟩
      have hblocks : (Item.declaration mods (.procedure returns name params body)).toNode.blocks 0 =
          Node.blocksAll 1 (procedureNodes returns params body mods) ++
            [(1, ⟨{ kind := .procedure, value := name },
              procedureNodes returns params body mods⟩)] :=
        Node.blocks_block (.inr rfl)
      rw [hblocks]
      refine List.rel_append (ofBlock_emptyScopes _ ?_)
        (.cons ⟨rfl, rfl, rfl, nofun, fun _ => ?_⟩ .nil)
      · exact records_blocksAll (fun n hn =>
          (procedureNodes_inBody returns params body mods n hn).records) 1
      · rw [bindings_procedureNodes]
        exact hvs
    | «global» type name value =>
      refine (declarationNode_runs type name value (modifierNode_isModifier mods) hst).imp ?_
        fun _ t ht => hstop t ht
      intro _ t ht
      obtain ⟨v, hv, hdeclared, harchive⟩ := ht
      rw [hs] at hdeclared
      have hscopes := ScopeStack.declareVariable_root hdeclared
      rw [Variable.mangled, hv.name] at hscopes
      have hblocks := blocks_declarationNode type name value mods 0
      refine ⟨_, _, hscopes, .global hv, harchive, ?_⟩
      rw [hdepth', show (Item.declaration mods (.global type name value)).toNode.blocks 0 =
        value.toNode.blocks 0 from hblocks]
      exact ofBlock_emptyScopes _ (value.inert.records 0)

/-! ## 5. Programs -/

/-- What items add, one after the other. -/
inductive Item.AddsAll : List Item → Scope → Scope → Prop where
  | nil (sc : Scope) : AddsAll [] sc sc
  | cons {item : Item} {rest : List Item} {sc mid sc' : Scope} :
      item.Adds sc mid → AddsAll rest mid sc' → AddsAll (item :: rest) sc sc'

theorem Item.AddsAll.types {items : List Item} {sc sc' : Scope} (h : AddsAll items sc sc') :
    sc.types <+: sc'.types := by
  induction h with
  | nil sc => exact List.prefix_refl _
  | cons hi _ ih => exact hi.types.trans ih

theorem Item.AddsAll.depth {items : List Item} {sc sc' : Scope} (h : AddsAll items sc sc') :
    sc'.depth = sc.depth := by
  induction h with
  | nil sc => rfl
  | cons hi _ ih => exact ih.trans hi.depth

/-- The run has got through the items, added what they declare, and filed the scopes of their blocks
    behind those that were on file. -/
def Analyzer.Through (s : Analyzer) (root : Scope) (items : List Item) (t : Analyzer) : Prop :=
  ∃ root' scopes, t.scopes = ⟨root', []⟩ ∧ Item.AddsAll items root root' ∧
    t.archive = s.archive ++ scopes ∧
    List.Forall₂ (fun b sc => sc.OfBlock root'.types b)
      (Node.blocksAll 0 (items.map Item.toNode)) scopes

/-- The run has stopped in an item: its types are those behind the items in front of that one. -/
def Analyzer.StoppedIn (root : Scope) (items : List Item) (t : Analyzer) : Prop :=
  ∃ root' mid done, t.scopes = ⟨root', []⟩ ∧ root'.depth = 0 ∧ done <+: items ∧
    Item.AddsAll done root mid ∧ root'.types = mid.types

/-- **The walk over items.** -/
theorem Item.runsAll : ∀ (items : List Item) {s : Analyzer} {root : Scope},
    s.scopes = ⟨root, []⟩ → root.depth = 0 →
    (visitAll (items.map Item.toNode)).Runs s (fun _ t => s.Through root items t)
      fun _ t => t.StoppedIn root items
  | [], s, root, hs, hdepth => by
    unfold visitAll
    exact .pure ⟨root, [], hs, .nil root, (List.append_nil _).symm, .nil⟩
  | item :: rest, s, root, hs, hdepth => by
    rw [List.map_cons]
    unfold visitAll
    refine ((item.runs hs hdepth).imp (fun _ _ h => h) ?_).bind ?_
    · intro _ t ht
      obtain ⟨root', hscopes, hdepth', htypes⟩ := ht
      exact ⟨root', root, [], hscopes, hdepth', List.nil_prefix, .nil root, htypes⟩
    intro n t ht
    obtain ⟨mid, scopes, hscopes, hadds, harchive, hblocks⟩ := ht
    have hmid : mid.depth = 0 := hadds.depth.trans hdepth
    refine ((Item.runsAll rest hscopes hmid).imp (fun _ _ h => h) ?_).bind ?_
    · intro _ u hu
      obtain ⟨root', last, done, hu, hdepth', hdone, hall, htypes⟩ := hu
      exact ⟨root', last, item :: done, hu, hdepth', (List.prefix_cons_inj item).mpr hdone,
        .cons hadds hall, htypes⟩
    intro ns u hu
    obtain ⟨root', scopes', hu, hall, harchive', hblocks'⟩ := hu
    refine .pure ⟨root', scopes ++ scopes', hu, .cons hadds hall, ?_, ?_⟩
    · rw [harchive', harchive, List.append_assoc]
    · rw [List.map_cons, Node.blocksAll]
      -- the types that an item has found are still there at the end
      have hgrown : mid.types <+: root'.types := hall.types
      exact List.rel_append (hblocks.imp fun _ _ h => h.mono (hadds.types.trans hgrown)) hblocks'

/-- **One run over a program.** -/
theorem Program.runs (p : Program) {s : Analyzer} {root : Scope} (hs : s.scopes = ⟨root, []⟩)
    (hdepth : root.depth = 0) :
    (Check.analyze p.toNode).Runs s
      (fun a t => ∃ scopes, t.scopes = ⟨a.globals, []⟩ ∧ Item.AddsAll p.items root a.globals ∧
        a.scopes = s.archive ++ scopes ∧
        List.Forall₂ (fun b sc => sc.OfBlock a.globals.types b) (p.toNode.blocks 0) scopes)
      fun _ t => t.StoppedIn root p.items := by
  have hwalk : (visit p.toNode).Runs s (fun _ t => s.Through root p.items t)
      fun _ t => t.StoppedIn root p.items := by
    unfold Program.toNode visit
    refine (Item.runsAll p.items hs hdepth).bind ?_
    intro ns t ht
    exact .pure ht
  have hblocks : p.toNode.blocks 0 = Node.blocksAll 0 (p.items.map Item.toNode) :=
    Node.blocks_plain ⟨nofun, nofun⟩
  unfold Check.analyze
  refine hwalk.bind ?_
  intro n t ht
  obtain ⟨root', scopes, hscopes, hall, harchive, hfiled⟩ := ht
  constructor
  · intro a u h
    cases h
    rw [hblocks, hscopes]
    exact ⟨scopes, rfl, hall, harchive, hfiled⟩
  · intro e u h
    cases h

end Osclan
