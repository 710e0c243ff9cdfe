/-
  File:      Osclan/Proofs/Linking.lean
  Subject:   The calls and the labels of the assembly of an accepted source.

  Code is generated from the tree alone: a label for each procedure at the top, a call for each call
  in it. That the two fit together is the work of the check. It finds every call under a key that
  some procedure has, and it refuses a key that the root has already; and names share a key exactly
  if they share a label.

  * `Assembly.labels`, `Assembly.labels_ofTree` -- the labels of an assembly;
  * `CallsIn` -- a good walk finds every call of a tree among some keys, and its rules;
  * `Program.callsIn` -- so it is for the tree of every program;
  * `accepted_calls_are_labels` -- every call goes to a label;
  * `accepted_labels_nodup_iff` -- the labels differ, unless a procedure is called `start`.
-/
import Osclan.Proofs.Acceptance
import Osclan.Proofs.Annotation
import Osclan.Proofs.Name
import Osclan.Proofs.ProcedureTable

namespace Osclan

/-! ## 1. Labels and calls of an assembly -/

namespace Assembly

/-- The names of the labels, in order. -/
def labels (asm : Assembly) : List String :=
  asm.filterMap fun
    | .label name => some name
    | _ => none

theorem mem_labels {asm : Assembly} {name : String} : name ∈ asm.labels ↔ .label name ∈ asm := by
  unfold labels
  rw [List.mem_filterMap]
  constructor
  · rintro ⟨line, hm, h⟩
    cases line with
    | label other =>
      rw [Option.some.inj h] at hm
      exact hm
    | _ => cases h
  · intro h
    exact ⟨_, h, rfl⟩

theorem labels_append (a b : Assembly) : labels (a ++ b) = labels a ++ labels b :=
  List.filterMap_append

theorem labels_insts (is : List Instruction) : labels (is.map .inst) = [] := by
  unfold labels
  rw [List.filterMap_map, List.filterMap_eq_nil_iff]
  intro i _
  rfl

theorem labels_frame (name : String) (body : List Instruction) :
    labels (frame name body) = [Name.label name] := by
  have e : frame name body = [.label (Name.label name)] ++
      ((prologue ++ body ++ epilogue).map .inst ++ [.blank]) := rfl
  rw [e, labels_append, labels_append, labels_insts]
  rfl

theorem labels_flatMap_frame (f : Node → List Instruction) (ps : List Node) :
    labels (ps.flatMap fun p => frame p.value (f p)) = ps.map fun p => Name.label p.value := by
  induction ps with
  | nil => rfl
  | cons p ps ih =>
    rw [List.flatMap_cons, labels_append, labels_frame, ih]
    rfl

/-- The names of the procedures at the top of a tree, in source order. -/
def procedureNames (tree : Node) : List String := (procedures tree).map Node.value

/-- The labels that are added for a tree without a main procedure. -/
def addedLabels (tree : Node) : List String :=
  if mainName ∈ procedureNames tree then [] else [Name.label mainName]

/-- **The labels of a tree's assembly**: the entry, the procedures, and the main procedure where the
    tree has none. -/
theorem labels_ofTree (now : Calendar.Instant) (tree : Node) :
    labels (ofTree now tree) =
      "_start" :: ((procedureNames tree).map Name.label ++ addedLabels tree) := by
  have hmain : ((procedures tree).any (·.value == mainName)) = true ↔
      mainName ∈ procedureNames tree := by
    simp only [procedureNames, List.any_eq_true, beq_iff_eq, List.mem_map]
  have hadded : labels (if ((procedures tree).any (·.value == mainName)) = true then []
      else frame mainName []) = addedLabels tree := by
    unfold addedLabels
    by_cases h : mainName ∈ procedureNames tree
    · rw [if_pos h, if_pos (hmain.mpr h)]
      rfl
    · rw [if_neg h, if_neg (fun h' => h (hmain.mp h')), labels_frame]
  have hhead : labels (header now ++ start) = ["_start"] := rfl
  simp only [ofTree]
  rw [labels_append, labels_append, hhead, labels_flatMap_frame, hadded, procedureNames,
    List.map_map]
  rfl

mutual

theorem calls_eq_map : ∀ n : Node,
    calls n = (n.valuesOf .call).map fun name => .bl (Name.label name)
  | ⟨l, children⟩ => by
    rw [calls, Node.valuesOf, List.map_append, callsAll_eq_map children]
    by_cases h : l.kind = .call
    · rw [if_pos h, if_pos h]
      rfl
    · rw [if_neg h, if_neg h]
      rfl

theorem callsAll_eq_map : ∀ ns : List Node,
    callsAll ns = (Node.valuesOfAll .call ns).map fun name => .bl (Name.label name)
  | [] => rfl
  | n :: rest => by
    rw [callsAll, Node.valuesOfAll, List.map_append, calls_eq_map n, callsAll_eq_map rest]

end

theorem mem_frame_bl {name target : String} {body : List Instruction}
    (h : .inst (.bl target) ∈ frame name body) : .bl target ∈ body := by
  simp only [frame, prologue, epilogue, List.cons_append, List.nil_append, List.append_assoc,
    List.map_cons, List.map_append, List.map_nil, List.mem_cons, List.mem_append, List.mem_map,
    List.not_mem_nil, reduceCtorEq, Line.inst.injEq, or_false, false_or] at h
  obtain ⟨i, hi, rfl⟩ := h
  exact hi

/-- **The calls of a tree's assembly**: that of the entry, and those of the procedures. -/
theorem mem_ofTree_bl {now : Calendar.Instant} {tree : Node} {target : String}
    (h : .inst (.bl target) ∈ ofTree now tree) :
    target = Name.label mainName ∨ ∃ p ∈ procedures tree,
      ∃ name ∈ Node.valuesOfAll .call p.children, target = Name.label name := by
  simp only [ofTree, List.mem_append] at h
  rcases h with ((h | h) | h) | h
  · simp only [header, List.mem_cons, List.not_mem_nil, reduceCtorEq, or_self] at h
  · simp only [start, List.mem_cons, List.not_mem_nil, reduceCtorEq, Line.inst.injEq,
      Instruction.bl.injEq, or_false, false_or] at h
    exact .inl h
  · obtain ⟨p, hp, hl⟩ := List.mem_flatMap.mp h
    have hb := mem_frame_bl hl
    rw [callsAll_eq_map] at hb
    obtain ⟨name, hn, e⟩ := List.mem_map.mp hb
    exact .inr ⟨p, hp, name, hn, (Instruction.bl.inj e).symm⟩
  · split at h
    · exact absurd h List.not_mem_nil
    · exact absurd (mem_frame_bl h) List.not_mem_nil

end Assembly

/-! ## 2. Calls that a good walk has found -/

section CallsIn

variable {K : String → Prop}

/-- Where all procedures have keys of `K`, a good walk over the tree has found every call of the
    tree under a key of `K`. -/
def CallsIn (K : String → Prop) (n : Node) : Prop :=
  ∀ ⦃s s' : Analyzer⦄ ⦃n' : Node⦄, s.scopes.ProcsIn K → visit n s = .ok n' s' →
    ∀ name ∈ n.valuesOf .call, K (Name.mangle name)

theorem callsIn_of_none {n : Node} (h : n.valuesOf .call = []) : CallsIn K n := by
  intro s s' n' _ _ name hn
  rw [h] at hn
  exact absurd hn List.not_mem_nil

/-- Nodes are walked one after the other, and each walk leaves keys of `K` only. -/
theorem visitAll_callsIn : ∀ {ns ns' : List Node} {s s' : Analyzer}, (∀ n ∈ ns, CallsIn K n) →
    (∀ name ∈ Node.valuesOfAll .procedure ns, K (Name.mangle name)) → s.scopes.ProcsIn K →
    visitAll ns s = .ok ns' s' → ∀ name ∈ Node.valuesOfAll .call ns, K (Name.mangle name)
  | [], _, _, _, _, _, _, _ => fun _ hn => absurd hn List.not_mem_nil
  | n :: rest, ns', s, s', hc, hp, hs, h => by
    unfold visitAll at h
    simp only [Check.bind_ok, Check.pure_ok] at h
    obtain ⟨n', t, hn, rest', _, hr, _, rfl⟩ := h
    obtain ⟨hpn, hpr⟩ := @declares_cons (fun name => K (Name.mangle name)) _ _ hp
    have ht : t.scopes.ProcsIn K := ((visit_does _ hpn s).ok hn).procsIn hs
    intro name hname
    rw [Node.valuesOfAll, List.mem_append] at hname
    rcases hname with hname | hname
    · exact hc n List.mem_cons_self hs hn name hname
    · exact visitAll_callsIn (fun m hm => hc m (List.mem_cons_of_mem _ hm)) hpr ht hr name hname

/-- The kinds at which the walk goes through all children. -/
def walksChildren (n : Node) : Prop :=
  n.kind ∈ [.root, .print, .ret, .record, .procedure, .call] ∨
    (n.kind = .argument ∧ n.children.filter (·.kind == .typeExpr) = [])

/-- A good walk over such a node contains a good walk over its children. -/
theorem visitAll_of_visit {l : Label} {children : List Node} {s s' : Analyzer} {n' : Node}
    (hk : walksChildren ⟨l, children⟩) (hp : l.kind = .procedure → K (Name.mangle l.value))
    (hs : s.scopes.ProcsIn K) (h : visit ⟨l, children⟩ s = .ok n' s') :
    ∃ t t' ns, t.scopes.ProcsIn K ∧ visitAll children t = .ok ns t' := by
  have hfirst : ∀ {β : Type} {f : List Node → Check β} {m : β} {u u' : Analyzer},
      u.scopes.ProcsIn K → (visitAll children >>= f) u = .ok m u' →
      ∃ t t' ns, t.scopes.ProcsIn K ∧ visitAll children t = .ok ns t' := by
    intro β f m u u' hu h
    obtain ⟨ns, t, hv, _⟩ := Check.bind_ok.mp h
    exact ⟨u, t, ns, hu, hv⟩
  unfold visit at h
  rcases hk with hk | ⟨hk, hc⟩
  · simp only [List.mem_cons, List.not_mem_nil, or_false] at hk
    rcases hk with hk | hk | hk | hk | hk | hk
    all_goals
      have hk' : l.kind = _ := hk
      simp only [hk'] at h
    · exact hfirst hs h
    · exact hfirst hs h
    · exact hfirst hs h
    · obtain ⟨_, hv, _⟩ := Check.inScope_ok.mp h
      exact hfirst hs.push hv
    · -- the body is walked after the procedure itself has been declared, with a key of `K`
      simp only [Check.inScope_ok, Check.bind_ok, Check.declare_ok, Check.inBodyOf_ok] at h
      obtain ⟨_, ⟨p, _, hpo, _, _, ⟨st, hst, rfl⟩, ns, _, ⟨t, hv, rfl⟩, _⟩, _⟩ := h
      obtain rfl := procedureOf_state hpo
      have hd : K (Name.mangle p.name) := by
        rw [procedureOf_name hpo]
        exact hp hk'
      have hst' : st.ProcsIn K := (Effect.declareProcedure p hd hst).procsIn hs.push
      exact ⟨_, t, ns, hst', hv⟩
    · simp only [Check.bind_ok, Check.scopes_ok] at h
      obtain ⟨_, _, ⟨rfl, rfl⟩, h⟩ := h
      cases hl : s.scopes.lookupProcedure? l.value with
      | none =>
        simp only [hl] at h
        exact absurd h Check.refuse_ok
      | some p =>
        simp only [hl] at h
        exact hfirst hs h
  · have hk' : l.kind = .argument := hk
    have hc' : (children.filter (·.kind == .typeExpr)) = [] := hc
    simp only [hk', hc', List.length_nil] at h
    exact hfirst hs h

/-- A call that is walked well has been found. -/
theorem key_of_visit_call {l : Label} {children : List Node} {s s' : Analyzer} {n' : Node}
    (hk : l.kind = .call) (hs : s.scopes.ProcsIn K) (h : visit ⟨l, children⟩ s = .ok n' s') :
    K (Name.mangle l.value) := by
  unfold visit at h
  simp only [hk, Check.bind_ok, Check.scopes_ok] at h
  obtain ⟨_, _, ⟨rfl, rfl⟩, h⟩ := h
  cases hl : s.scopes.lookupProcedure? l.value with
  | none =>
    simp only [hl] at h
    exact absurd h Check.refuse_ok
  | some p => exact hs.of_lookup hl

/-- **Calls of a node come from its children, and from itself if it is one.** -/
theorem callsIn_of_children {l : Label} {children : List Node} (hk : walksChildren ⟨l, children⟩)
    (hp : ∀ name ∈ Node.valuesOf .procedure ⟨l, children⟩, K (Name.mangle name))
    (hc : ∀ n ∈ children, CallsIn K n) : CallsIn K ⟨l, children⟩ := by
  intro s s' n' hs h name hn
  have hown : l.kind = .procedure → K (Name.mangle l.value) := by
    intro e
    apply hp
    rw [valuesOf_of_eq children e]
    exact List.mem_append_right _ List.mem_cons_self
  obtain ⟨t, t', ns, ht, hv⟩ := visitAll_of_visit hk hown hs h
  have hpc := @declares_children (fun name => K (Name.mangle name)) _ _ hp
  by_cases hcall : l.kind = .call
  · rw [valuesOf_of_eq children hcall, List.mem_append, List.mem_singleton] at hn
    rcases hn with hn | rfl
    · exact visitAll_callsIn hc hpc ht hv name hn
    · exact key_of_visit_call hcall hs h
  · rw [valuesOf_of_ne children hcall] at hn
    exact visitAll_callsIn hc hpc ht hv name hn

/-- The target of an assignment holds no calls, so they come from its value. -/
theorem callsIn_assignment {l : Label} {target value : Node} (hk : l.kind = .assignment)
    (ht : target.valuesOf .call = []) (hv : CallsIn K value) : CallsIn K ⟨l, [target, value]⟩ := by
  intro s s' n' hs h name hn
  unfold visit at h
  simp only [hk] at h
  obtain ⟨_, _, hvisit, _⟩ := Check.bind_ok.mp h
  have hne : l.kind ≠ .call := by
    rw [hk]
    decide
  rw [valuesOf_of_ne _ hne, Node.valuesOfAll, Node.valuesOfAll, Node.valuesOfAll, ht,
    List.nil_append, List.append_nil] at hn
  exact hv hs hvisit name hn

/-- So do those of a declaration; modifiers may stand after its value. -/
theorem callsIn_declaration {l : Label} {target value : Node} {modifiers : List Node}
    (hk : l.kind = .declaration) (htk : target.kind ≠ .modifier) (hvk : value.kind ≠ .modifier)
    (hmk : ∀ m ∈ modifiers, m.kind = .modifier) (ht : target.valuesOf .call = [])
    (hm : Node.valuesOfAll .call modifiers = []) (hv : CallsIn K value) :
    CallsIn K ⟨l, target :: value :: modifiers⟩ := by
  intro s s' n' hs h name hn
  have hops : operandsOf (target :: value :: modifiers) = [target, value] := by
    have hnone : modifiers.filter (·.kind != .modifier) = [] := by
      rw [List.filter_eq_nil_iff]
      intro m hmem
      simp only [hmk m hmem, bne_self_eq_false, Bool.false_eq_true, not_false_eq_true]
    simp only [operandsOf, List.filter_cons, bne_iff_ne, ne_eq, htk, hvk, not_false_eq_true,
      if_true, hnone]
  unfold visit at h
  simp only [hk, hops] at h
  obtain ⟨_, _, hvisit, _⟩ := Check.bind_ok.mp h
  unfold visitOperand at hvisit
  rw [if_neg htk] at hvisit
  obtain ⟨_, _, hvisit, _⟩ := Check.bind_ok.mp hvisit
  unfold visitOperand at hvisit
  rw [if_neg hvk] at hvisit
  obtain ⟨_, _, hvisit, _⟩ := Check.bind_ok.mp hvisit
  have hne : l.kind ≠ .call := by
    rw [hk]
    decide
  rw [valuesOf_of_ne _ hne, Node.valuesOfAll, Node.valuesOfAll, ht, hm, List.nil_append,
    List.append_nil] at hn
  exact hv hs hvisit name hn

/-! ## 3. The tree of a program -/

/-- What declares no procedure asks nothing of the keys. -/
theorem declares_none {n : Node} (h : n.valuesOf .procedure = []) :
    ∀ name ∈ n.valuesOf .procedure, K (Name.mangle name) := by
  rw [h]
  exact fun _ hn => absurd hn List.not_mem_nil

mutual

/-- **Every call in a value is walked.** -/
theorem Value.callsIn : ∀ v : Value, CallsIn K v.toNode
  | .allocate _ => callsIn_of_none rfl
  | .number _ => callsIn_of_none rfl
  | .text _ => callsIn_of_none rfl
  | .path p => by
    rw [Value.toNode]
    exact callsIn_of_none (referenceNode_valuesOf (.inr rfl))
  | .pointer _ => callsIn_of_none rfl
  | .anon members => by
    have hp := Value.valuesOf_procedure (.anon members)
    rw [Value.toNode] at hp ⊢
    exact callsIn_of_children (.inl (by simp [Node.kind])) (declares_none hp)
      (Member.callsIn members)
  | .call name args => by
    have hp := Value.valuesOf_procedure (.call name args)
    rw [Value.toNode] at hp ⊢
    exact callsIn_of_children (.inl (by simp [Node.kind])) (declares_none hp)
      (Value.argsCallsIn args)

theorem Member.callsIn : ∀ members : List Member, ∀ n ∈ Member.toNodes members, CallsIn K n
  | [], _, hn => absurd hn List.not_mem_nil
  | .mk name value :: rest, n, hn => by
    rw [Member.toNodes, List.mem_cons] at hn
    rcases hn with rfl | hn
    · exact callsIn_assignment rfl rfl (Value.callsIn value)
    · exact Member.callsIn rest n hn

theorem Value.argsCallsIn : ∀ args : List Value, ∀ n ∈ Value.argNodes args, CallsIn K n
  | [], _, hn => absurd hn List.not_mem_nil
  | value :: rest, n, hn => by
    rw [Value.argNodes, List.mem_cons] at hn
    rcases hn with rfl | hn
    · have hk : [value.toNode].filter (·.kind == .typeExpr) = [] := by
        have hne : (value.toNode.kind == .typeExpr) = false :=
          beq_false_of_ne (value.kind_ne (.inl rfl))
        simp only [List.filter_cons, hne, Bool.false_eq_true, if_false, List.filter_nil]
      have hp : Node.valuesOf .procedure ⟨{ kind := .argument }, [value.toNode]⟩ = [] := by
        simp only [Node.valuesOf, Node.valuesOfAll, value.valuesOf_procedure, reduceCtorEq,
          if_false, List.append_nil]
      refine callsIn_of_children (.inr ⟨rfl, hk⟩) (declares_none hp) ?_
      intro m hm
      rw [List.mem_singleton.mp hm]
      exact Value.callsIn value
    · exact Value.argsCallsIn rest n hn

end

theorem declaration_callsIn (type : TypeExpr) (name : String) (value : Value)
    (modifiers : List String) :
    CallsIn K ⟨(declarationNode type name value).label,
      (declarationNode type name value).children ++ modifiers.map modifierNode⟩ := by
  refine callsIn_declaration rfl (by simp [Node.kind, Label.typedAs]) (value.kind_ne (.inr rfl))
    ?_ rfl ?_ value.callsIn
  · intro m hm
    obtain ⟨name, _, rfl⟩ := List.mem_map.mp hm
    rfl
  · exact modifierNodes_valuesOf modifiers (by decide)

theorem Statement.callsIn (st : Statement) : CallsIn K st.toNode := by
  cases st with
  | declare type name value =>
    have h : CallsIn K ⟨_, _ ++ [].map modifierNode⟩ := declaration_callsIn type name value []
    rwa [List.map_nil, List.append_nil] at h
  | assign target value =>
    exact callsIn_assignment rfl (referenceNode_valuesOf (.inr rfl)) value.callsIn
  | ret value =>
    refine callsIn_of_children (.inl (by simp [Node.kind]))
      (declares_none (Statement.ret value).valuesOf_procedure) ?_
    intro n hn
    cases value with
    | none => exact absurd hn List.not_mem_nil
    | some v =>
      rw [List.mem_singleton.mp hn]
      exact v.callsIn
  | print value =>
    refine callsIn_of_children (.inl (by simp [Node.kind]))
      (declares_none (Statement.print value).valuesOf_procedure) ?_
    intro n hn
    rw [List.mem_singleton.mp hn]
    exact value.callsIn
  | call name args => exact (Value.call name args).callsIn

/-- A child of a procedure's node declares no procedure, and each of its calls is walked. -/
theorem procedure_child {returns : TypeExpr} {name : String} {params : List Param}
    {body : List Statement} {modifiers : List String} :
    ∀ n ∈ (Declared.procedure returns name params body).toNode.children ++
        modifiers.map modifierNode,
      n.valuesOf .procedure = [] ∧ CallsIn K n := by
  intro n hn
  simp only [Declared.toNode, List.mem_append, List.mem_cons, List.mem_map] at hn
  rcases hn with (rfl | ⟨p, _, rfl⟩ | ⟨st, _, rfl⟩) | ⟨m, _, rfl⟩
  · exact ⟨rfl, callsIn_of_none rfl⟩
  · exact ⟨p.valuesOf_toNode (by decide) (by decide),
      callsIn_of_none (p.valuesOf_toNode (by decide) (by decide))⟩
  · exact ⟨st.valuesOf_procedure, st.callsIn⟩
  · exact ⟨rfl, callsIn_of_none rfl⟩

/-- **Every call in an item of a program is walked,** where `K` has its procedure. -/
theorem Item.callsIn (item : Item)
    (hp : ∀ name ∈ item.toNode.valuesOf .procedure, K (Name.mangle name)) :
    CallsIn K item.toNode := by
  cases item with
  | directive name argument => exact callsIn_of_none rfl
  | declaration modifiers declared =>
    cases declared with
    | record name fields =>
      apply callsIn_of_none
      rw [Item.valuesOf_declaration _ _ (by decide)]
      exact Declared.valuesOf_record name fields (.inr rfl)
    | procedure returns name params body =>
      exact callsIn_of_children (.inl (by simp [Node.kind, Declared.toNode])) hp
        fun n hn => (procedure_child n hn).2
    | «global» type name value => exact declaration_callsIn type name value modifiers

/-- **Every call in a program is walked,** where `K` has its procedures. -/
theorem Program.callsIn (p : Program)
    (hp : ∀ name ∈ p.toNode.valuesOf .procedure, K (Name.mangle name)) : CallsIn K p.toNode := by
  refine callsIn_of_children (.inl (by simp [Node.kind])) hp ?_
  intro n hn
  obtain ⟨item, hi, rfl⟩ := List.mem_map.mp hn
  refine item.callsIn ?_
  intro name hname
  apply hp
  rw [Program.toNode, valuesOf_of_ne _ (by simp), valuesOfAll_eq_flatMap]
  exact List.mem_flatMap.mpr ⟨_, hn, hname⟩

end CallsIn

/-- The procedures of a program stand at its top. -/
theorem Item.procsAtTop (item : Item) : item.toNode.ProcsAtTop := by
  cases item with
  | directive name argument => exact .inl rfl
  | declaration modifiers declared =>
    cases declared with
    | record name fields =>
      left
      rw [Item.valuesOf_declaration _ _ (by decide)]
      exact Declared.valuesOf_record name fields (.inl rfl)
    | procedure returns name params body =>
      refine .inr ⟨rfl, valuesOfAll_eq_nil fun n hn => ?_⟩
      exact (@procedure_child (fun _ => True) _ _ _ _ _ n hn).1
    | «global» type name value =>
      left
      rw [Item.valuesOf_declaration _ _ (by decide)]
      exact Declared.valuesOf_global type name value

/-- The procedures that a program's tree declares are those at its top. -/
theorem Program.valuesOf_procedure (p : Program) :
    p.toNode.valuesOf .procedure = Assembly.procedureNames p.toNode := by
  rw [Program.toNode, valuesOf_of_ne _ NodeKind.noConfusion]
  apply valuesOfAll_of_procsAtTop
  intro n hn
  obtain ⟨item, _, rfl⟩ := List.mem_map.mp hn
  exact item.procsAtTop

/-! ## 4. Accepted sources -/

namespace Assembly

/-- What is added is the label of the main procedure, where no procedure has it. -/
theorem mem_addedLabels {tree : Node} {name : String} :
    name ∈ addedLabels tree ↔
      name = Name.label mainName ∧ Name.label mainName ∉ (procedureNames tree).map Name.label := by
  have hm := @Name.mem_map_label_iff mainName (procedureNames tree) (by decide) (by decide)
  unfold addedLabels
  rw [hm]
  by_cases h : mainName ∈ procedureNames tree
  · rw [if_pos h]
    exact ⟨fun hn => absurd hn List.not_mem_nil, fun hn => absurd h hn.2⟩
  · rw [if_neg h, List.mem_singleton]
    exact ⟨fun hn => ⟨hn, h⟩, And.left⟩

theorem addedLabels_nodup (tree : Node) : (addedLabels tree).Nodup := by
  unfold addedLabels
  split
  · exact List.nodup_nil
  · exact List.pairwise_singleton _ _

end Assembly

theorem Assembly.bl_main_mem (now : Calendar.Instant) (tree : Node) :
    .inst (.bl "_main") ∈ ofTree now tree := by
  have hm : .inst (.bl "_main") ∈ start := by decide
  simp only [ofTree]
  exact List.mem_append_left _ (List.mem_append_left _ (List.mem_append_right _ hm))

section

variable {file source : String} {p : Program} {a : Analysis}

theorem Accepted.ofTree_eq (h : Accepted file source p a) (now : Calendar.Instant) :
    Assembly.ofTree now a.tree = Assembly.ofTree now p.toNode := by
  obtain ⟨_, _, _, _, ha⟩ := h
  exact ofTree_analyze now ha

theorem Accepted.procedureNames_eq (h : Accepted file source p a) :
    Assembly.procedureNames a.tree = Assembly.procedureNames p.toNode := by
  obtain ⟨_, _, _, _, ha⟩ := h
  have e : Assembly.procedureNames a.tree.untyped = Assembly.procedureNames p.toNode.untyped := by
    rw [analyze_untyped ha]
  simpa only [Assembly.procedureNames, Assembly.procedures_untyped, List.map_map,
    Function.comp_def, untyped_value] using e

/-- The names called in the procedures of an accepted source have labels of procedures. -/
theorem Accepted.label_mem (h : Accepted file source p a) {proc : Node}
    (hp : proc ∈ Assembly.procedures p.toNode) {name : String}
    (hn : name ∈ Node.valuesOfAll .call proc.children) :
    Name.label name ∈ (Assembly.procedureNames p.toNode).map Name.label := by
  obtain ⟨_, _, _, _, ha⟩ := h
  obtain ⟨n, s, hv, _⟩ := Check.bind_ok.mp ha
  let K := fun key => ∃ declared ∈ p.toNode.valuesOf .procedure, key = Name.mangle declared
  have hc : CallsIn K p.toNode := p.callsIn fun declared hd => ⟨declared, hd, rfl⟩
  have hfresh : Analyzer.fresh.scopes.ProcsIn K := by
    intro sc hsc entry he
    rw [List.mem_singleton.mp hsc] at he
    exact absurd he List.not_mem_nil
  have hname : name ∈ p.toNode.valuesOf .call := by
    rw [Program.toNode, valuesOf_of_ne _ NodeKind.noConfusion, valuesOfAll_eq_flatMap]
    refine List.mem_flatMap.mpr ⟨proc, (List.mem_filter.mp hp).1, ?_⟩
    rcases proc with ⟨l, children⟩
    rw [Node.valuesOf]
    exact List.mem_append_left _ hn
  obtain ⟨declared, hd, e⟩ := hc hfresh hv name hname
  rw [p.valuesOf_procedure] at hd
  exact List.mem_map.mpr ⟨declared, hd, (Name.mangle_eq_iff_label_eq.mp e).symm⟩

/-- **Every call goes to a label.** The assembly of an accepted source calls its main procedure, and
    whatever it calls is a label of the same assembly. -/
theorem accepted_calls_are_labels (h : Accepted file source p a) (now : Calendar.Instant) :
    .inst (.bl "_main") ∈ Assembly.ofTree now a.tree ∧
      ∀ target, .inst (.bl target) ∈ Assembly.ofTree now a.tree →
        .label target ∈ Assembly.ofTree now a.tree := by
  refine ⟨Assembly.bl_main_mem now a.tree, ?_⟩
  intro target ht
  rw [h.ofTree_eq now] at ht ⊢
  rw [← Assembly.mem_labels, Assembly.labels_ofTree]
  apply List.mem_cons_of_mem
  rcases Assembly.mem_ofTree_bl ht with rfl | ⟨proc, hp, name, hn, rfl⟩
  · by_cases hm : Assembly.mainName ∈ Assembly.procedureNames p.toNode
    · exact List.mem_append_left _ (List.mem_map_of_mem hm)
    · apply List.mem_append_right
      rw [Assembly.addedLabels, if_neg hm]
      exact List.mem_singleton.mpr rfl
  · exact List.mem_append_left _ (h.label_mem hp hn)

/-- A procedure with a hyphen in its name that calls itself. -/
def callingSample : Program :=
  ⟨[.declaration [] (.procedure ⟨"void", none, false⟩ "log-line" [] [.call "log-line" []])]⟩

set_option maxRecDepth 20000 in
theorem callingSample_accepted : ∃ a,
    Accepted "sample" "declare [void] :: log-line() call log-line() end" callingSample a := by
  have ht : (tokenize "sample" "declare [void] :: log-line() call log-line() end").toOption =
      some [sampleToken 0 .declare "declare", sampleToken 8 .lbracket "[",
        sampleToken 9 .ident "void", sampleToken 13 .rbracket "]",
        sampleToken 15 .doubleColon "::", sampleToken 18 .ident "log-line",
        sampleToken 26 .lparen "(", sampleToken 27 .rparen ")", sampleToken 29 .call "call",
        sampleToken 34 .ident "log-line", sampleToken 42 .lparen "(", sampleToken 43 .rparen ")",
        sampleToken 45 .endBlock "end", sampleToken 48 .eof ""] := by
    decide +kernel
  exact accepted_of_stages ht (by cbv) (by cbv)

/-- The call in the sample goes to a label without the hyphen. -/
theorem accepted_call_of_hyphenated_name : ∃ a, Accepted "sample"
    "declare [void] :: log-line() call log-line() end" callingSample a ∧
    .inst (.bl "_log_line") ∈ Assembly.ofTree 0 a.tree ∧
    .label "_log_line" ∈ Assembly.ofTree 0 a.tree := by
  obtain ⟨a, h⟩ := callingSample_accepted
  have hb : .inst (.bl "_log_line") ∈ Assembly.ofTree 0 a.tree := by
    rw [h.ofTree_eq 0]
    decide
  exact ⟨a, h, hb, (accepted_calls_are_labels h 0).2 _ hb⟩

/-- The labels of the procedures of an accepted source differ: the root has no key twice. -/
theorem Accepted.labels_nodup (h : Accepted file source p a) :
    ((Assembly.procedureNames p.toNode).map Name.label).Nodup := by
  obtain ⟨_, _, _, _, ha⟩ := h
  obtain ⟨n, s, hv, _⟩ := Check.bind_ok.mp ha
  rw [Program.toNode] at hv
  unfold visit at hv
  obtain ⟨ns, t, hv, _⟩ := Check.bind_ok.mp hv
  have htop : ∀ n ∈ p.items.map Item.toNode, n.ProcsAtTop := by
    intro n hn
    obtain ⟨item, _, rfl⟩ := List.mem_map.mp hn
    exact item.procsAtTop
  obtain ⟨hkeys, hnd⟩ := visitAll_procs_keys rfl rfl htop hv
  have hnd' := hnd List.nodup_nil
  rw [hkeys] at hnd'
  have hmangled : ((Assembly.procedureNames p.toNode).map Name.mangle).Nodup := by
    rw [← p.valuesOf_procedure, Program.toNode, valuesOf_of_ne _ NodeKind.noConfusion]
    exact hnd'
  unfold List.Nodup at hmangled ⊢
  rw [List.pairwise_map] at hmangled ⊢
  exact hmangled.imp fun hne e => hne (Name.mangle_eq_iff_label_eq.mpr e)

/-- **The labels differ, unless a procedure is called `start`.** No other name has the label of the
    entry, and procedures of the same label have the same key, which the check refuses. -/
theorem accepted_labels_nodup_iff (h : Accepted file source p a) (now : Calendar.Instant) :
    (Assembly.ofTree now a.tree).labels.Nodup ↔ "start" ∉ Assembly.procedureNames a.tree := by
  rw [h.procedureNames_eq, h.ofTree_eq now, Assembly.labels_ofTree, List.nodup_cons]
  have hstart : "_start" ∈ (Assembly.procedureNames p.toNode).map Name.label ++
      Assembly.addedLabels p.toNode ↔ "start" ∈ Assembly.procedureNames p.toNode := by
    rw [List.mem_append, or_iff_left]
    · exact @Name.mem_map_label_iff "start" _ (by decide) (by decide)
    · intro hn
      exact absurd (Assembly.mem_addedLabels.mp hn).1 (by decide)
  rw [hstart, and_iff_left_iff_imp]
  intro _
  refine List.nodup_append.mpr ⟨h.labels_nodup, Assembly.addedLabels_nodup _, ?_⟩
  intro name hname added hadded e
  obtain ⟨rfl, hnot⟩ := Assembly.mem_addedLabels.mp hadded
  exact hnot (e ▸ hname)

/-- The labels of the calling sample differ. -/
theorem accepted_labels_of_hyphenated_name : ∃ a, Accepted "sample"
    "declare [void] :: log-line() call log-line() end" callingSample a ∧
    (Assembly.ofTree 0 a.tree).labels.Nodup := by
  obtain ⟨a, h⟩ := callingSample_accepted
  refine ⟨a, h, (accepted_labels_nodup_iff h 0).mpr ?_⟩
  rw [h.procedureNames_eq]
  decide

/-- A procedure with the name of the entry. -/
def startSample : Program :=
  ⟨[.declaration [] (.procedure ⟨"void", none, false⟩ "start" [] [])]⟩

set_option maxRecDepth 20000 in
/-- **An accepted source can give a label twice.** The entry stands beside a procedure of its
    name; of the main procedure only one is ever made. -/
theorem accepted_labels_not_nodup : ∃ a,
    Accepted "sample" "declare [void] :: start() end" startSample a ∧
    (Assembly.ofTree 0 a.tree).labels = ["_start", "_start", "_main"] ∧
    ¬ (Assembly.ofTree 0 a.tree).labels.Nodup := by
  have ht : (tokenize "sample" "declare [void] :: start() end").toOption =
      some [sampleToken 0 .declare "declare", sampleToken 8 .lbracket "[",
        sampleToken 9 .ident "void", sampleToken 13 .rbracket "]",
        sampleToken 15 .doubleColon "::", sampleToken 18 .ident "start",
        sampleToken 23 .lparen "(", sampleToken 24 .rparen ")", sampleToken 26 .endBlock "end",
        sampleToken 29 .eof ""] := by
    decide +kernel
  obtain ⟨a, h⟩ := accepted_of_stages ht (show Program.ofTokens _ = .ok startSample by cbv)
    (by cbv)
  have hl : (Assembly.ofTree 0 a.tree).labels = ["_start", "_start", "_main"] := by
    rw [h.ofTree_eq 0]
    decide
  refine ⟨a, h, hl, ?_⟩
  rw [hl]
  decide

end

end Osclan
