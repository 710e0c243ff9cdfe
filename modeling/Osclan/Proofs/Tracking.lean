/-
  File:      Osclan/Proofs/Tracking.lean
  Subject:   The references that a walk looks at, up to values.

  A step of the check is said to track the references it looks at: if it gives a result, all of them
  are declared, and if it stops at a name, that name is the first of them that is not. The rules say
  how this composes. Values declare nothing, so that for them the scopes stay as they are and the
  references that come back are resolved.

  * `Check.Tracks`, `Check.Silent` -- a step and the references it looks at, with their rules;
  * `WalksPath`, `FormsPath.walks` -- references and their paths;
  * `Walks`, `FormsValue.walks` -- values.
-/
import Osclan.Proofs.Ledger
import Osclan.Proofs.Lookup
import Osclan.Proofs.Parsing

namespace Osclan

/-! ## 1. Steps that look at references -/

/-- The references that a walk looks at. One that is not declared stops it. -/
def sightingLedger : Ledger Sighting String where
  stops := Sighting.undeclared
  tells o := o.node.value
  fault := .unresolvedVariable
  passed seen _ _ := seen.find? Sighting.undeclared = none
  fault_inj := Fault.unresolvedVariable.inj
  fault_typing _ := rfl
  passed_nil _ := rfl
  passed_append hxs hys := by
    rw [List.find?_append, hxs, hys]
    rfl
  none_stops h := h

/-- The step looks at the given references, in this order. If it gives a result, all of them are
    declared, and result and state are as said. If it stops at an unknown variable, that is the
    first of them that is not declared. -/
abbrev Check.Tracks {α : Type} (step : Check α) (s : Analyzer) (seen : List Sighting)
    (post : α → Analyzer → Prop) : Prop :=
  step.Accounts sightingLedger s seen post

namespace Check

section Rules

variable {α β : Type} {s : Analyzer} {seen : List Sighting} {post : α → Analyzer → Prop}

theorem Tracks.stop {step : Check α} {x : String} {s' : Analyzer} (h : Tracks step s seen post)
    (e : step s = .error (.fault (.unresolvedVariable x)) s') :
    ∃ o, seen.find? Sighting.undeclared = some o ∧ o.node.value = x :=
  Runs.stop h e x rfl

/-- A reference to what is not declared is refused. -/
theorem Tracks.undeclared {o : Sighting} (h : o.undeclared = true) :
    Tracks (refuse (.unresolvedVariable o.node.value)) s (o :: seen) post :=
  Accounts.stopped (L := sightingLedger) h

theorem Tracks.declared {o : Sighting} {step : Check α} (h : o.undeclared = false)
    (hs : Tracks step s seen post) : Tracks step s (o :: seen) post :=
  hs.cons (List.find?_cons_of_neg (by simp [h]))

/-- The step looks at no reference and leaves the scopes. -/
def Silent (step : Check α) : Prop := ∀ s, Tracks step s [] fun _ t => t.scopes = s.scopes

theorem Silent.pure (a : α) : Silent (Pure.pure a : Check α) := fun _ => .pure rfl

theorem Silent.bind {x : Check β} {f : β → Check α} (hx : Silent x) (hf : ∀ b, Silent (f b)) :
    Silent (x >>= f) := by
  intro s
  refine (hx s).bind fun b t ht => ((hf b) t).imp fun a u hu => ?_
  exact hu.trans ht

theorem Silent.refuse {fault : Fault} (h : ∀ x, fault ≠ .unresolvedVariable x) :
    Silent (refuse fault : Check α) := fun _ => .refuse h

theorem Silent.ofExcept {r : Except Fault α} (h : ∀ x, r ≠ .error (.unresolvedVariable x)) :
    Silent (ofExcept r) := fun _ => (Accounts.ofExcept h).imp fun _ _ ht => by rw [ht.2]

theorem Silent.scopes : Silent scopes := fun _ => Accounts.scopes.imp fun _ _ ht => by rw [ht.2]

theorem Silent.get : Silent (MonadState.get : Check Analyzer) :=
  fun _ => Accounts.get.imp fun _ _ ht => by rw [ht.2]

theorem Silent.makeVariable (name : String) (type : Ty) (pointer : Bool) :
    Silent (makeVariable name type pointer) := fun _ =>
  Accounts.makeVariable.imp fun _ _ ht => by rw [ht.2]

theorem Silent.assignLiteral (dest : Ty) (pointer : Bool) (literal : Option Ty) :
    Silent (assignLiteral dest pointer literal) := fun _ =>
  (Runs.assignLiteral fun _ _ => .of_fault fun _ => nofun).imp_ok fun _ _ ht => ⟨rfl, ht.scopes⟩

end Rules

end Check

/-! ## 2. Silent parts of the walk -/

section

variable {st : ScopeStack} {fault : Fault}

theorem ok_ne_error {α : Type} (a : α) (f : Fault) : (Except.ok a : Except Fault α) ≠ .error f := by
  intro e
  cases e

theorem error_ne_error {α : Type} {f : Fault} (hf : f.ofTyping = true)
    (h : fault.ofTyping = false) : (Except.error f : Except Fault α) ≠ .error fault := by
  intro e
  rw [← Except.error.inj e, hf] at h
  cases h

theorem resolveType_ne {name : String} {size : Option UInt64} (h : fault.ofTyping = false) :
    resolveType st name size ≠ .error fault := by
  unfold resolveType
  cases st.lookupType? name with
  | none => exact error_ne_error rfl h
  | some type => cases size <;> exact ok_ne_error _ _

theorem declaredType_ne {l : Label} (h : fault.ofTyping = false) :
    declaredType st l ≠ .error fault := by
  unfold declaredType
  cases l.typeName with
  | none => exact error_ne_error rfl h
  | some name => exact resolveType_ne h

theorem resultType_ne {l : Label} {children : List Node} (h : fault.ofTyping = false) :
    resultType st l children ≠ .error fault := by
  unfold resultType
  cases children.head? with
  | none => exact error_ne_error rfl h
  | some type =>
    simp only
    split
    · split
      · exact ok_ne_error _ _
      · cases hr : resolveType st type.value type.label.size with
        | ok t => exact ok_ne_error _ _
        | error f =>
          intro e
          rw [Except.map, Except.error.injEq] at e
          rw [e] at hr
          exact resolveType_ne h hr
    · exact error_ne_error rfl h

theorem addField_ne {fields : Table Ty} {name : String} {ty : Ty} (h : fault.ofTyping = false) :
    addField fields name ty ≠ .error fault := by
  simp only [addField]
  split
  · exact error_ne_error rfl h
  · exact ok_ne_error _ _

theorem fieldType_ne {l : Label} {children : List Node} (h : fault.ofTyping = false) :
    fieldType st l children ≠ .error fault := by
  unfold fieldType
  split
  · exact error_ne_error rfl h
  · exact resolveType_ne h

theorem except_bind_ne {α β : Type} {r : Except Fault α} {f : α → Except Fault β}
    (hr : r ≠ .error fault) (hf : ∀ a, f a ≠ .error fault) : (r >>= f) ≠ .error fault := by
  cases r with
  | ok a => exact hf a
  | error other => exact fun e => hr (congrArg Except.error (Except.error.inj e))

mutual

theorem recordType_ne (h : fault.ofTyping = false) : ∀ n : Node, recordType st n ≠ .error fault
  | ⟨l, children⟩ => by
    rw [recordType]
    exact except_bind_ne (recordFields_ne h [] children) fun _ => ok_ne_error _ _

/-- The fields of a record are worked out from types alone. -/
theorem recordFields_ne (h : fault.ofTyping = false) (fields : Table Ty) : ∀ ns : List Node,
    recordFields st fields ns ≠ .error fault
  | [] => by
    rw [recordFields]
    exact ok_ne_error _ _
  | ⟨l, children⟩ :: rest => by
    rw [recordFields]
    split
    · exact except_bind_ne (fieldType_ne h) fun _ =>
        except_bind_ne (addField_ne h) fun fields => recordFields_ne h fields rest
    · exact except_bind_ne (recordType_ne h ⟨l, children⟩) fun _ =>
        except_bind_ne (addField_ne h) fun fields => recordFields_ne h fields rest
    · exact recordFields_ne h fields rest

end

end

theorem paramVariables_silent (st : ScopeStack) (ns : List Node) :
    (paramVariables st ns).Silent := by
  induction ns with
  | nil => exact .pure []
  | cons n rest ih =>
    refine .bind (.ofExcept fun _ => declaredType_ne rfl) fun type => ?_
    exact .bind (.makeVariable _ _ _) fun v => .bind ih fun _ => .pure _

theorem procedureOf_silent (l : Label) (children : List Node) :
    (procedureOf l children).Silent := by
  refine .bind .scopes fun st => .bind (.ofExcept fun _ => resultType_ne rfl) fun returns => ?_
  refine .bind (paramVariables_silent st _) fun params => ?_
  by_cases hu : hasUnreachable (statements children) = true
  · simp only [hu, if_true]
    exact .bind (.refuse fun x => Fault.noConfusion) fun _ => .pure _
  · simp only [hu]
    exact .pure _

theorem assignArguments_silent : ∀ (params : List Variable) (args : List Node),
    (assignArguments params args).Silent
  | _ :: params, _ :: args =>
    .bind (.assignLiteral _ _ _) fun _ => assignArguments_silent params args
  | [], _ => .pure ()
  | _ :: _, [] => .pure ()

theorem checkArguments_silent (p : Procedure) (args : List Node) :
    (checkArguments p args).Silent := by
  unfold checkArguments
  split
  · exact .refuse fun x => Fault.noConfusion
  · exact assignArguments_silent p.params args

theorem checkReturn_silent (value : Option Node) : (checkReturn value).Silent := by
  refine .bind .get fun s => ?_
  cases s.procedure with
  | none => exact .pure ()
  | some p =>
    rcases p with ⟨name, returns, params⟩
    cases returns <;> cases value
    · exact .pure ()
    · exact .refuse fun x => Fault.noConfusion
    · exact .refuse fun x => Fault.noConfusion
    · exact .assignLiteral _ _ _

/-! ## 3. References -/

/-- A node that is visited without declaring anything: the walk looks at its references, leaves the
    scopes, and gives a node whose references are resolved. -/
def Walks (n : Node) : Prop :=
  ∀ (s : Analyzer) (e : Env), Sees s.scopes e →
    (visit n).Tracks s (n.sightings e) fun n' t =>
      t.scopes = s.scopes ∧ ∀ o ∈ n'.sightings e, o.Resolved

/-- The same of a reference, which is resolved. -/
def WalksPath (n : Node) : Prop :=
  ∀ (s : Analyzer) (e : Env), Sees s.scopes e →
    (resolve n).Tracks s (n.sightings e) fun r t =>
      t.scopes = s.scopes ∧ r.1.kind = n.kind ∧ ∀ o ∈ r.1.sightings e, o.Resolved

theorem Node.sightings_reference {l : Label} (hk : l.kind = .reference ∨ l.kind = .dynamicOffset)
    (e : Env) (children : List Node) :
    Node.sightings e ⟨l, children⟩ = ⟨e, ⟨l, children⟩⟩ :: Node.sightingsIn e children := by
  unfold Node.sightings
  rcases hk with hk | hk <;> simp only [hk]

theorem forall_mem_sightingsIn_cons {e : Env} {n : Node} {rest : List Node}
    (hn : ∀ o ∈ n.sightings e, o.Resolved) (hr : ∀ o ∈ Node.sightingsIn e rest, o.Resolved) :
    ∀ o ∈ Node.sightingsIn e (n :: rest), o.Resolved := by
  rw [Node.sightingsIn]
  exact List.forall_mem_append.mpr ⟨hn, hr⟩

/-- **A reference resolves to the declaration that is visible**, if its path resolves. -/
theorem resolve_tracks {l : Label} {children : List Node} {s : Analyzer} {e : Env}
    (hk : l.kind = .reference ∨ l.kind = .dynamicOffset) (hn : Name.Plain l.value)
    (h : Sees s.scopes e)
    (hc : ∀ {t : Shape} {ty : Ty}, Depicts t ty →
      (resolveFields ty ty children).Tracks s (Node.sightingsIn e children) fun r u =>
        u.scopes = s.scopes ∧ PathTyped t r.1 ∧ ∀ o ∈ Node.sightingsIn e r.1, o.Resolved) :
    (resolve ⟨l, children⟩).Tracks s (Node.sightings e ⟨l, children⟩) fun r u =>
      u.scopes = s.scopes ∧ r.1.kind = l.kind ∧ ∀ o ∈ r.1.sightings e, o.Resolved := by
  rw [Node.sightings_reference hk]
  unfold resolve
  refine .bind_scopes ?_
  have hrel := h.vars hn
  generalize ht : e.typeOf? l.value = found at hrel
  generalize s.scopes.lookupVariable? l.value = declared at hrel ⊢
  have ho : Sighting.undeclared ⟨e, ⟨l, children⟩⟩ = found.isNone := by
    rw [← ht]
    rfl
  cases hrel with
  | none => exact Check.Tracks.undeclared ho
  | @some t v hd =>
    refine Check.Tracks.declared ho ((hc hd).bind_last ?_)
    rintro ⟨children', leaf⟩ w ⟨hw, htyped, hres⟩
    refine .pure ⟨hw, rfl, ?_⟩
    have hk' : ({ l with typeName := some v.type.name } : Label).kind = .reference ∨
        ({ l with typeName := some v.type.name } : Label).kind = .dynamicOffset := hk
    rw [Node.sightings_reference hk']
    refine List.forall_mem_cons.mpr ⟨⟨t, ht, ?_, htyped⟩, hres⟩
    rw [← hd.name]

/-- A step of a path that can be followed: its name is plain, and an offset read at run time is a
    reference of its own. -/
def PathStep.Walks (step : PathStep) : Prop :=
  Name.Plain step.name ∧
    (step.inner = [] ∨ ∃ n, step.inner = [n] ∧ n.kind = .dynamicOffset ∧ WalksPath n)

/-- What is below a field: an offset where there is one, and the fields that follow. -/
theorem resolveFields_inner {step : PathStep} {below : List Node} {s : Analyzer} {e : Env}
    {t : Shape} {ty : Ty} (hstep : step.Walks) (h : Sees s.scopes e)
    (hbelow : ∀ {u : Analyzer}, Sees u.scopes e →
      (resolveFields ty ty below).Tracks u (Node.sightingsIn e below) fun r w =>
        w.scopes = u.scopes ∧ PathTyped t r.1 ∧ ∀ o ∈ Node.sightingsIn e r.1, o.Resolved) :
    (resolveFields ty ty (step.inner ++ below)).Tracks s (Node.sightingsIn e (step.inner ++ below))
      fun r w => w.scopes = s.scopes ∧ PathTyped t r.1 ∧
        ∀ o ∈ Node.sightingsIn e r.1, o.Resolved := by
  rcases hstep.2 with hnil | ⟨⟨l, children⟩, hone, hk, hoffset⟩
  · rw [hnil]
    exact hbelow h
  · have hk' : l.kind = .dynamicOffset := hk
    rw [hone, List.singleton_append, Node.sightingsIn]
    unfold resolveFields
    simp only [hk']
    refine (hoffset _ _ h).bind ?_
    rintro ⟨n, leaf⟩ u ⟨hu, hkind, hres⟩
    have hsees : Sees u.scopes e := by
      rw [hu]
      exact h
    refine (hbelow hsees).bind_last ?_
    rintro ⟨rest, leaf⟩ w ⟨hw, htyped, hrest⟩
    have hne : n.kind ≠ .field := by
      rw [hkind, hk]
      decide
    exact .pure ⟨hw.trans hu, .other hne htyped, forall_mem_sightingsIn_cons hres hrest⟩

/-- **The fields of a path carry the types of the fields they name.** -/
theorem chain_tracks {e : Env} : ∀ {steps : List PathStep}, (∀ step ∈ steps, step.Walks) →
    ∀ (before : String) (leaf : Ty) {s : Analyzer} {t : Shape} {ty : Ty}, Sees s.scopes e →
    Depicts t ty →
    (resolveFields ty leaf (chain before steps)).Tracks s
      (Node.sightingsIn e (chain before steps)) fun r u =>
        u.scopes = s.scopes ∧ PathTyped t r.1 ∧ ∀ o ∈ Node.sightingsIn e r.1, o.Resolved
  | [], _, before, leaf, s, t, ty, h, hd => by
    rw [chain, Node.sightingsIn]
    unfold resolveFields
    exact .pure ⟨rfl, .nil, fun o ho => absurd ho List.not_mem_nil⟩
  | step :: rest, hsteps, before, leaf, s, t, ty, h, hd => by
    obtain ⟨hstep, hrest⟩ := List.forall_mem_cons.mp hsteps
    have hseen : ∀ (l : Label) (children : List Node), l.kind = .field →
        Node.sightingsIn e [⟨l, children⟩] = Node.sightingsIn e children := by
      intro l children hk
      rw [Node.sightingsIn, Node.sightingsIn, List.append_nil]
      unfold Node.sightings
      simp only [hk]
    rw [chain, hseen _ _ rfl]
    unfold resolveFields
    simp only
    have hrel := hd.field hstep.1
    generalize hu : t.field? step.name = field at hrel
    generalize ty.field? step.name = type at hrel ⊢
    cases hrel with
    | none => exact .refuse fun x => Fault.noConfusion
    | @some u fty hfield =>
      have hinner := resolveFields_inner hstep h fun hs =>
        chain_tracks hrest (before ++ "::" ++ step.name) fty hs hfield
      refine hinner.bind_last ?_
      rintro ⟨children, leaf'⟩ w ⟨hw, htyped, hres⟩
      unfold resolveFields
      rw [pure_bind]
      refine .pure ⟨hw, .field rfl hu ?_ htyped .nil, ?_⟩
      · rw [← hfield.name]
      · rw [hseen _ _ rfl]
        exact hres

/-- What holds of the parts of plain tokens. -/
def OfPlain {β : Type} (q : β → Prop) (pre : List Token) (b : β) : Prop :=
  (∀ t ∈ pre, t.Plain) → q b

theorem Many.ofPlain {β : Type} {q : β → Prop} {pre : List Token} {bs : List β}
    (h : Many (OfPlain q) pre bs) (ht : ∀ t ∈ pre, t.Plain) : ∀ b ∈ bs, q b :=
  Many.ofTokens h ht

theorem Listed.ofPlain {β : Type} {q : β → Prop} {pre : List Token} {bs : List β}
    (h : Listed (OfPlain q) pre bs) (ht : ∀ t ∈ pre, t.Plain) : ∀ b ∈ bs, q b :=
  Listed.ofTokens h ht

theorem FormsSegment.walks {pre : List Token} {step : PathStep}
    (h : FormsSegment (OfPlain fun n => n.kind = .dynamicOffset ∧ WalksPath n) pre step) :
    OfPlain PathStep.Walks pre step := by
  intro ht
  cases h with
  | @plain c name hc hname => exact ⟨ht name (by simp) (.inl hname), .inl rfl⟩
  | @fixed c name l t r hc hname => exact ⟨ht name (by simp) (.inl hname), .inl rfl⟩
  | @dynamic c name l r inner offset hc hname hl hp hr =>
    have hoffset := hp fun t hm => ht t (by simp [hm])
    exact ⟨ht name (by simp) (.inl hname), .inr ⟨offset, rfl, hoffset⟩⟩

/-- **A path is resolved as lexical scope says.** -/
theorem FormsPath.walks : ∀ {kind : NodeKind} {pre : List Token} {n : Node},
    FormsPath kind pre n → kind = .reference ∨ kind = .dynamicOffset →
    OfPlain (fun n => n.kind = kind ∧ WalksPath n) pre n
  | kind, _, _, @FormsPath.mk _ base pre steps hbase hm, hk => by
    intro ht
    obtain ⟨hb, hrest⟩ := List.forall_mem_cons.mp ht
    have hsteps := (hm.imp fun p s hp hseg => (hseg.imp fun q n hq hpath =>
      hpath.walks (.inr rfl)).walks).ofPlain hrest
    refine ⟨rfl, fun s e hsees => ?_⟩
    exact resolve_tracks hk (hb (.inl hbase)) hsees fun hd =>
      chain_tracks hsteps base.value _ hsees hd
termination_by _ pre => pre.length
decreasing_by simp only [List.length_cons]; omega

/-! ## 4. Values -/

theorem Walks.all {e : Env} : ∀ {ns : List Node}, (∀ n ∈ ns, Walks n) → ∀ {s : Analyzer},
    Sees s.scopes e → (visitAll ns).Tracks s (Node.sightingsIn e ns) fun ns' t =>
      t.scopes = s.scopes ∧ ∀ o ∈ Node.sightingsIn e ns', o.Resolved
  | [], _, s, h => by
    rw [Node.sightingsIn]
    unfold visitAll
    exact .pure ⟨rfl, fun o ho => absurd ho List.not_mem_nil⟩
  | n :: rest, hns, s, h => by
    obtain ⟨hn, hrest⟩ := List.forall_mem_cons.mp hns
    rw [Node.sightingsIn]
    unfold visitAll
    refine (hn s e h).bind ?_
    rintro n' t ⟨ht, hres⟩
    have hsees : Sees t.scopes e := by
      rw [ht]
      exact h
    refine (Walks.all hrest hsees).bind_last ?_
    rintro ns' u ⟨hu, hall⟩
    exact .pure ⟨hu.trans ht, forall_mem_sightingsIn_cons hres hall⟩

/-- The kinds of nodes whose references are those of their children, with the same declarations
    visible. -/
def transparentKinds : List NodeKind :=
  [.directive, .argument, .record, .call, .typeExpr, .modifier, .field, .allocation, .scalar,
    .print, .ret]

theorem Node.sightings_children {l : Label} (e : Env) (children : List Node)
    (hk : l.kind ∈ transparentKinds) :
    Node.sightings e ⟨l, children⟩ = Node.sightingsIn e children := by
  simp only [transparentKinds, List.mem_cons, List.not_mem_nil, or_false] at hk
  unfold Node.sightings
  rcases hk with hk | hk | hk | hk | hk | hk | hk | hk | hk | hk | hk <;> simp only [hk]

theorem WalksPath.walks {n : Node} (h : WalksPath n)
    (hk : n.kind = .reference ∨ n.kind = .dynamicOffset) : Walks n := by
  rcases n with ⟨l, children⟩
  intro s e hs
  have hvisit : visit ⟨l, children⟩ = (resolve ⟨l, children⟩ >>= fun r => pure r.1) := by
    unfold visit
    rcases hk with hk | hk <;>
    · have hk' : l.kind = _ := hk
      simp only [hk']
  rw [hvisit]
  refine (h s e hs).bind_last ?_
  rintro r t ⟨ht, _, hres⟩
  exact .pure ⟨ht, hres⟩

/-- An argument of a call or a directive is what it holds. -/
theorem Walks.argument {l : Label} {ns : List Node} (hl : l.kind = .argument)
    (h : ∀ n ∈ ns, n.kind ≠ .typeExpr ∧ Walks n) : Walks ⟨l, ns⟩ := by
  intro s e hs
  have hnone : ns.filter (·.kind == .typeExpr) = [] :=
    List.filter_eq_nil_iff.mpr fun n hn => by simp [(h n hn).1]
  rw [Node.sightings_children _ _ (by rw [hl]; decide)]
  unfold visit
  simp only [hl, hnone, List.length_nil]
  refine (Walks.all (fun n hn => (h n hn).2) hs).bind_last ?_
  rintro ns' t ⟨ht, hres⟩
  refine .pure ⟨ht, ?_⟩
  rw [Node.sightings_children _ _ (by rw [hl]; decide)]
  exact hres

theorem Walks.call {name : String} {args : List Node} (h : ∀ n ∈ args, Walks n) :
    Walks ⟨{ kind := .call, value := name }, args⟩ := by
  intro s e hs
  rw [Node.sightings_children _ _ (by simp [transparentKinds])]
  unfold visit
  simp only
  refine .bind_scopes ?_
  cases s.scopes.lookupProcedure? name with
  | none => exact .refuse fun x => Fault.noConfusion
  | some p =>
    refine (Walks.all h hs).bind_last ?_
    rintro ns t ⟨ht, hres⟩
    refine (checkArguments_silent p _ t).bind_last ?_
    intro _ w hw
    refine .pure ⟨hw.trans ht, ?_⟩
    rw [Node.sightings_children _ _ (by simp [transparentKinds])]
    exact hres

theorem Walks.anon {members : List Node} (h : ∀ n ∈ members, Walks n) :
    Walks ⟨{ kind := .record }, members⟩ := by
  intro s e hs
  rw [Node.sightings_children _ _ (by decide)]
  unfold visit
  simp only
  refine .inScope ((Walks.all h hs.push).bind_last ?_)
  rintro ns t ⟨ht, hres⟩
  -- a record without a name declares nothing
  have hnone : declareRecord ⟨{ kind := .record }, ns⟩ = pure () := rfl
  rw [hnone, pure_bind]
  refine .pure ⟨Check.leave_push ht, ?_⟩
  rw [Node.sightings_children _ _ (by decide)]
  exact hres

/-- A node that is visited and comes back as it is: it refers to nothing and declares nothing. -/
structure Still (n : Node) : Prop where
  none : ∀ e, n.sightings e = []
  back : ∀ s, (visit n).Tracks s [] fun n' t => n' = n ∧ t.scopes = s.scopes

theorem Still.walks {n : Node} (h : Still n) : Walks n := by
  intro s e _
  rw [h.none]
  refine (h.back s).imp ?_
  rintro _ t ⟨rfl, ht⟩
  rw [h.none]
  exact ⟨ht, fun o ho => absurd ho List.not_mem_nil⟩

theorem Node.sightings_leaf {l : Label} (e : Env) (hk : l.kind ∈ transparentKinds) :
    Node.sightings e ⟨l, []⟩ = [] := by
  rw [Node.sightings_children e [] hk]
  rfl

theorem Still.plain {l : Label} (hk : l.kind = .scalar ∨ l.kind = .modifier) :
    Still ⟨l, []⟩ := by
  have ht : l.kind ∈ transparentKinds := by rcases hk with hk | hk <;> rw [hk] <;> decide
  refine ⟨fun e => Node.sightings_leaf e ht, fun s => ?_⟩
  unfold visit
  rcases hk with hk | hk <;> simp only [hk] <;> exact .pure ⟨rfl, rfl⟩

theorem Still.allocation {l : Label} (hk : l.kind = .allocation) : Still ⟨l, []⟩ := by
  refine ⟨fun e => Node.sightings_leaf e (by rw [hk]; decide), fun s => ?_⟩
  unfold visit
  simp only [hk]
  refine .bind_scopes ?_
  exact .bind_ofExcept (fun _ => declaredType_ne rfl) fun ty _ => .pure ⟨rfl, rfl⟩

theorem Still.typeExpr {l : Label} (hk : l.kind = .typeExpr) : Still ⟨l, []⟩ := by
  refine ⟨fun e => Node.sightings_leaf e (by rw [hk]; decide), fun s => ?_⟩
  unfold visit
  simp only [hk]
  split
  · exact .pure ⟨rfl, rfl⟩
  · refine .bind_scopes ?_
    exact .bind_ofExcept (fun _ => resolveType_ne rfl) fun ty _ => .pure ⟨rfl, rfl⟩

theorem Still.sightingsIn {ns : List Node} (h : ∀ n ∈ ns, Still n) (e : Env) :
    Node.sightingsIn e ns = [] := by
  induction ns with
  | nil => rfl
  | cons n ns ih =>
    obtain ⟨hn, hns⟩ := List.forall_mem_cons.mp h
    rw [Node.sightingsIn, hn.none, ih hns]
    rfl

theorem Still.all {ns : List Node} (h : ∀ n ∈ ns, Still n) (s : Analyzer) :
    (visitAll ns).Tracks s [] fun ns' t => ns' = ns ∧ t.scopes = s.scopes := by
  induction ns generalizing s with
  | nil =>
    unfold visitAll
    exact .pure ⟨rfl, rfl⟩
  | cons n ns ih =>
    obtain ⟨hn, hns⟩ := List.forall_mem_cons.mp h
    unfold visitAll
    refine (hn.back s).bind_last ?_
    intro n' t hpost
    obtain ⟨hn', ht⟩ := hpost
    refine (ih hns t).bind_last ?_
    intro ns' u hpost
    obtain ⟨hns', hu⟩ := hpost
    exact .pure ⟨by rw [hn', hns'], hu.trans ht⟩

/-- A node that only passes on to its children. -/
theorem Walks.passing {l : Label} {ns : List Node} (hl : l.kind = .directive ∨ l.kind = .print)
    (h : ∀ n ∈ ns, Walks n) : Walks ⟨l, ns⟩ := by
  have hseen : ∀ (e : Env) (ms : List Node), Node.sightings e ⟨l, ms⟩ = Node.sightingsIn e ms :=
    fun e ms => Node.sightings_children e ms (by rcases hl with hl | hl <;> rw [hl] <;> decide)
  intro s e hs
  have hvisit : visit ⟨l, ns⟩ = (visitAll ns >>= fun ns => pure ⟨l, ns⟩) := by
    unfold visit
    rcases hl with hl | hl <;> simp only [hl]
  rw [hvisit, hseen]
  refine (Walks.all h hs).bind_last ?_
  rintro ns' t ⟨ht, hres⟩
  refine .pure ⟨ht, ?_⟩
  rw [hseen]
  exact hres

theorem Walks.ret {ns : List Node} (h : ∀ n ∈ ns, Walks n) : Walks ⟨{ kind := .ret }, ns⟩ := by
  intro s e hs
  rw [Node.sightings_children _ _ (by decide)]
  unfold visit
  simp only
  refine (Walks.all h hs).bind_last ?_
  rintro ns' t ⟨ht, hres⟩
  refine (checkReturn_silent _ t).bind_last ?_
  intro _ u hu
  refine .pure ⟨hu.trans ht, ?_⟩
  rw [Node.sightings_children _ _ (by decide)]
  exact hres

/-- An assignment looks at its value first. -/
theorem Walks.assignment {target n : Node} (ht : WalksPath target) (hk : target.kind = .reference)
    (h : Walks n) : Walks ⟨{ kind := .assignment }, [target, n]⟩ := by
  have hseen : ∀ (e : Env) (x m : Node), Node.sightings e ⟨{ kind := .assignment }, [x, m]⟩ =
      m.sightings e ++ x.sightings e := by
    intro e x m
    simp only [Node.sightings, Node.sightingsIn, List.append_nil]
  intro s e hs
  rw [hseen]
  unfold visit
  have hne : ¬ target.kind = .field := by
    rw [hk]
    decide
  simp only [if_neg hne]
  refine (h s e hs).bind ?_
  rintro n' t ⟨hst, hres⟩
  have hsees : Sees t.scopes e := by
    rw [hst]
    exact hs
  refine (ht t e hsees).bind_last ?_
  rintro ⟨x, dest⟩ u ⟨hu, _, hx⟩
  refine (Check.Silent.assignLiteral dest _ _ u).bind_last ?_
  intro _ w hw
  refine .pure ⟨hw.trans (hu.trans hst), ?_⟩
  rw [hseen]
  exact List.forall_mem_append.mpr ⟨hres, hx⟩

/-- A member of an anonymous record is its value. -/
theorem Walks.member {name : String} {n : Node} (h : Walks n) :
    Walks ⟨{ kind := .assignment }, [⟨{ kind := .field, value := name }, []⟩, n]⟩ := by
  have hseen : ∀ (e : Env) (m : Node), Node.sightings e
      ⟨{ kind := .assignment }, [⟨{ kind := .field, value := name }, []⟩, m]⟩ = m.sightings e := by
    intro e m
    simp only [Node.sightings, Node.sightingsIn, List.append_nil]
  intro s e hs
  rw [hseen]
  unfold visit
  simp only
  refine (h s e hs).bind_last ?_
  rintro n' t ⟨ht, hres⟩
  refine .pure ⟨ht, ?_⟩
  rw [hseen]
  exact hres

theorem FormsMember.walks {pre : List Token} {n : Node}
    (h : FormsMember (OfPlain Walks) pre n) : OfPlain Walks pre n := by
  intro ht
  cases h with
  | @named x c pre n hx hc hv => exact .member (hv fun t hm => ht t (by simp [hm]))
  | @short x hx =>
    have hpath : FormsPath .reference [x] ⟨{ kind := .reference, value := x.value }, []⟩ :=
      .mk hx .nil
    obtain ⟨hk, hw⟩ := hpath.walks (.inl rfl) ht
    exact .member (hw.walks (.inl hk))

theorem FormsCall.walks {pre : List Token} {n : Node}
    (h : FormsCall (OfPlain fun n => n.kind ≠ .typeExpr ∧ Walks n) pre n) :
    OfPlain Walks pre n := by
  intro ht
  cases h with
  | @mk c name l r args ns hc hname hl ha hr =>
    have hargs := ha.ofPlain fun t hm => ht t (by simp [hm])
    refine .call (List.forall_mem_map.mpr fun n hn => ?_)
    exact .argument rfl (List.forall_mem_singleton.mpr (hargs n hn))

/-- **A value is resolved as lexical scope says**, and leaves the scopes as they are. -/
theorem FormsValue.walks : ∀ {pre : List Token} {n : Node}, FormsValue pre n →
    OfPlain Walks pre n
  | _, _, .allocate _ _ => fun _ => (Still.allocation rfl).walks
  | _, _, .number _ => fun _ => (Still.plain (.inl rfl)).walks
  | _, _, .text _ => fun _ => (Still.plain (.inl rfl)).walks
  | _, _, .path hp => fun ht => by
    obtain ⟨hk, hw⟩ := hp.walks (.inl rfl) ht
    exact hw.walks (.inl hk)
  | _, _, @FormsValue.pointer s name hs hname => by
    intro ht
    have hn : Name.Plain name.value := ht name (by simp) (.inl hname)
    have hw : WalksPath ⟨{ kind := .reference, value := name.value, pointer := true }, []⟩ := by
      intro s e hsees
      refine resolve_tracks (.inl rfl) hn hsees fun hd => ?_
      exact chain_tracks (fun step hm => absurd hm List.not_mem_nil) "" _ hsees hd
    exact hw.walks (.inl rfl)
  | _, _, @FormsValue.anon d a e pre ns hd ha hm he => by
    intro ht
    have hmembers := (hm.imp fun p n hp hmem => (hmem.imp fun q m hq hv =>
      hv.walks).walks).ofPlain fun t hm => ht t (by simp [hm])
    exact .anon hmembers
  | _, _, .call hc => by
    intro ht
    refine (hc.imp fun p m hp hv => ?_).walks ht
    exact fun hplain => ⟨hv.kind_ne (by decide), hv.walks hplain⟩
termination_by pre => pre.length
decreasing_by
  · simp only [List.length_cons, List.length_append]
    omega
  · exact hp

end Osclan
