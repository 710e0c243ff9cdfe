/-
  File:      Osclan/Proofs/Effect.lean
  Subject:   What a walk may do to the state it runs on.

  The walk has many cases and stops in many places, but it touches its state in few ways: it
  declares something, raises a warning, works in a scope of its own, or works as the body of a
  procedure. This file says so once, for every tree and every outcome, and facts about the state
  are then proved by induction on `Effect`, without the walk.

  * `Check.after` -- the state a step leaves, whether it gives a result or stops;
  * `Effect` -- the changes of the state, with the names of the procedures that may be declared;
  * `Check.Does` -- a step that changes the state by such effects only, and its rules;
  * `visit_does` -- the walk over a tree, given the names of the procedures in the tree.
-/
import Osclan.Proofs.Outcome
import Osclan.Proofs.TreeValues

namespace Osclan

/-! ## 1. Effects -/

/-- The state a step leaves, whether it gives a result or stops. -/
def Check.after {α : Type} (step : Check α) (s : Analyzer) : Analyzer :=
  match step s with
  | .ok _ s' => s'
  | .error _ s' => s'

/-- **What may become of a state.** Procedures are declared only under names that satisfy
    `declares`. -/
inductive Effect (declares : String → Prop) : Analyzer → Analyzer → Prop where
  | refl (s : Analyzer) : Effect declares s s
  | trans {s s' s'' : Analyzer} (h : Effect declares s s') (h' : Effect declares s' s'') :
      Effect declares s s''
  | declareVariable {s : Analyzer} {st : ScopeStack} (v : Variable)
      (h : s.scopes.declareVariable v = .ok st) : Effect declares s { s with scopes := st }
  | declareType {s : Analyzer} {st : ScopeStack} (t : Ty)
      (h : s.scopes.declareType t = .ok st) : Effect declares s { s with scopes := st }
  | declareProcedure {s : Analyzer} {st : ScopeStack} (p : Procedure) (hp : declares p.name)
      (h : s.scopes.declareProcedure p = .ok st) : Effect declares s { s with scopes := st }
  | warn (s : Analyzer) (w : Warning) : Effect declares s { s with warnings := s.warnings ++ [w] }
  | scope {s s' : Analyzer} (h : Effect declares { s with scopes := s.scopes.push } s') :
      Effect declares s (Check.leave s')
  | body {s s' : Analyzer} (p : Procedure) (h : Effect declares { s with procedure := some p } s') :
      Effect declares s { s' with procedure := s.procedure }

theorem Effect.of_eq {declares : String → Prop} {s s' : Analyzer} (h : s' = s) :
    Effect declares s s' := by
  rw [h]
  exact .refl s

theorem Effect.of_warned {declares : String → Prop} {s s' : Analyzer} (h : s.Warned s') :
    Effect declares s s' := by
  rcases h with rfl | ⟨w, rfl⟩
  · exact .refl _
  · exact .warn s w

/-! ## 2. Rules for steps -/

/-- The step changes the state by effects only, whether it gives a result or stops. -/
def Check.Does (declares : String → Prop) {α : Type} (step : Check α) : Prop :=
  ∀ s, step.Runs s (fun _ t => Effect declares s t) fun _ t => Effect declares s t

namespace Check

section Rules

variable {declares : String → Prop} {α β : Type}

theorem Does.after {step : Check α} (h : Does declares step) (s : Analyzer) :
    Effect declares s (step.after s) := by
  unfold Check.after
  cases e : step s with
  | ok a t => exact (h s).ok e
  | error e₀ t => exact (h s).stop e

theorem Does.pure (a : α) : Does declares (Pure.pure a : Check α) := fun s => .pure (.refl s)

theorem Does.get : Does declares (MonadState.get : Check Analyzer) := fun _ =>
  Runs.get.imp_ok fun _ _ ht => .of_eq ht.2

/-- A sequence of steps; the second may rely on the result being one the first can give. -/
theorem Does.bind_of {x : Check α} {f : α → Check β} (hx : Does declares x)
    (hf : ∀ s a s', x s = .ok a s' → Does declares (f a)) : Does declares (x >>= f) := by
  intro s
  refine (hx s).with_ok.bind ?_
  intro a t ht
  obtain ⟨hok, heffect⟩ := ht
  exact (hf s a t hok t).imp (fun _ _ h => .trans heffect h) fun _ _ h => .trans heffect h

theorem Does.bind {x : Check α} {f : α → Check β} (hx : Does declares x)
    (hf : ∀ a, Does declares (f a)) : Does declares (x >>= f) :=
  .bind_of hx fun _ a _ _ => hf a

theorem Does.throw (e : Abort) : Does declares (MonadExcept.throw e : Check α) := fun s =>
  .throw (.refl s)

theorem Does.refuse (fault : Fault) : Does declares (refuse fault : Check α) := .throw _

theorem Does.ofExcept (r : Except Fault α) : Does declares (ofExcept r) := fun s =>
  (Runs.ofExcept fun _ _ => .refl s).imp_ok fun _ _ ht => .of_eq ht.2

theorem Does.scopes : Does declares scopes := fun _ => Runs.scopes.imp_ok fun _ _ ht => .of_eq ht.2

/-- A declaration has an effect if each result it can give is one. -/
theorem Does.declare {f : ScopeStack → Except Redeclared ScopeStack}
    (h : ∀ s st, f s.scopes = .ok st → Effect declares s { s with scopes := st }) :
    Does declares (declare f) := by
  intro s
  refine (Runs.declare fun _ => .refl s).imp_ok ?_
  intro _ t ht
  obtain ⟨st, hst, rfl⟩ := ht
  exact h s st hst

theorem Does.makeVariable (name : String) (type : Ty) (pointer : Bool) :
    Does declares (makeVariable name type pointer) := fun s =>
  (Runs.makeVariable (.refl s)).imp_ok fun _ _ ht => .of_eq ht.2

theorem Does.inScope {step : Check α} (h : Does declares step) :
    Does declares (inScope step) := fun _ =>
  .inScope ((h _).imp (fun _ _ he => .scope he) fun _ _ he => .scope he)

theorem Does.inBodyOf {step : Check α} (p : Procedure) (h : Does declares step) :
    Does declares (inBodyOf p step) := fun _ =>
  .inBodyOf ((h _).imp (fun _ _ he => .body p he) fun _ _ he => .body p he)

theorem Does.assign (dest source : Ty) : Does declares (assign dest source) := fun s =>
  (Runs.assign fun _ _ => .refl s).imp_ok fun _ _ ht => .of_warned ht

theorem Does.assignLiteral (dest : Ty) (pointer : Bool) (literal : Option Ty) :
    Does declares (assignLiteral dest pointer literal) := fun s =>
  (Runs.assignLiteral fun _ _ => .refl s).imp_ok fun _ _ ht => .of_warned ht

end Rules

end Check

/-! ## 3. Rules for the parts of the walk -/

section Parts

variable {declares : String → Prop}

theorem declareVariable_does (v : Variable) :
    Check.Does declares (Check.declare (·.declareVariable v)) :=
  .declare fun _ _ h => .declareVariable v h

theorem declareType_does (t : Ty) : Check.Does declares (Check.declare (·.declareType t)) :=
  .declare fun _ _ h => .declareType t h

theorem declareProcedure_does {p : Procedure} (hp : declares p.name) :
    Check.Does declares (Check.declare (·.declareProcedure p)) :=
  .declare fun _ _ h => .declareProcedure p hp h

theorem paramVariables_does (st : ScopeStack) (ns : List Node) :
    Check.Does declares (paramVariables st ns) := by
  induction ns with
  | nil => exact .pure []
  | cons n rest ih =>
    exact .bind (.ofExcept _) fun _ => .bind (.makeVariable _ _ _) fun _ =>
      .bind ih fun _ => .pure _

/-- The procedure of a node has the name of the node. -/
theorem procedureOf_name {l : Label} {children : List Node} {s s' : Analyzer} {p : Procedure}
    (h : procedureOf l children s = .ok p s') : p.name = l.value := by
  simp only [procedureOf, Check.bind_ok] at h
  obtain ⟨_, _, _, _, _, _, _, _, _, h⟩ := h
  split at h
  · obtain ⟨_, _, hr, _⟩ := Check.bind_ok.mp h
    exact absurd hr Check.refuse_ok
  · rw [← (Check.pure_ok.mp h).1]

/-- Making the procedure of a node declares nothing. -/
theorem procedureOf_does (l : Label) (children : List Node) :
    Check.Does declares (procedureOf l children) := by
  refine .bind .scopes fun st => .bind (.ofExcept _) fun returns =>
    .bind (paramVariables_does st _) fun params => ?_
  by_cases h : hasUnreachable (statements children) = true
  · simp only [h, if_true]
    exact .bind (.refuse _) fun _ => .pure _
  · simp only [h]
    exact .pure _

theorem assignArguments_does : ∀ (params : List Variable) (args : List Node),
    Check.Does declares (assignArguments params args)
  | _ :: params, _ :: args => .bind (.assignLiteral _ _ _) fun _ => assignArguments_does params args
  | [], _ => .pure ()
  | _ :: _, [] => .pure ()

theorem checkArguments_does (p : Procedure) (args : List Node) :
    Check.Does declares (checkArguments p args) := by
  unfold checkArguments
  split
  · exact .refuse _
  · exact assignArguments_does p.params args

theorem checkReturn_does (value : Option Node) : Check.Does declares (checkReturn value) := by
  refine .bind .get fun s => ?_
  cases s.procedure with
  | none => exact .pure ()
  | some p =>
    rcases p with ⟨name, returns, params⟩
    cases returns <;> cases value
    · exact .pure ()
    · exact .refuse _
    · exact .refuse _
    · exact .assignLiteral _ _ _

theorem declareRecord_does (n : Node) : Check.Does declares (declareRecord n) := by
  unfold declareRecord
  split
  · exact .pure ()
  · exact .bind .scopes fun _ => .bind (.ofExcept _) fun t => declareType_does t

theorem declareTyped_does (l : Label) : Check.Does declares (declareTyped l) :=
  .bind .scopes fun _ => .bind (.ofExcept _) fun _ => .bind (.makeVariable _ _ _) fun v =>
    declareVariable_does v

theorem declareWith_does (l : Label) (literal : Option Ty) :
    Check.Does declares (declareWith l literal) :=
  .bind .scopes fun _ => .bind (.ofExcept _) fun _ => .bind (.assignLiteral _ _ _) fun _ =>
    .bind (.makeVariable _ _ _) fun v => declareVariable_does v

end Parts

/-! ## 4. The walk -/

section Walk

variable {declares : String → Prop}

theorem declares_children {l : Label} {children : List Node}
    (h : ∀ name ∈ Node.valuesOf .procedure ⟨l, children⟩, declares name) :
    ∀ name ∈ Node.valuesOfAll .procedure children, declares name := by
  intro name hn
  apply h
  simp only [Node.valuesOf, List.mem_append]
  exact .inl hn

theorem declares_cons {n : Node} {rest : List Node}
    (h : ∀ name ∈ Node.valuesOfAll .procedure (n :: rest), declares name) :
    (∀ name ∈ n.valuesOf .procedure, declares name) ∧
      ∀ name ∈ Node.valuesOfAll .procedure rest, declares name := by
  simp only [Node.valuesOfAll, List.mem_append] at h
  exact ⟨fun name hn => h name (.inl hn), fun name hn => h name (.inr hn)⟩

/-- A name resolves by the effects of its fields. -/
theorem resolve_does {children : List Node}
    (h : ∀ parent leaf, Check.Does declares (resolveFields parent leaf children)) (l : Label) :
    Check.Does declares (resolve ⟨l, children⟩) := by
  unfold resolve
  refine .bind .scopes fun st => ?_
  cases st.lookupVariable? l.value with
  | none => exact .refuse _
  | some v => exact .bind (h _ _) fun _ => .pure _

mutual

/-- **The walk changes its state by effects only**, and declares no procedures but those of the
    tree. -/
theorem visit_does : ∀ n : Node, (∀ name ∈ n.valuesOf .procedure, declares name) →
    Check.Does declares (visit n)
  | ⟨l, children⟩, h => by
    have hc := declares_children h
    have hall := visitAll_does children hc
    unfold visit
    cases hk : l.kind with
    | root | directive | field | print => exact .bind hall fun _ => .pure _
    | record =>
      exact .inScope (.bind hall fun _ => .bind (declareRecord_does _) fun _ => .pure _)
    | procedure =>
      refine .inScope (.bind_of (procedureOf_does l children) fun _ p _ hp => ?_)
      have hd : declares p.name := by
        rw [procedureOf_name hp]
        apply h
        simp only [Node.valuesOf, hk, if_true, List.mem_append, List.mem_singleton, or_true]
      exact .bind (declareProcedure_does hd) fun _ => .bind (.inBodyOf p hall) fun _ => .pure _
    | argument =>
      simp only
      split
      · exact .bind hall fun _ => .pure _
      · exact .bind (declareTyped_does l) fun _ => .pure _
      · exact .refuse _
    | call =>
      refine .bind .scopes fun st => ?_
      cases st.lookupProcedure? l.value with
      | none => exact .refuse _
      | some p => exact .bind hall fun _ => .bind (checkArguments_does p _) fun _ => .pure _
    | typeExpr =>
      simp only
      split
      · exact .pure _
      · exact .bind .scopes fun _ => .bind (.ofExcept _) fun _ => .pure _
    | modifier | scalar => exact .pure _
    | assignment =>
      match children, h with
      | [⟨lt, ct⟩, value], _ =>
        obtain ⟨ht, hv⟩ := declares_cons hc
        refine .bind (visit_does value (declares_cons hv).1) fun value' => ?_
        split
        · exact .pure _
        · have ht := fun p t => resolveFields_does p t ct (declares_children ht)
          exact .bind (resolve_does ht lt) fun _ => .bind (.assignLiteral _ _ _) fun _ => .pure _
      | [], _ => exact .refuse _
      | [_], _ => exact .refuse _
      | _ :: _ :: _ :: _, _ => exact .refuse _
    | declaration =>
      simp only
      split
      · exact .bind (visitOperand_does 1 children hc) fun _ =>
          .bind (declareWith_does _ _) fun _ => .pure _
      · exact .refuse _
    | reference | dynamicOffset =>
      have hf := fun p t => resolveFields_does p t children hc
      exact .bind (resolve_does hf l) fun _ => .pure _
    | allocation => exact .bind .scopes fun _ => .bind (.ofExcept _) fun _ => .pure _
    | ret => exact .bind hall fun _ => .bind (checkReturn_does _) fun _ => .pure _

theorem visitAll_does : ∀ ns : List Node, (∀ name ∈ Node.valuesOfAll .procedure ns, declares name) →
    Check.Does declares (visitAll ns)
  | [], _ => by unfold visitAll; exact .pure []
  | n :: rest, h => by
    unfold visitAll
    obtain ⟨hn, hr⟩ := declares_cons h
    exact .bind (visit_does n hn) fun _ => .bind (visitAll_does rest hr) fun _ => .pure _

theorem visitOperand_does : ∀ (before : Nat) (ns : List Node),
    (∀ name ∈ Node.valuesOfAll .procedure ns, declares name) →
    Check.Does declares (visitOperand before ns)
  | _, [], _ => by unfold visitOperand; exact .pure []
  | before, n :: rest, h => by
    unfold visitOperand
    obtain ⟨hn, hr⟩ := declares_cons h
    split
    · exact .bind (visitOperand_does before rest hr) fun _ => .pure _
    · cases before with
      | zero => exact .bind (visit_does n hn) fun _ => .pure _
      | succ before => exact .bind (visitOperand_does before rest hr) fun _ => .pure _

theorem resolveFields_does : ∀ (parent leaf : Ty) (ns : List Node),
    (∀ name ∈ Node.valuesOfAll .procedure ns, declares name) →
    Check.Does declares (resolveFields parent leaf ns)
  | _, _, [], _ => by unfold resolveFields; exact .pure _
  | parent, leaf, ⟨l, children⟩ :: rest, h => by
    obtain ⟨hn, hr⟩ := declares_cons h
    have hf := fun p t => resolveFields_does p t children (declares_children hn)
    have hvisit := visit_does ⟨l, children⟩ hn
    have hrest := fun leaf => resolveFields_does parent leaf rest hr
    unfold resolveFields
    cases l.kind with
    | field =>
      cases parent.field? l.value with
      | none => exact .refuse _
      | some type =>
        exact .bind (hf type type) fun r => .bind (hrest r.2) fun _ => .pure _
    | dynamicOffset =>
      exact .bind (resolve_does hf l) fun _ => .bind (hrest leaf) fun _ => .pure _
    | _ => exact .bind hvisit fun _ => .bind (hrest leaf) fun _ => .pure _

end

end Walk

end Osclan
