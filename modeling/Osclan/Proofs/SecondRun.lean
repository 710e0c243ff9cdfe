/-
  File:      Osclan/Proofs/SecondRun.lean
  Subject:   A checked tree passes the check again, with the same outcome.

  The walk writes type names into labels, and it also reads type names off labels. Of a node it has
  walked it reads the type only where it has not written one: at parameters, at allocations, at
  literals, and at the targets of declarations, which it does not walk. So a second walk over what
  the first one gives finds everything as the first did, and writes what is there already. The
  tree may be any tree, also one that no program has.

  * `Check.Gives` -- what holds of every result of a step;
  * `Node.outline`, `visit_outline` -- what the node around a walked node reads of its label;
  * `procedureOf_outline`, `operandsOf_visitOperand` -- what is read before children are walked;
  * `Repeats`, `visit_again` -- the walk;
  * `analyze_idempotent` -- the main result.
-/
import Osclan.Proofs.Acceptance
import Osclan.Proofs.Annotation
import Osclan.Proofs.Outcome

namespace Osclan

/-! ## 1. Results of steps -/

/-- Every result of the step has the property, whatever state it starts in. -/
def Check.Gives {α : Type} (step : Check α) (P : α → Prop) : Prop :=
  ∀ s, step.Runs s (fun a _ => P a) fun _ _ => True

namespace Check

variable {α β : Type} {P : α → Prop}

theorem Gives.pure {a : α} (h : P a) : Gives (Pure.pure a) P := fun _ => .pure h

/-- The last step of a sequence gives its results. -/
theorem Gives.bind {x : Check β} {f : β → Check α} (h : ∀ b, Gives (f b) P) :
    Gives (x >>= f) P := by
  intro s
  have hx : x.Runs s (fun _ _ => True) fun _ _ => True := ⟨fun _ => trivial, fun _ => trivial⟩
  exact hx.bind fun b t _ => h b t

theorem Gives.refuse (fault : Fault) : Gives (Check.refuse fault) P := fun _ => .refuse trivial

theorem Gives.inScope {step : Check α} (h : Gives step P) : Gives (Check.inScope step) P :=
  fun _ => .inScope (h _)

end Check

/-! ## 2. What is read of a walked node -/

/-- The label is that of a reference or an offset. -/
def Label.isReference (l : Label) : Prop := l.kind = .reference ∨ l.kind = .dynamicOffset

instance (l : Label) : Decidable l.isReference := inferInstanceAs (Decidable (_ ∨ _))

/-- The label without the type, if it is that of a reference. -/
def Label.outline (l : Label) : Label := if l.isReference then l.untyped else l

/-- The label of a node, without the type of a reference. -/
def Node.outline (n : Node) : Label := n.label.outline

theorem outline_kind (n : Node) : n.outline.kind = n.kind := by
  unfold Node.outline Label.outline
  split <;> rfl

theorem outline_value (n : Node) : n.outline.value = n.value := by
  unfold Node.outline Label.outline
  split <;> rfl

theorem outline_size (n : Node) : n.outline.size = n.label.size := by
  unfold Node.outline Label.outline
  split <;> rfl

/-- What is resolved takes the name of a type, and keeps the rest of its label. -/
theorem resolve_gives (l : Label) (children : List Node) :
    (resolve ⟨l, children⟩).Gives fun r =>
      ∃ name, r.1.label = { l with typeName := some name } := by
  unfold resolve
  refine .bind fun st => ?_
  cases st.lookupVariable? l.value with
  | none => exact .refuse _
  | some v => exact .bind fun r => .pure ⟨v.type.name, rfl⟩

theorem resolve_kind {l : Label} {children : List Node} {s s' : Analyzer} {r : Node × Ty}
    (h : resolve ⟨l, children⟩ s = .ok r s') : r.1.kind = l.kind := by
  obtain ⟨name, hname⟩ := (resolve_gives l children s).ok h
  rw [Node.kind, hname]

/-- A node that is no reference keeps its label. -/
theorem visit_label (l : Label) (children : List Node)
    (hl : ¬ l.isReference) :
    (visit ⟨l, children⟩).Gives fun n => n.label = l := by
  unfold visit
  cases hk : l.kind with
  | root | directive | field | print => exact .bind fun _ => .pure rfl
  | record => exact .inScope (.bind fun _ => .bind fun _ => .pure rfl)
  | procedure => exact .inScope (.bind fun _ => .bind fun _ => .bind fun _ => .pure rfl)
  | argument =>
    simp only
    split
    · exact .bind fun _ => .pure rfl
    · exact .bind fun _ => .pure rfl
    · exact .refuse _
  | call =>
    refine .bind fun st => ?_
    cases st.lookupProcedure? l.value with
    | none => exact .refuse _
    | some p => exact .bind fun _ => .bind fun _ => .pure rfl
  | typeExpr =>
    simp only
    split
    · exact .pure rfl
    · exact .bind fun _ => .bind fun _ => .pure rfl
  | modifier | scalar => exact .pure rfl
  | assignment =>
    simp only
    split
    · refine .bind fun _ => ?_
      split
      · exact .pure rfl
      · exact .bind fun _ => .bind fun _ => .pure rfl
    · exact .refuse _
  | declaration =>
    simp only
    split
    · exact .bind fun _ => .bind fun _ => .pure rfl
    · exact .refuse _
  | reference => exact absurd (.inl hk) hl
  | dynamicOffset => exact absurd (.inr hk) hl
  | allocation => exact .bind fun _ => .bind fun _ => .pure rfl
  | ret => exact .bind fun _ => .bind fun _ => .pure rfl

/-- A reference takes the name of a type, and keeps the rest of its label. -/
theorem visit_reference (l : Label) (children : List Node)
    (hl : l.isReference) :
    (visit ⟨l, children⟩).Gives fun n => ∃ name, n.label = { l with typeName := some name } := by
  have hresolve : ((resolve ⟨l, children⟩) >>= fun r => pure r.1).Gives fun n =>
      ∃ name, n.label = { l with typeName := some name } := by
    intro s
    exact (resolve_gives l children s).bind fun r t hr => .pure hr
  unfold visit
  rcases hl with hk | hk
  · simp only [hk] at hresolve ⊢
    exact hresolve
  · simp only [hk] at hresolve ⊢
    exact hresolve

/-- **A walked node has the outline it had.** -/
theorem visit_outline {n n' : Node} {s s' : Analyzer} (h : visit n s = .ok n' s') :
    n'.outline = n.outline := by
  rcases n with ⟨l, children⟩
  unfold Node.outline
  by_cases hl : l.isReference
  · obtain ⟨name, hname⟩ := (visit_reference l children hl s).ok h
    have hl' : ({ l with typeName := some name } : Label).isReference := hl
    rw [hname, Label.outline, if_pos hl', Label.outline, if_pos hl]
    rfl
  · rw [(visit_label l children hl s).ok h]

/-- **Walked nodes have the outlines they had.** -/
theorem visitAll_outline : ∀ {ns ns' : List Node} {s s' : Analyzer},
    visitAll ns s = .ok ns' s' → ns'.map Node.outline = ns.map Node.outline
  | [], ns', s, s', h => by
    unfold visitAll at h
    rw [← (Check.pure_ok.mp h).1]
  | n :: rest, ns', s, s', h => by
    unfold visitAll at h
    simp only [Check.bind_ok, Check.pure_ok] at h
    obtain ⟨n', _, hn, rest', _, hr, rfl, _⟩ := h
    rw [List.map_cons, List.map_cons, visit_outline hn, visitAll_outline hr]

/-! ## 3. What is read before children are walked -/

section

variable {ns ns' : List Node}

/-- Nodes chosen by kind have the same outlines on both sides. -/
theorem filter_outline (h : ns'.map Node.outline = ns.map Node.outline) (p : NodeKind → Bool) :
    (ns'.filter (p ·.kind)).map Node.outline = (ns.filter (p ·.kind)).map Node.outline := by
  have hfilter : ∀ ms : List Node, (ms.filter (p ·.kind)).map Node.outline =
      (ms.map Node.outline).filter (p ·.kind) := by
    intro ms
    rw [List.filter_map]
    simp only [Function.comp_def, outline_kind]
  rw [hfilter, hfilter, h]

theorem length_filter_outline (h : ns'.map Node.outline = ns.map Node.outline)
    (p : NodeKind → Bool) : (ns'.filter (p ·.kind)).length = (ns.filter (p ·.kind)).length := by
  have hlength := congrArg List.length (filter_outline h p)
  rwa [List.length_map, List.length_map] at hlength

/-- What a procedure returns is read off a type expression, which a walk leaves. -/
theorem resultType_outline (h : ns'.map Node.outline = ns.map Node.outline) (st : ScopeStack)
    (l : Label) : resultType st l ns' = resultType st l ns := by
  have hhead : ns'.head?.map Node.outline = ns.head?.map Node.outline := by
    rw [← List.head?_map, ← List.head?_map, h]
  unfold resultType
  revert hhead
  generalize ns'.head? = first'
  generalize ns.head? = first
  intro hhead
  cases first' with
  | none =>
    cases first with
    | none => rfl
    | some type => cases hhead
  | some type' =>
    cases first with
    | none => cases hhead
    | some type =>
      have houtline := Option.some.inj hhead
      have hkind : type'.kind = type.kind := by rw [← outline_kind, houtline, outline_kind]
      have hvalue : type'.value = type.value := by rw [← outline_value, houtline, outline_value]
      have hsize : type'.label.size = type.label.size := by
        rw [← outline_size, houtline, outline_size]
      simp only [hkind, hvalue, hsize]

/-- A parameter is no reference, so that its whole label is in its outline. -/
theorem paramVariables_outline (h : ns'.map Node.outline = ns.map Node.outline)
    (st : ScopeStack) : paramVariables st (ns'.filter (·.kind == .argument)) =
      paramVariables st (ns.filter (·.kind == .argument)) := by
  have hfilter := filter_outline h (· == .argument)
  have hlabel : ∀ ms : List Node, ∀ n ∈ ms.filter (·.kind == .argument),
      n.outline = n.label := by
    intro ms n hn
    have hkind : n.kind = .argument := beq_iff_eq.mp (List.mem_filter.mp hn).2
    refine if_neg fun href => ?_
    rcases href with hk | hk
    · cases hkind.symm.trans hk
    · cases hkind.symm.trans hk
  rw [List.map_congr_left (hlabel ns'), List.map_congr_left (hlabel ns)] at hfilter
  revert hfilter
  generalize ns'.filter (·.kind == .argument) = args'
  generalize ns.filter (·.kind == .argument) = args
  intro hfilter
  induction args generalizing args' with
  | nil => rw [List.map_eq_nil_iff.mp hfilter]
  | cons arg args ih =>
    obtain ⟨arg', rest, rfl, harg, hrest⟩ := List.map_eq_cons_iff.mp hfilter
    unfold paramVariables
    rw [harg, ih rest hrest]
    simp only [Node.value, harg]

theorem hasUnreachable_outline (h : ns'.map Node.outline = ns.map Node.outline) :
    hasUnreachable (statements ns') = hasUnreachable (statements ns) := by
  have hdrop : ∀ ms : List Node, (ms.dropWhile (·.kind != .ret)).map Node.outline =
      (ms.map Node.outline).dropWhile (·.kind != .ret) := by
    intro ms
    rw [List.dropWhile_map]
    simp only [Function.comp_def, outline_kind]
  have hrest : ((statements ns').dropWhile (·.kind != .ret)).map Node.outline =
      ((statements ns).dropWhile (·.kind != .ret)).map Node.outline := by
    rw [hdrop, hdrop]
    exact congrArg _
      (filter_outline h fun k => k != .modifier && k != .typeExpr && k != .argument)
  unfold hasUnreachable
  revert hrest
  generalize (statements ns').dropWhile _ = rest'
  generalize (statements ns).dropWhile _ = rest
  intro hrest
  cases rest' with
  | nil =>
    cases rest with
    | nil => rfl
    | cons => cases hrest
  | cons first' rest' =>
    cases rest with
    | nil => cases hrest
    | cons first rest =>
      have hempty := congrArg List.isEmpty (List.cons.inj hrest).2
      rw [List.isEmpty_map, List.isEmpty_map] at hempty
      simp only [hempty]

/-- **The procedure of a node is read off the outlines of its children.** -/
theorem procedureOf_outline (h : ns'.map Node.outline = ns.map Node.outline) (l : Label) :
    procedureOf l ns' = procedureOf l ns := by
  unfold procedureOf
  simp only [resultType_outline h, paramVariables_outline h, hasUnreachable_outline h]

/-- **The operands of a declaration** are as many after the walk, and those in front of the walked
    one are the same. -/
theorem operandsOf_visitOperand {before : Nat} {s s' : Analyzer}
    (h : visitOperand before ns s = .ok ns' s') :
    (operandsOf ns').length = (operandsOf ns).length ∧
      (operandsOf ns').take before = (operandsOf ns).take before := by
  induction ns generalizing ns' before s s' with
  | nil =>
    unfold visitOperand at h
    rw [← (Check.pure_ok.mp h).1]
    exact ⟨rfl, rfl⟩
  | cons n rest ih =>
    unfold visitOperand at h
    by_cases hk : n.kind = .modifier
    · simp only [if_pos hk, Check.bind_ok, Check.pure_ok] at h
      obtain ⟨rest', _, hr, rfl, _⟩ := h
      have hskip : ∀ ms, operandsOf (n :: ms) = operandsOf ms :=
        fun ms => List.filter_cons_of_neg (by simp [hk])
      rw [hskip, hskip]
      exact ih hr
    · have htake : ∀ ms, operandsOf (n :: ms) = n :: operandsOf ms :=
        fun ms => List.filter_cons_of_pos (by simp [hk])
      simp only [if_neg hk] at h
      cases before with
      | zero =>
        simp only [Check.bind_ok, Check.pure_ok] at h
        obtain ⟨n', _, hn, rfl, _⟩ := h
        have hk' : n'.kind ≠ .modifier := by
          rw [← outline_kind, visit_outline hn, outline_kind]
          exact hk
        have htake' : operandsOf (n' :: rest) = n' :: operandsOf rest :=
          List.filter_cons_of_pos (by simp [hk'])
        rw [htake, htake']
        exact ⟨rfl, rfl⟩
      | succ before =>
        simp only [Check.bind_ok, Check.pure_ok] at h
        obtain ⟨rest', _, hr, rfl, _⟩ := h
        obtain ⟨hlength, hfront⟩ := ih hr
        rw [htake, htake, List.take_succ_cons, List.take_succ_cons, hfront, List.length_cons,
          List.length_cons, hlength]
        exact ⟨rfl, rfl⟩

end

/-! ## 4. The walk -/

/-- A name whose fields are resolved again to the same is resolved again to the same. -/
theorem resolve_again {l : Label} {children : List Node} {s s' : Analyzer} {r : Node × Ty}
    (hc : ∀ parent leaf {t t' : Analyzer} {r : List Node × Ty},
      resolveFields parent leaf children t = .ok r t' → resolveFields parent leaf r.1 t = .ok r t')
    (h : resolve ⟨l, children⟩ s = .ok r s') : resolve r.1 s = .ok r s' := by
  unfold resolve at h
  simp only [Check.bind_ok, Check.scopes_ok] at h
  obtain ⟨_, _, ⟨rfl, rfl⟩, h⟩ := h
  cases hv : s.scopes.lookupVariable? l.value with
  | none =>
    simp only [hv] at h
    exact absurd h Check.refuse_ok
  | some v =>
    simp only [hv, Check.bind_ok, Check.pure_ok] at h
    obtain ⟨⟨children', leaf⟩, _, hf, rfl, rfl⟩ := h
    unfold resolve
    refine Check.bind_ok.mpr ⟨_, s, Check.scopes_ok.mpr ⟨rfl, rfl⟩, ?_⟩
    simp only [hv]
    exact Check.bind_ok.mpr ⟨(children', leaf), _, hc _ _ hf, rfl⟩

section

variable {l : Label} {children : List Node}

/-- A second walk over what the first gives is the same as the first. -/
def Repeats {α : Type} (walk : α → Check α) (a : α) : Prop :=
  ∀ s b s', walk a s = .ok b s' → walk b s = .ok b s'

theorem repeats_of_gives {n : Node} (h : (visit n).Gives (· = n)) : Repeats visit n := by
  intro s n' s' e
  obtain rfl := (h s).ok e
  exact e

theorem procedure_again (hk : l.kind = .procedure) (hall : Repeats visitAll children) :
    Repeats visit ⟨l, children⟩ := by
  intro s n' s' h
  unfold visit at h
  simp only [hk, Check.inScope_ok, Check.bind_ok, Check.pure_ok, Check.inBodyOf_ok] at h
  obtain ⟨_, ⟨p, _, hp, _, _, hd, ns, _, ⟨_, hv, rfl⟩, rfl, rfl⟩, rfl⟩ := h
  rw [← procedureOf_outline (visitAll_outline hv)] at hp
  unfold visit
  simp only [hk, Check.inScope_ok, Check.bind_ok, Check.pure_ok, Check.inBodyOf_ok]
  exact ⟨_, ⟨p, _, hp, _, _, hd, ns, _, ⟨_, hall _ _ _ hv, rfl⟩, rfl, rfl⟩, rfl⟩

/-- The types below an argument are counted before it is walked. -/
theorem argument_again (hk : l.kind = .argument) (hall : Repeats visitAll children) :
    Repeats visit ⟨l, children⟩ := by
  intro s n' s' h
  have hfirst := h
  unfold visit at h
  simp only [hk] at h
  rcases hn : (children.filter (·.kind == .typeExpr)).length with _ | _ | k
  · simp only [hn, Check.bind_ok, Check.pure_ok] at h
    obtain ⟨ns, _, hv, rfl, rfl⟩ := h
    have hn' := (length_filter_outline (visitAll_outline hv) (· == .typeExpr)).trans hn
    unfold visit
    simp only [hk, hn', Check.bind_ok, Check.pure_ok]
    exact ⟨ns, _, hall _ _ _ hv, rfl, rfl⟩
  · simp only [hn, Check.bind_ok, Check.pure_ok] at h
    obtain ⟨_, _, _, rfl, _⟩ := h
    exact hfirst
  · simp only [hn] at h
    exact absurd h Check.refuse_ok

theorem call_again (hk : l.kind = .call) (hall : Repeats visitAll children) :
    Repeats visit ⟨l, children⟩ := by
  intro s n' s' h
  unfold visit at h
  simp only [hk, Check.bind_ok, Check.scopes_ok] at h
  obtain ⟨_, _, ⟨rfl, rfl⟩, h⟩ := h
  cases hp : s.scopes.lookupProcedure? l.value with
  | none =>
    simp only [hp] at h
    exact absurd h Check.refuse_ok
  | some p =>
    simp only [hp, Check.bind_ok, Check.pure_ok] at h
    obtain ⟨ns, _, hv, _, _, hargs, rfl, rfl⟩ := h
    unfold visit
    simp only [hk]
    refine Check.bind_ok.mpr ⟨_, s, Check.scopes_ok.mpr ⟨rfl, rfl⟩, ?_⟩
    simp only [hp, Check.bind_ok, Check.pure_ok]
    exact ⟨ns, _, hall _ _ _ hv, _, _, hargs, rfl, rfl⟩

/-- The target of an assignment is resolved behind the value. -/
theorem assignment_again (hk : l.kind = .assignment) {lt : Label} {ct : List Node} {value : Node}
    (hvalue : Repeats visit value)
    (hfields : ∀ parent leaf {t t' : Analyzer} {r : List Node × Ty},
      resolveFields parent leaf ct t = .ok r t' → resolveFields parent leaf r.1 t = .ok r t') :
    Repeats visit ⟨l, [⟨lt, ct⟩, value]⟩ := by
  intro s n' s' h
  unfold visit at h
  simp only [hk, Check.bind_ok] at h
  obtain ⟨value', _, hv, h⟩ := h
  split at h
  · rename_i hfield
    obtain ⟨rfl, rfl⟩ := Check.pure_ok.mp h
    unfold visit
    simp only [hk, Check.bind_ok, if_pos hfield, Check.pure_ok]
    exact ⟨value', _, hvalue _ _ _ hv, rfl, rfl⟩
  · rename_i hfield
    simp only [Check.bind_ok, Check.pure_ok] at h
    obtain ⟨⟨target', dest⟩, _, ht, _, _, hstore, rfl, rfl⟩ := h
    have hfield' : ¬ target'.kind = .field := by
      rw [show target'.kind = lt.kind from resolve_kind ht]
      exact hfield
    unfold visit
    simp only [hk, Check.bind_ok, if_neg hfield', Check.pure_ok]
    exact ⟨value', _, hvalue _ _ _ hv, (target', dest), _, resolve_again hfields ht, _, _, hstore,
      rfl, rfl⟩

/-- The target of a declaration is not walked, so its type is the one that was written. -/
theorem declaration_again (hk : l.kind = .declaration)
    (hoperand : Repeats (visitOperand 1) children) : Repeats visit ⟨l, children⟩ := by
  intro s n' s' h
  unfold visit at h
  simp only [hk] at h
  rcases ho : operandsOf children with _ | ⟨target, _ | ⟨value, _ | ⟨third, rest⟩⟩⟩
  · simp only [ho] at h
    exact absurd h Check.refuse_ok
  · simp only [ho] at h
    exact absurd h Check.refuse_ok
  · simp only [ho, Check.bind_ok, Check.pure_ok] at h
    obtain ⟨ns, _, hv, _, _, hd, rfl, rfl⟩ := h
    obtain ⟨value', ho'⟩ : ∃ value', operandsOf ns = [target, value'] := by
      obtain ⟨hlength, hfront⟩ := operandsOf_visitOperand hv
      rw [ho] at hlength hfront
      obtain ⟨first, second, he⟩ := List.length_eq_two.mp hlength
      rw [he] at hfront
      obtain ⟨rfl, _⟩ := List.cons.inj hfront
      exact ⟨second, he⟩
    unfold visit
    simp only [hk, ho', Check.bind_ok, Check.pure_ok]
    exact ⟨ns, _, hoperand _ _ _ hv, _, _, hd, rfl, rfl⟩
  · simp only [ho] at h
    exact absurd h Check.refuse_ok

end

mutual

/-- **A second walk over what the first gives** gives the same again, and leaves the same state. -/
theorem visit_again : ∀ n : Node, Repeats visit n
  | ⟨l, children⟩ => by
    have hall : Repeats visitAll children := visitAll_again children
    cases hk : l.kind with
    | procedure => exact procedure_again hk hall
    | argument => exact argument_again hk hall
    | call => exact call_again hk hall
    | declaration => exact declaration_again hk (visitOperand_again 1 children)
    | assignment =>
      match children with
      | [⟨lt, ct⟩, value] =>
        exact assignment_again hk (visit_again value) fun p t => resolveFields_again p t ct
      | [] | [_] | _ :: _ :: _ :: _ =>
        intro s n' s' h
        unfold visit at h
        simp only [hk] at h
        exact absurd h Check.refuse_ok
    | root | directive | field | print =>
      intro s n' s' h
      unfold visit at h
      simp only [hk, Check.bind_ok, Check.pure_ok] at h
      obtain ⟨ns, _, hv, rfl, rfl⟩ := h
      unfold visit
      simp only [hk, Check.bind_ok, Check.pure_ok]
      exact ⟨ns, _, hall _ _ _ hv, rfl, rfl⟩
    | record =>
      intro s n' s' h
      unfold visit at h
      simp only [hk, Check.inScope_ok, Check.bind_ok, Check.pure_ok] at h
      obtain ⟨_, ⟨ns, _, hv, _, _, hd, rfl, rfl⟩, rfl⟩ := h
      unfold visit
      simp only [hk, Check.inScope_ok, Check.bind_ok, Check.pure_ok]
      exact ⟨_, ⟨ns, _, hall _ _ _ hv, _, _, hd, rfl, rfl⟩, rfl⟩
    | ret =>
      intro s n' s' h
      unfold visit at h
      simp only [hk, Check.bind_ok, Check.pure_ok] at h
      obtain ⟨ns, _, hv, _, _, hret, rfl, rfl⟩ := h
      unfold visit
      simp only [hk, Check.bind_ok, Check.pure_ok]
      exact ⟨ns, _, hall _ _ _ hv, _, _, hret, rfl, rfl⟩
    | reference | dynamicOffset =>
      intro s n' s' h
      unfold visit at h
      simp only [hk, Check.bind_ok, Check.pure_ok] at h
      obtain ⟨⟨⟨l', children'⟩, leaf⟩, _, hr, rfl, rfl⟩ := h
      have hk' : l'.kind = l.kind := resolve_kind hr
      have hagain := resolve_again (fun p t => resolveFields_again p t children) hr
      unfold visit
      simp only [hk', hk, Check.bind_ok, Check.pure_ok]
      exact ⟨_, _, hagain, rfl, rfl⟩
    | typeExpr =>
      refine repeats_of_gives ?_
      unfold visit
      simp only [hk]
      split
      · exact .pure rfl
      · exact .bind fun _ => .bind fun _ => .pure rfl
    | allocation =>
      refine repeats_of_gives ?_
      unfold visit
      simp only [hk]
      exact .bind fun _ => .bind fun _ => .pure rfl
    | modifier | scalar =>
      refine repeats_of_gives ?_
      unfold visit
      simp only [hk]
      exact .pure rfl

theorem visitAll_again : ∀ ns : List Node, Repeats visitAll ns
  | [] => by
    intro s ns' s' h
    unfold visitAll at h
    obtain ⟨rfl, rfl⟩ := Check.pure_ok.mp h
    unfold visitAll
    rfl
  | n :: rest => by
    intro s ns' s' h
    unfold visitAll at h
    simp only [Check.bind_ok, Check.pure_ok] at h
    obtain ⟨n', _, hn, rest', _, hr, rfl, rfl⟩ := h
    unfold visitAll
    simp only [Check.bind_ok, Check.pure_ok]
    exact ⟨n', _, visit_again n _ _ _ hn, rest', _, visitAll_again rest _ _ _ hr, rfl, rfl⟩

theorem visitOperand_again : ∀ (before : Nat) (ns : List Node), Repeats (visitOperand before) ns
  | _, [] => by
    intro s ns' s' h
    unfold visitOperand at h
    obtain ⟨rfl, rfl⟩ := Check.pure_ok.mp h
    unfold visitOperand
    rfl
  | before, n :: rest => by
    intro s ns' s' h
    unfold visitOperand at h
    split at h
    · rename_i hk
      simp only [Check.bind_ok, Check.pure_ok] at h
      obtain ⟨rest', _, hr, rfl, rfl⟩ := h
      unfold visitOperand
      simp only [if_pos hk, Check.bind_ok, Check.pure_ok]
      exact ⟨rest', _, visitOperand_again before rest _ _ _ hr, rfl, rfl⟩
    · rename_i hk
      cases before with
      | zero =>
        simp only [Check.bind_ok, Check.pure_ok] at h
        obtain ⟨n', _, hn, rfl, rfl⟩ := h
        have hk' : ¬ n'.kind = .modifier := by
          rw [← outline_kind, visit_outline hn, outline_kind]
          exact hk
        unfold visitOperand
        simp only [if_neg hk', Check.bind_ok, Check.pure_ok]
        exact ⟨n', _, visit_again n _ _ _ hn, rfl, rfl⟩
      | succ before =>
        simp only [Check.bind_ok, Check.pure_ok] at h
        obtain ⟨rest', _, hr, rfl, rfl⟩ := h
        unfold visitOperand
        simp only [if_neg hk, Check.bind_ok, Check.pure_ok]
        exact ⟨rest', _, visitOperand_again before rest _ _ _ hr, rfl, rfl⟩

theorem resolveFields_again : ∀ (parent leaf : Ty) (ns : List Node) {s s' : Analyzer}
    {r : List Node × Ty}, resolveFields parent leaf ns s = .ok r s' →
    resolveFields parent leaf r.1 s = .ok r s'
  | _, _, [], s, s', r, h => by
    unfold resolveFields at h
    obtain ⟨rfl, rfl⟩ := Check.pure_ok.mp h
    unfold resolveFields
    rfl
  | parent, leaf, ⟨l, children⟩ :: rest, s, s', r, h => by
    have hvisit : ∀ {t t' : Analyzer} {n' : Node}, visit ⟨l, children⟩ t = .ok n' t' →
        visit n' t = .ok n' t' ∧ n'.kind = l.kind := by
      intro t t' n' hn
      refine ⟨visit_again ⟨l, children⟩ _ _ _ hn, ?_⟩
      rw [← outline_kind, visit_outline hn, outline_kind]
      rfl
    unfold resolveFields at h
    cases hk : l.kind with
    | field =>
      simp only [hk] at h
      cases hf : parent.field? l.value with
      | none =>
        simp only [hf] at h
        exact absurd h Check.refuse_ok
      | some type =>
        simp only [hf, Check.bind_ok, Check.pure_ok] at h
        obtain ⟨⟨children', _⟩, _, hc, ⟨rest', _⟩, _, hr, rfl, rfl⟩ := h
        unfold resolveFields
        simp only [hf, Check.bind_ok, Check.pure_ok]
        exact ⟨_, _, resolveFields_again _ _ children hc, _, _, resolveFields_again _ _ rest hr,
          rfl, rfl⟩
    | dynamicOffset =>
      simp only [hk, Check.bind_ok, Check.pure_ok] at h
      obtain ⟨⟨⟨l', children'⟩, _⟩, _, hn, ⟨rest', _⟩, _, hr, rfl, rfl⟩ := h
      have hk' : l'.kind = l.kind := resolve_kind hn
      have hagain := resolve_again (fun p t => resolveFields_again p t children) hn
      unfold resolveFields
      simp only [hk', hk, Check.bind_ok, Check.pure_ok]
      exact ⟨_, _, hagain, _, _, resolveFields_again _ _ rest hr, rfl, rfl⟩
    | _ =>
      simp only [hk, Check.bind_ok, Check.pure_ok] at h
      obtain ⟨⟨l', children'⟩, _, hn, ⟨rest', _⟩, _, hr, rfl, rfl⟩ := h
      obtain ⟨hagain, hk'⟩ := hvisit hn
      have hkind : l'.kind = l.kind := hk'
      unfold resolveFields
      simp only [hkind, hk, Check.bind_ok, Check.pure_ok]
      exact ⟨_, _, hagain, _, _, resolveFields_again _ _ rest hr, rfl, rfl⟩

end

/-! ## 5. Runs -/

/-- **The check is idempotent.** A tree that passes a fresh check gives a tree that passes a fresh
    check again, and the second run hands over what the first did: the same tree, the same warnings,
    the same closed scopes and the same globals; it also leaves the same state. -/
theorem analyze_idempotent {tree : Node} {a : Analysis} {s : Analyzer}
    (h : Check.analyze tree .fresh = .ok a s) : Check.analyze a.tree .fresh = .ok a s := by
  obtain ⟨n, t, hn, hover⟩ := Check.bind_ok.mp h
  have htree : a.tree = n := by
    cases hover
    rfl
  rw [htree]
  exact Check.bind_ok.mpr ⟨n, t, visit_again tree _ _ _ hn, hover⟩

/-- A text `x` is declared, and then a literal is stored in it by a target that is itself a literal.
    No program has such a tree. -/
def literalTarget (type : Option String) : Node :=
  ⟨{ kind := .root },
    [⟨{ kind := .declaration },
      [⟨{ kind := .reference, value := "x", typeName := some "string" }, []⟩,
        ⟨{ kind := .scalar, value := "ab", typeName := some "string" }, []⟩]⟩,
      ⟨{ kind := .assignment },
        [⟨{ kind := .scalar, value := "x", typeName := type }, []⟩,
          ⟨{ kind := .scalar, value := "abc" }, []⟩]⟩]⟩

/-- The first run writes a type on a literal, and the second does not take it for that of one. -/
theorem analyze_idempotent_of_literalTarget :
    ∃ a s, Check.analyze (literalTarget none) .fresh = .ok a s ∧
      a.tree = literalTarget (some "string") ∧ a.warnings = [⟨"string(2)", "int(3)"⟩] ∧
      Check.analyze a.tree .fresh = .ok a s := by
  have hgood : (Check.analyze (literalTarget none)).succeeds .fresh = true := by cbv
  have hout : ((Check.analyze (literalTarget none)).outcome .fresh).map
      (fun a => (a.tree, a.warnings)) =
        .ok (literalTarget (some "string"), [⟨"string(2)", "int(3)"⟩]) := by cbv
  obtain ⟨a, s, h⟩ := Check.ok_of_succeeds hgood
  rw [Check.outcome, h] at hout
  obtain ⟨htree, hwarnings⟩ := Prod.mk.inj (Except.ok.inj hout)
  exact ⟨a, s, h, htree, hwarnings, analyze_idempotent h⟩

end Osclan
