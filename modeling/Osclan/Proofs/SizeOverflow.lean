/-
  File:      Osclan/Proofs/SizeOverflow.lean
  Subject:   Where a size leaves the word.

  A size is summed up where a variable is made, where a store is checked and where a type is written
  in a message. A type that is too large is a composite, and a store from or to a composite is let
  through before any size is asked for. So only the variables of declarations and parameters count,
  and a parameter counts once: its procedure has made its variable before its body is walked.

  * `Check.Overflows` -- a step stops at a size, and its rules;
  * `Item.Reaches`, `Program.Reaches` -- the types of the variables that a run comes to;
  * `Item.overflows_iff` -- items;
  * **`overflow_iff_oversized`** -- programs.
-/
import Osclan.Proofs.ItemWalk

namespace Osclan

/-- The leaves of the type are too large together for a word. -/
def Ty.Oversized (t : Ty) : Prop := 2 ^ 64 ≤ t.leafSum

namespace Check

variable {α β : Type} {s : Analyzer}

/-! ## 1. Steps that stop at a size -/

/-- Started in `s`, the step stops at a size that leaves the word. -/
def Overflows (step : Check α) (s : Analyzer) : Prop := ∃ t, step s = .error .sizeOverflow t

theorem Runs.not_overflows {step : Check α} {post : α → Analyzer → Prop}
    {stop : Abort → Analyzer → Prop} (h : step.Runs s post stop)
    (hstop : ∀ t, ¬ stop .sizeOverflow t) : ¬ step.Overflows s := by
  intro ho
  obtain ⟨t, ht⟩ := ho
  exact hstop t (h.stop ht)

theorem Files.not_overflows {step : Check α} {closed : List Scope} (h : step.Files s closed) :
    ¬ step.Overflows s :=
  Runs.not_overflows h fun _ hstop => hstop.2 rfl

theorem pure_not_overflows (a : α) : ¬ (pure a : Check α).Overflows s :=
  (Files.pure a).not_overflows

theorem declare_not_overflows (f : ScopeStack → Except Redeclared ScopeStack) :
    ¬ (declare f).Overflows s := by
  have hruns : (declare f).Runs s _ fun e _ => e ≠ .sizeOverflow := .declare fun _ => nofun
  exact hruns.not_overflows fun _ hstop => hstop rfl

theorem assign_not_overflows (dest source : Ty) : ¬ (assign dest source).Overflows s := by
  have hruns : (assign dest source).Runs s _ fun e _ => e ≠ .sizeOverflow :=
    .assign fun _ _ => nofun
  exact hruns.not_overflows fun _ hstop => hstop rfl

/-- **Steps in sequence.** The first stops at a size, or it gives a result from which the second
    does. -/
theorem bind_overflows {x : Check β} {f : β → Check α} :
    (x >>= f).Overflows s ↔ x.Overflows s ∨ ∃ b t, x s = .ok b t ∧ (f b).Overflows t := by
  simp only [Overflows, bind_error]
  constructor
  · intro h
    obtain ⟨u, hx | ⟨b, t, hb, hf⟩⟩ := h
    · exact .inl ⟨u, hx⟩
    · exact .inr ⟨b, t, hb, u, hf⟩
  · intro h
    rcases h with ⟨u, hx⟩ | ⟨b, t, hb, u, hf⟩
    · exact ⟨u, .inl hx⟩
    · exact ⟨u, .inr ⟨b, t, hb, hf⟩⟩

theorem bind_overflows_of_never {x : Check β} {f : β → Check α} (hx : ¬ x.Overflows s) :
    (x >>= f).Overflows s ↔ ∃ b t, x s = .ok b t ∧ (f b).Overflows t :=
  bind_overflows.trans (or_iff_right hx)

theorem bind_overflows_last {x : Check β} {f : β → Check α} (hf : ∀ b t, ¬ (f b).Overflows t) :
    (x >>= f).Overflows s ↔ x.Overflows s := by
  refine bind_overflows.trans (or_iff_left fun h => ?_)
  obtain ⟨b, t, _, ho⟩ := h
  exact hf b t ho

theorem bind_scopes_overflows {f : ScopeStack → Check α} :
    (scopes >>= f).Overflows s ↔ (f s.scopes).Overflows s :=
  Iff.rfl

theorem bind_ofExcept_overflows {r : Except Fault β} {f : β → Check α} :
    (ofExcept r >>= f).Overflows s ↔ ∃ b, r = .ok b ∧ (f b).Overflows s := by
  cases r with
  | ok b =>
    constructor
    · intro h
      exact ⟨b, rfl, h⟩
    · intro h
      obtain ⟨_, hb, ho⟩ := h
      cases hb
      exact ho
  | error fault =>
    constructor
    · intro h
      obtain ⟨t, ht⟩ := h
      cases ht
    · intro h
      obtain ⟨_, hr, _⟩ := h
      cases hr

theorem makeVariable_overflows {name : String} {type : Ty} {pointer : Bool} :
    (makeVariable name type pointer).Overflows s ↔ type.Oversized := by
  have hnone : Variable.make? name type pointer = none ↔ type.Oversized := make?_eq_none_iff
  rw [← hnone, makeVariable]
  cases Variable.make? name type pointer with
  | some v => exact iff_of_false (pure_not_overflows v) (Option.some_ne_none v)
  | none => exact iff_of_true ⟨s, rfl⟩ rfl

theorem inScope_overflows {step : Check α} :
    (inScope step).Overflows s ↔ step.Overflows { s with scopes := s.scopes.push } := by
  simp only [Overflows, inScope_error]
  constructor
  · intro h
    obtain ⟨_, t, ht, _⟩ := h
    exact ⟨t, ht⟩
  · intro h
    obtain ⟨t, ht⟩ := h
    exact ⟨leave t, t, ht, rfl⟩

theorem inBodyOf_overflows {p : Procedure} {step : Check α} :
    (inBodyOf p step).Overflows s ↔ step.Overflows { s with procedure := some p } := by
  simp only [Overflows, inBodyOf_error]
  constructor
  · intro h
    obtain ⟨_, t, ht, _⟩ := h
    exact ⟨t, ht⟩
  · intro h
    obtain ⟨t, ht⟩ := h
    exact ⟨_, t, ht, rfl⟩

/-- **A loop stops at a size** in one of its steps, with the steps in front of it done. -/
theorem loop_overflows (loop : List α → Check (List β)) (step : α → Check β)
    (hnil : loop [] = pure [])
    (hcons : ∀ a as, loop (a :: as) = do
      let b ← step a
      return b :: (← loop as)) :
    ∀ (as : List α) {s : Analyzer}, (loop as).Overflows s ↔
      ∃ before a after bs t, as = before ++ a :: after ∧ loop before s = .ok bs t ∧
        (step a).Overflows t
  | [], s => by
    rw [hnil]
    refine iff_of_false (pure_not_overflows []) fun h => ?_
    obtain ⟨before, a, after, _, _, he, _⟩ := h
    exact absurd he.symm (by simp)
  | a :: as, s => by
    have ih := fun {s} => loop_overflows loop step hnil hcons as (s := s)
    have hrest : ∀ b t, (do return b :: (← loop as)).Overflows t ↔ (loop as).Overflows t :=
      fun b t => bind_overflows_last fun bs _ => pure_not_overflows (b :: bs)
    rw [hcons, bind_overflows]
    constructor
    · intro h
      rcases h with ho | ⟨b, t, hb, ho⟩
      · exact ⟨[], a, as, [], s, rfl, by rw [hnil]; rfl, ho⟩
      · obtain ⟨before, c, after, bs, u, rfl, hbs, hc⟩ := ih.mp ((hrest b t).mp ho)
        refine ⟨a :: before, c, after, b :: bs, u, rfl, ?_, hc⟩
        rw [hcons]
        exact bind_ok.mpr ⟨b, t, hb, bind_ok.mpr ⟨bs, u, hbs, rfl⟩⟩
    · intro h
      obtain ⟨before, c, after, bs, u, he, hbs, hc⟩ := h
      cases before with
      | nil =>
        cases he
        rw [hnil] at hbs
        obtain ⟨rfl, rfl⟩ := pure_ok.mp hbs
        exact .inl hc
      | cons b before =>
        cases he
        rw [hcons] at hbs
        obtain ⟨b, t, hb, hbs⟩ := bind_ok.mp hbs
        obtain ⟨rest, v, hdone, hlast⟩ := bind_ok.mp hbs
        obtain ⟨rfl, rfl⟩ := pure_ok.mp hlast
        exact .inr ⟨b, t, hb, (hrest b t).mpr (ih.mpr ⟨before, c, after, rest, v, rfl, hdone, hc⟩)⟩

end Check

section Walk

variable {s : Analyzer}

theorem visitAll_overflows {α : Type} (f : α → Node) (as : List α) :
    (visitAll (as.map f)).Overflows s ↔
      ∃ before a after ns t, as = before ++ a :: after ∧
        visitAll (before.map f) s = .ok ns t ∧ (visit (f a)).Overflows t := by
  have hnil : visitAll ([].map f) = pure [] := by
    rw [List.map_nil, visitAll]
  have hcons : ∀ a as, visitAll ((a :: as).map f) = do
      let n ← visit (f a)
      return n :: (← visitAll (as.map f)) := by
    intro a as
    rw [List.map_cons, visitAll]
  exact Check.loop_overflows (fun as => visitAll (as.map f)) (fun a => visit (f a)) hnil hcons as

theorem visitAll_append_overflows (ns ms : List Node) :
    (visitAll (ns ++ ms)).Overflows s ↔ (visitAll ns).Overflows s ∨
      ∃ ns' t, visitAll ns s = .ok ns' t ∧ (visitAll ms).Overflows t := by
  rw [visitAll_append, Check.bind_overflows]
  refine or_congr_right (exists_congr fun ns' => exists_congr fun t => and_congr_right fun _ => ?_)
  exact Check.bind_overflows_last fun ms' _ => Check.pure_not_overflows (ns' ++ ms')

theorem Node.Inert.not_overflows {n : Node} (h : n.Inert) (s : Analyzer) :
    ¬ (visit n).Overflows s :=
  (h.files s).not_overflows

/-! ## 2. Variables -/

/-- A leaf is a word, so starting with a literal makes no type too large, nor small enough. -/
theorem Ty.oversized_startingAt {t : Ty} (start : Option UInt64) :
    (t.startingAt start).Oversized ↔ t.Oversized := by
  cases hc : t.isComposite with
  | true =>
    have hsame : t.startingAt start = t := by
      cases start with
      | none => rfl
      | some length => simp [Ty.startingAt, hc]
    rw [hsame]
  | false =>
    have hleaf : (t.startingAt start).isComposite = false := by
      cases start with
      | none => exact hc
      | some length =>
        rw [Ty.startingAt]
        split
        · exact hc
        · exact hc
    refine iff_of_false (fun ho => ?_) fun ho => ?_
    · rw [isComposite_of_oversized ho] at hleaf
      cases hleaf
    · rw [isComposite_of_oversized ho] at hc
      cases hc

/-- A composite takes any literal. -/
theorem assignLiteral_of_composite {dest : Ty} (h : dest.isComposite = true) (pointer : Bool)
    (literal : Option Ty) : Check.assignLiteral dest pointer literal = pure () := by
  cases literal with
  | none => rfl
  | some source =>
    have hfits : dest.accepts source = .fits := by
      by_contra hne
      rw [(Check.elementary_of_not_fits hne).1] at h
      cases h
    rw [Check.assignLiteral, Check.assign_of_fits hfits, ite_self]

/-- The last steps of a declaration. -/
theorem makeVariable_declare_overflows {name : String} {type : Ty} {pointer : Bool} :
    (do
      let v ← Check.makeVariable name type pointer
      Check.declare (·.declareVariable v)).Overflows s ↔ type.Oversized :=
  (Check.bind_overflows_last fun _ _ => Check.declare_not_overflows _).trans
    Check.makeVariable_overflows

/-- **A parameter stops at a size** if its type is known and too large. -/
theorem declareTyped_overflows {l : Label} {type : TypeExpr} :
    (declareTyped (l.typedAs type.label)).Overflows s ↔
      ∃ t, resolveType s.scopes type.name type.size = .ok t ∧ t.Oversized := by
  unfold declareTyped
  rw [Check.bind_scopes_overflows, Check.bind_ofExcept_overflows]
  exact exists_congr fun t => and_congr_right fun _ => makeVariable_declare_overflows

/-- **A declaration stops at a size** if its type is known and too large, whatever it starts with. -/
theorem declareWith_overflows {l : Label} {type : TypeExpr} (literal : Option Ty) :
    (declareWith (l.typedAs type.label) literal).Overflows s ↔
      ∃ t, resolveType s.scopes type.name type.size = .ok t ∧ t.Oversized := by
  have hstore : ∀ t t' : Ty, t' = t.startingAt (literal.map Ty.size) → ∀ pointer,
      (do
        Check.assignLiteral t' pointer literal
        let v ← Check.makeVariable (l.typedAs type.label).value t' pointer
        Check.declare (·.declareVariable v)).Overflows s ↔ t.Oversized := by
    intro t t' ht pointer
    rw [← Ty.oversized_startingAt (literal.map Ty.size), ← ht,
      Check.bind_overflows_of_never (Check.Files.assignLiteral t' pointer literal).not_overflows]
    constructor
    · intro h
      obtain ⟨_, u, _, ho⟩ := h
      exact makeVariable_declare_overflows.mp ho
    · intro ho
      rw [assignLiteral_of_composite (isComposite_of_oversized ho)]
      exact ⟨(), s, rfl, makeVariable_declare_overflows.mpr ho⟩
  unfold declareWith
  rw [Check.bind_scopes_overflows, Check.bind_ofExcept_overflows]
  refine exists_congr fun t => and_congr_right fun _ => hstore t _ ?_ _
  cases literal <;> rfl

/-! ## 3. Declarations and parameters -/

/-- In `s`, a declaration comes to a variable of the type `t`: the walk over its value gives a
    result, and behind it the written type is known. -/
def Analyzer.ComesTo (s : Analyzer) (type : TypeExpr) (value : Value) (t : Ty) : Prop :=
  ∃ n u, visit value.toNode s = .ok n u ∧ resolveType u.scopes type.name type.size = .ok t

theorem declarationNode_overflows (type : TypeExpr) (name : String) (value : Value)
    {mods : List Node} (hm : ∀ m ∈ mods, m.IsModifier) :
    (visit ⟨(declarationNode type name value).label,
      (declarationNode type name value).children ++ mods⟩).Overflows s ↔
      ∃ t, s.ComesTo type value t ∧ t.Oversized := by
  rw [visit_declarationNode hm, Check.bind_overflows_of_never (value.inert.not_overflows s)]
  constructor
  · intro h
    obtain ⟨n, u, hn, ho⟩ := h
    rw [Check.bind_overflows_last fun _ _ => Check.pure_not_overflows _] at ho
    obtain ⟨t, ht, hsize⟩ := (declareWith_overflows _).mp ho
    exact ⟨t, ⟨n, u, hn, ht⟩, hsize⟩
  · intro h
    obtain ⟨t, ⟨n, u, hn, ht⟩, hsize⟩ := h
    refine ⟨n, u, hn, ?_⟩
    rw [Check.bind_overflows_last fun _ _ => Check.pure_not_overflows _]
    exact (declareWith_overflows _).mpr ⟨t, ht, hsize⟩

/-- **A statement stops at a size** only as a declaration. -/
theorem Statement.overflows_iff (st : Statement) :
    (visit st.toNode).Overflows s ↔
      ∃ type name value t, st = .declare type name value ∧ s.ComesTo type value t ∧
        t.Oversized := by
  by_cases hk : st.toNode.kind = .declaration
  · cases st with
    | declare type name value =>
      have h := declarationNode_overflows (s := s) type name value (List.forall_mem_nil _)
      rw [List.append_nil] at h
      refine h.trans ⟨fun ht => ?_, fun ht => ?_⟩
      · obtain ⟨t, ht⟩ := ht
        exact ⟨type, name, value, t, rfl, ht⟩
      · obtain ⟨_, _, _, t, he, ht⟩ := ht
        cases he
        exact ⟨t, ht⟩
    | assign target value => cases hk
    | ret value => cases hk
    | print value => cases hk
    | call name args => cases hk
  · refine iff_of_false ((st.inert hk).not_overflows s) fun h => ?_
    obtain ⟨_, _, _, _, rfl, _⟩ := h
    exact hk rfl

theorem Param.overflows_iff (q : Param) :
    (visit q.toNode).Overflows s ↔
      ∃ t, resolveType s.scopes q.type.name q.type.size = .ok t ∧ t.Oversized := by
  unfold Param.toNode visit
  exact (Check.bind_overflows_last fun _ _ => Check.pure_not_overflows _).trans
    declareTyped_overflows

/-- The parameters of a heading stop at the size of one of them, with those in front made. -/
theorem paramVariables_overflows (st : ScopeStack) (params : List Param) :
    (paramVariables st (params.map Param.toNode)).Overflows s ↔
      ∃ before q after vs u, params = before ++ q :: after ∧
        paramVariables st (before.map Param.toNode) s = .ok vs u ∧
        ∃ t, resolveType st q.type.name q.type.size = .ok t ∧ t.Oversized := by
  have hnil : paramVariables st ([].map Param.toNode) = pure [] := rfl
  have hcons : ∀ (q : Param) (rest : List Param),
      paramVariables st ((q :: rest).map Param.toNode) =
        (Check.ofExcept (declaredType st q.toNode.label) >>= fun type =>
          Check.makeVariable q.toNode.value type q.toNode.label.pointer) >>= fun v =>
            return v :: (← paramVariables st (rest.map Param.toNode)) := by
    intro q rest
    rw [List.map_cons, paramVariables, bind_assoc]
  rw [Check.loop_overflows (fun params => paramVariables st (params.map Param.toNode)) _ hnil hcons]
  refine exists_congr fun before => exists_congr fun q => exists_congr fun after =>
    exists_congr fun vs => exists_congr fun u => and_congr_right fun _ => and_congr_right fun _ => ?_
  rw [Check.bind_ofExcept_overflows]
  exact exists_congr fun t => and_congr_right fun _ => Check.makeVariable_overflows

/-- Parameters that are made have types that fit. -/
theorem paramVariables_fit {st : ScopeStack} : ∀ {params : List Param} {s u : Analyzer}
    {vs : List Variable}, paramVariables st (params.map Param.toNode) s = .ok vs u →
    ∀ q ∈ params, ∃ t, resolveType st q.type.name q.type.size = .ok t ∧ ¬ t.Oversized
  | [], _, _, _, _ => List.forall_mem_nil _
  | q :: rest, s, u, vs, h => by
    rw [List.map_cons, paramVariables] at h
    obtain ⟨t, w, hresolve, h⟩ := Check.bind_ok.mp h
    obtain ⟨ht, rfl⟩ := Check.ofExcept_ok.mp hresolve
    obtain ⟨v, w, hmake, h⟩ := Check.bind_ok.mp h
    obtain ⟨hv, rfl⟩ := Check.makeVariable_ok.mp hmake
    obtain ⟨vs, w, hvs, _⟩ := Check.bind_ok.mp h
    refine List.forall_mem_cons.mpr ⟨⟨t, ht, fun ho => ?_⟩, paramVariables_fit hvs⟩
    rw [make?_eq_none_iff.mpr ho] at hv
    cases hv

/-! ## 4. Procedures -/

section Procedures

variable {returns : TypeExpr} {name : String} {params : List Param} {body : List Statement}
  {mods : List String} {root : Scope} {vars : Table Variable}

theorem procedureOf_overflows {l : Label} :
    (procedureOf l (procedureNodes returns params body mods)).Overflows s ↔
      (∃ r, resultType s.scopes l (procedureNodes returns params body mods) = .ok r) ∧
        (paramVariables s.scopes (params.map Param.toNode)).Overflows s := by
  unfold procedureOf
  rw [filter_procedureNodes, Check.bind_scopes_overflows, Check.bind_ofExcept_overflows,
    ← exists_and_right]
  refine exists_congr fun r => and_congr_right fun _ => Check.bind_overflows_last fun vs t => ?_
  split
  · exact (Check.Files.bind_last (.refuse _) fun _ _ => .pure _ : Check.Files _ t []).not_overflows
  · exact Check.pure_not_overflows _

theorem procedureOf_params {l : Label} {q : Procedure} {u : Analyzer}
    (h : procedureOf l (procedureNodes returns params body mods) s = .ok q u) :
    ∀ q ∈ params, ∃ t, resolveType s.scopes q.type.name q.type.size = .ok t ∧ ¬ t.Oversized := by
  unfold procedureOf at h
  rw [filter_procedureNodes] at h
  obtain ⟨st, w, hst, h⟩ := Check.bind_ok.mp h
  obtain ⟨rfl, rfl⟩ := Check.scopes_ok.mp hst
  obtain ⟨r, w, hr, h⟩ := Check.bind_ok.mp h
  obtain ⟨vs, w, hvs, _⟩ := Check.bind_ok.mp h
  exact paramVariables_fit hvs

/-- The parameters are declared in the body without another stop, since they have been made. -/
theorem headingNodes_not_overflows {st : ScopeStack} (hs : s.scopes = .inBody root vars)
    (hst : st.TypedBy root.types)
    (hfit : ∀ q ∈ params, ∃ t, resolveType st q.type.name q.type.size = .ok t ∧ ¬ t.Oversized) :
    ¬ (visitAll (returns.toNode :: params.map Param.toNode)).Overflows s := by
  intro h
  rw [visitAll, Check.bind_overflows_of_never (returns.inert.not_overflows s)] at h
  obtain ⟨n, t, hn, h⟩ := h
  rw [Check.bind_overflows_last fun _ _ => Check.pure_not_overflows _] at h
  have ht : t.scopes = .inBody root vars := ((returns.inert.files s).ok hn).1.trans hs
  obtain ⟨before, q, after, ns, u, rfl, hbefore, ho⟩ := (visitAll_overflows _ params).mp h
  obtain ⟨vs, _, hu, _⟩ := (visitAll_fills
    (List.forall_mem_map.mpr fun (p : Param) (_ : p ∈ before) => p.inBody) ht).ok hbefore
  obtain ⟨ty, hty, hsize⟩ := q.overflows_iff.mp ho
  obtain ⟨ty', hty', hsize'⟩ := hfit q (by simp)
  have hsame : u.scopes.lookupType? = st.lookupType? := by
    rw [hu]
    exact funext fun x => (ScopeStack.inBody_typedBy x).trans (hst x).symm
  rw [resolveType_congr hsame, hty'] at hty
  cases hty
  exact hsize' hsize

/-- **A body stops at a size** in one of its declarations. -/
theorem procedureNodes_overflows {st : ScopeStack} (hs : s.scopes = .inBody root vars)
    (hst : st.TypedBy root.types)
    (hfit : ∀ q ∈ params, ∃ t, resolveType st q.type.name q.type.size = .ok t ∧ ¬ t.Oversized) :
    (visitAll (procedureNodes returns params body mods)).Overflows s ↔
      ∃ before type name value after ns u t, body = before ++ .declare type name value :: after ∧
        visitAll (returns.toNode :: (params.map Param.toNode ++ before.map Statement.toNode)) s =
          .ok ns u ∧
        u.ComesTo type value t ∧ t.Oversized := by
  have hmods : ∀ t, ¬ (visitAll (mods.map modifierNode)).Overflows t := fun t =>
    (visitAll_files (modifierNodes_inert mods) t).not_overflows
  rw [procedureNodes, visitAll_append_overflows, or_iff_left fun h => ?_, ← List.cons_append,
    visitAll_append_overflows, or_iff_right (headingNodes_not_overflows hs hst hfit)]
  · constructor
    · intro h
      obtain ⟨ns, t, hns, h⟩ := h
      obtain ⟨before, st, after, ms, u, rfl, hms, ho⟩ := (visitAll_overflows _ body).mp h
      obtain ⟨type, name, value, ty, rfl, hty⟩ := st.overflows_iff.mp ho
      refine ⟨before, type, name, value, after, ns ++ ms, u, ty, rfl, ?_, hty⟩
      rw [← List.cons_append, visitAll_append]
      exact Check.bind_ok.mpr ⟨ns, t, hns, Check.bind_ok.mpr ⟨ms, u, hms, rfl⟩⟩
    · intro h
      obtain ⟨before, type, name, value, after, ns, u, ty, rfl, hns, hty⟩ := h
      rw [← List.cons_append, visitAll_append] at hns
      obtain ⟨ns', t, hns', hns⟩ := Check.bind_ok.mp hns
      obtain ⟨ms, w, hms, hlast⟩ := Check.bind_ok.mp hns
      obtain ⟨rfl, rfl⟩ := Check.pure_ok.mp hlast
      refine ⟨ns', t, hns', (visitAll_overflows _ _).mpr ⟨before, _, after, ms, w, rfl, hms, ?_⟩⟩
      exact (Statement.overflows_iff _).mpr ⟨type, name, value, ty, rfl, hty⟩
  · obtain ⟨_, t, _, ho⟩ := h
    exact hmods t ho

end Procedures

/-! ## 5. Items and programs -/

/-- Started in `s`, the walk over an item comes to a variable of the type `t`: that of the item
    itself, of a parameter behind the types and parameters in front of it, or of a declaration in a
    body behind all that is in front of it. -/
inductive Item.Reaches (s : Analyzer) : Item → Ty → Prop where
  | «global» {mods : List String} {type : TypeExpr} {name : String} {value : Value} {t : Ty} :
      s.ComesTo type value t → Reaches s (.declaration mods (.global type name value)) t
  | param {mods : List String} {returns : TypeExpr} {name : String} {before after : List Param}
      {q : Param} {body : List Statement} {r : Option Ty} {vs : List Variable} {u : Analyzer}
      {t : Ty} :
      resultType s.scopes.push { kind := .procedure, value := name }
        (procedureNodes returns (before ++ q :: after) body mods) = .ok r →
      paramVariables s.scopes.push (before.map Param.toNode)
        { s with scopes := s.scopes.push } = .ok vs u →
      resolveType s.scopes.push q.type.name q.type.size = .ok t →
      Reaches s (.declaration mods (.procedure returns name (before ++ q :: after) body)) t
  | «local» {mods : List String} {returns : TypeExpr} {name : String} {params : List Param}
      {before after : List Statement} {type : TypeExpr} {var : String} {value : Value}
      {q : Procedure} {u v w : Analyzer} {ns : List Node} {t : Ty} :
      procedureOf { kind := .procedure, value := name }
        (procedureNodes returns params (before ++ .declare type var value :: after) mods)
        { s with scopes := s.scopes.push } = .ok q u →
      Check.declare (·.declareProcedure q) u = .ok () v →
      visitAll (returns.toNode :: (params.map Param.toNode ++ before.map Statement.toNode))
        { v with procedure := some q } = .ok ns w →
      w.ComesTo type value t →
      Reaches s (.declaration mods (.procedure returns name params
        (before ++ .declare type var value :: after))) t

/-- A run over the program from the start comes to a variable of the type `t`, with the items in
    front done. -/
def Program.Reaches (p : Program) (t : Ty) : Prop :=
  ∃ before item after ns s, p.items = before ++ item :: after ∧
    visitAll (before.map Item.toNode) .fresh = .ok ns s ∧ item.Reaches s t

/-- **Records are never sized.** -/
theorem record_not_overflows (mods : List String) (name : String) (fields : List Field)
    (s : Analyzer) :
    ¬ (visit (Item.declaration mods (.record name fields)).toNode).Overflows s := by
  have hinert : ∀ n ∈ Field.toNodes name fields ++ mods.map modifierNode, n.Inert :=
    List.forall_mem_append.mpr ⟨Field.inertAll name fields, modifierNodes_inert mods⟩
  have hdeclare : ∀ n t, ¬ (declareRecord n).Overflows t := by
    intro n t
    unfold declareRecord
    split
    · exact Check.pure_not_overflows ()
    · rw [Check.bind_scopes_overflows, Check.bind_ofExcept_overflows]
      intro h
      obtain ⟨ty, _, ho⟩ := h
      exact Check.declare_not_overflows _ ho
  have hvisit : visit (Item.declaration mods (.record name fields)).toNode = Check.inScope do
      let children ← visitAll (Field.toNodes name fields ++ mods.map modifierNode)
      declareRecord ⟨{ kind := .record, value := name }, children⟩
      return ⟨{ kind := .record, value := name }, children⟩ := by
    show visit ⟨{ kind := .record, value := name }, Field.toNodes name fields ++
      mods.map modifierNode⟩ = _
    unfold visit
    rfl
  rw [hvisit, Check.inScope_overflows,
    Check.bind_overflows_of_never (visitAll_files hinert _).not_overflows]
  intro h
  obtain ⟨ns, t, _, ho⟩ := h
  rw [Check.bind_overflows_last fun _ _ => Check.pure_not_overflows _] at ho
  exact hdeclare _ t ho

/-- **A procedure stops at a size** in its heading or in its body. -/
theorem procedure_overflows {returns : TypeExpr} {name : String} {params : List Param}
    {body : List Statement} {mods : List String} {root : Scope} (hs : s.scopes = ⟨root, []⟩)
    (hdepth : root.depth = 0) :
    (visit (Item.declaration mods (.procedure returns name params body)).toNode).Overflows s ↔
      ∃ t, (Item.declaration mods (.procedure returns name params body)).Reaches s t ∧
        t.Oversized := by
  have hpush := ScopeStack.push_root hs hdepth
  have hvisit : visit (Item.declaration mods (.procedure returns name params body)).toNode =
      Check.inScope do
        let q ← procedureOf { kind := .procedure, value := name }
          (procedureNodes returns params body mods)
        Check.declare (·.declareProcedure q)
        return ⟨{ kind := .procedure, value := name },
          ← Check.inBodyOf q (visitAll (procedureNodes returns params body mods))⟩ := by
    show visit ⟨{ kind := .procedure, value := name }, procedureNodes returns params body mods⟩ = _
    unfold visit
    rfl
  -- behind its heading and its declaration, the body is walked in a scope of its own
  have hbody : ∀ {q : Procedure} {u v : Analyzer},
      procedureOf { kind := .procedure, value := name } (procedureNodes returns params body mods)
        { s with scopes := s.scopes.push } = .ok q u →
      Check.declare (·.declareProcedure q) u = .ok () v →
      ((visitAll (procedureNodes returns params body mods)).Overflows
          { v with procedure := some q } ↔
        ∃ before type name value after ns w t, body = before ++ .declare type name value :: after ∧
          visitAll (returns.toNode :: (params.map Param.toNode ++ before.map Statement.toNode))
            { v with procedure := some q } = .ok ns w ∧
          w.ComesTo type value t ∧ t.Oversized) := by
    intro q u v hq hv
    have hfit := procedureOf_params hq
    rw [hpush] at hq hfit
    obtain ⟨_, rfl⟩ := (procedureOf_runs ScopeStack.inBody_typedBy).ok hq
    obtain ⟨st, hst, rfl⟩ := Check.declare_ok.mp hv
    have htyped : (ScopeStack.inBody root []).TypedBy root.types := ScopeStack.inBody_typedBy
    exact procedureNodes_overflows (ScopeStack.declareProcedure_inBody hst) htyped hfit
  rw [hvisit, Check.inScope_overflows, Check.bind_overflows]
  constructor
  · intro h
    rcases h with h | ⟨q, u, hq, h⟩
    · obtain ⟨⟨r, hr⟩, h⟩ := procedureOf_overflows.mp h
      obtain ⟨before, p, after, vs, v, rfl, hvs, t, ht, hsize⟩ :=
        (paramVariables_overflows _ _).mp h
      exact ⟨t, .param hr hvs ht, hsize⟩
    · rw [Check.bind_overflows_of_never (Check.declare_not_overflows _)] at h
      obtain ⟨_, v, hv, h⟩ := h
      rw [Check.bind_overflows_last fun _ _ => Check.pure_not_overflows _,
        Check.inBodyOf_overflows, hbody hq hv] at h
      obtain ⟨before, type, var, value, after, ns, w, t, rfl, hns, ht, hsize⟩ := h
      exact ⟨t, .local hq hv hns ht, hsize⟩
  · intro h
    obtain ⟨t, h, hsize⟩ := h
    cases h with
    | param hr hvs ht =>
      refine .inl (procedureOf_overflows.mpr ⟨⟨_, hr⟩, ?_⟩)
      exact (paramVariables_overflows _ _).mpr ⟨_, _, _, _, _, rfl, hvs, t, ht, hsize⟩
    | «local» hq hv hns ht =>
      refine .inr ⟨_, _, hq, ?_⟩
      rw [Check.bind_overflows_of_never (Check.declare_not_overflows _)]
      refine ⟨(), _, hv, ?_⟩
      rw [Check.bind_overflows_last fun _ _ => Check.pure_not_overflows _,
        Check.inBodyOf_overflows, hbody hq hv]
      exact ⟨_, _, _, _, _, _, _, t, rfl, hns, ht, hsize⟩

/-- **An item stops at a size** if the walk over it comes to a variable that is too large. -/
theorem Item.overflows_iff (item : Item) {root : Scope} (hs : s.scopes = ⟨root, []⟩)
    (hdepth : root.depth = 0) :
    (visit item.toNode).Overflows s ↔ ∃ t, item.Reaches s t ∧ t.Oversized := by
  cases item with
  | directive name argument =>
    refine iff_of_false ((directive_inert name argument).not_overflows s) fun h => ?_
    obtain ⟨_, h, _⟩ := h
    cases h
  | declaration mods declared =>
    cases declared with
    | record name fields =>
      refine iff_of_false (record_not_overflows mods name fields s) fun h => ?_
      obtain ⟨_, h, _⟩ := h
      cases h
    | procedure returns name params body => exact procedure_overflows hs hdepth
    | «global» type name value =>
      refine (declarationNode_overflows type name value (modifierNode_isModifier mods)).trans ?_
      refine exists_congr fun t => and_congr_left fun _ => ⟨.global, fun h => ?_⟩
      cases h with
      | «global» ht => exact ht

end Walk

/-- **Only variables that are too large stop a run at a size.** A run over a program from the start
    stops at a size exactly if, with all that is in front of it done, it comes to a declaration or a
    parameter whose type is known and has leaves of 2 ^ 64 or more together. From no state does the
    walk over a record, over a value, such as an allocation, or over a return stop at a size, nor any
    store, with its warnings and refusals. And no stack of scopes is empty: its first scope is the
    root, and its last the innermost one. -/
theorem overflow_iff_oversized (p : Program) :
    ((∃ s, Check.analyze p.toNode .fresh = .error .sizeOverflow s) ↔
      ∃ t, p.Reaches t ∧ 2 ^ 64 ≤ t.leafSum) ∧
    (∀ mods name fields s,
      ¬ (visit (Item.declaration mods (.record name fields)).toNode).Overflows s) ∧
    (∀ (value : Value) s, ¬ (visit value.toNode).Overflows s) ∧
    (∀ value s, ¬ (visit (Statement.ret value).toNode).Overflows s) ∧
    (∀ dest source s, ¬ (Check.assign dest source).Overflows s) ∧
    ∀ st : ScopeStack, st.scopes.length = st.size ∧ 0 < st.size ∧
      st.scopes.reverse[0]? = some st.root ∧ st.scopes.reverse[st.size - 1]? = some st.innermost := by
  refine ⟨?_, record_not_overflows, fun value s => value.inert.not_overflows s, ?_,
    fun dest source s => Check.assign_not_overflows dest source, ?_⟩
  · have hrun : (Check.analyze p.toNode).Overflows .fresh ↔
        (visitAll (p.items.map Item.toNode)).Overflows .fresh := by
      unfold Check.analyze Program.toNode visit
      rw [Check.bind_overflows_last fun _ _ h => ?_,
        Check.bind_overflows_last fun _ _ => Check.pure_not_overflows _]
      obtain ⟨_, h⟩ := h
      cases h
    refine hrun.trans ((visitAll_overflows _ p.items).trans ?_)
    have hitem : ∀ {before : List Item} {ns : List Node} {s : Analyzer} (item : Item),
        visitAll (before.map Item.toNode) .fresh = .ok ns s →
        ((visit item.toNode).Overflows s ↔ ∃ t, item.Reaches s t ∧ t.Oversized) := by
      intro before ns s item h
      obtain ⟨root, _, hscopes, hall, _⟩ := (Item.runsAll before rfl rfl).ok h
      exact item.overflows_iff hscopes hall.depth
    constructor
    · intro h
      obtain ⟨before, item, after, ns, s, he, hns, ho⟩ := h
      obtain ⟨t, ht, hsize⟩ := (hitem item hns).mp ho
      exact ⟨t, ⟨before, item, after, ns, s, he, hns, ht⟩, hsize⟩
    · intro h
      obtain ⟨t, ⟨before, item, after, ns, s, he, hns, ht⟩, hsize⟩ := h
      exact ⟨before, item, after, ns, s, he, hns, (hitem item hns).mpr ⟨t, ht, hsize⟩⟩
  · intro value s
    exact ((Statement.ret value).inert nofun).not_overflows s
  · intro st
    obtain ⟨root, inner⟩ := st
    refine ⟨List.length_append, Nat.succ_pos _, ?_, ?_⟩
    · simp [ScopeStack.scopes]
    · cases inner with
      | nil => rfl
      | cons sc rest => simp [ScopeStack.scopes, ScopeStack.size, ScopeStack.innermost]

/-- The fields of the record `struct P [int(18446744073709551615)] a [int(1)] b end`. -/
def hugeFields : List Field :=
  [.plain ⟨"int", some 18446744073709551615, false⟩ "a", .plain ⟨"int", some 1, false⟩ "b"]

/-- The type of the record, whose leaf sum is the first number above the words. -/
def hugeType : Ty :=
  ⟨"P", 0, [("_O1a", ⟨"int", 18446744073709551615, []⟩), ("_O1b", ⟨"int", 1, []⟩)]⟩

/-- The record, and a variable of its type. -/
def hugeSample : Program :=
  ⟨[.declaration [] (.record "P" hugeFields),
    .declaration [] (.global ⟨"P", none, false⟩ "v" (.number "1"))]⟩

/-- The record is declared, and the variable stops the run. -/
theorem overflow_iff_oversized_of_sample :
    ∃ s, Check.analyze hugeSample.toNode .fresh = .error .sizeOverflow s := by
  have htype : recordType (.inBody ScopeStack.fresh.root []) ⟨{ kind := .record, value := "P" },
      Field.toNodes "P" hugeFields⟩ = .ok hugeType := by
    have ha : Name.mangle "a" = "_O1a" := by cbv
    have hb : Name.mangle "b" = "_O1b" := by cbv
    have hint : (ScopeStack.inBody ScopeStack.fresh.root []).lookupType? "int" =
        some ⟨"int", 0, []⟩ := by cbv
    simp only [hugeFields, Field.toNodes, Field.toNode, recordType, recordFields]
    simp [fieldType, TypeExpr.toNode, TypeExpr.label, resolveType, hint, addField, ha, hb,
      Table.contains, Table.find?, Table.insert, Node.kind, Node.value, bind, Except.bind, pure,
      Except.pure, List.lookup, hugeType]
  obtain ⟨u, hu, hscopes⟩ := record_accepted (s := .fresh) rfl rfl (by decide) htype (by cbv)
  have hrecord : visitAll ([Item.declaration [] (.record "P" hugeFields)].map Item.toNode) .fresh =
      .ok [(Item.declaration [] (.record "P" hugeFields)).toNode] u := by
    unfold List.map visitAll List.map visitAll
    exact Check.bind_ok.mpr ⟨_, u, hu, rfl⟩
  have hvalue : visit (Value.number "1").toNode u = .ok (Value.number "1").toNode u := by
    unfold Value.toNode visit
    rfl
  have hresolve : resolveType u.scopes "P" none = .ok hugeType := by
    rw [hscopes]
    cbv
  have hreaches : (Item.declaration [] (.global ⟨"P", none, false⟩ "v" (.number "1"))).Reaches u
      hugeType := .global ⟨_, u, hvalue, hresolve⟩
  have hsize : 2 ^ 64 ≤ hugeType.leafSum := by decide
  exact (overflow_iff_oversized hugeSample).1.mpr
    ⟨hugeType, ⟨_, _, [], _, u, rfl, hrecord, hreaches⟩, hsize⟩

end Osclan
