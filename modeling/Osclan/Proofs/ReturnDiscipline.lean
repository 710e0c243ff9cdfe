/-
  File:      Osclan/Proofs/ReturnDiscipline.lean
  Subject:   The returns of the procedures of an accepted source.

  The rules for returns are checked in two places. That nothing follows a return is seen before the
  body is walked, from the statements among the children of the procedure. That a return has a value
  exactly if the procedure has a result is seen at the return itself. Nothing is seen where there is
  no return, so a procedure with a result may end without one.

  * `hasUnreachable_of_append` -- what the first check says of a body;
  * `checkReturn_ok`, `visit_return` -- what the second says of a return;
  * `ReturnDiscipline` -- the rules, with a return at the end of each procedure that has a result;
  * `accepted_returns` -- the rules hold of an accepted procedure unless it has a result and no
    return at all;
  * `result_without_return` -- an accepted procedure of this kind.
-/
import Osclan.Proofs.ItemWalk

namespace Osclan

/-! ## 1. Statements behind a return -/

/-- The statement is a return, with a value or without one. -/
def Statement.isReturn : Statement → Bool
  | .ret _ => true
  | _ => false

theorem hasUnreachable_cons {n : Node} {rest : List Node} (hk : n.kind ≠ .ret) :
    hasUnreachable (n :: rest) = hasUnreachable rest := by
  unfold hasUnreachable
  rw [List.dropWhile_cons_of_pos (by simp [hk])]

theorem hasUnreachable_return {n : Node} {rest : List Node} (hk : n.kind = .ret) :
    hasUnreachable (n :: rest) = !rest.isEmpty := by
  unfold hasUnreachable
  rw [List.dropWhile_cons_of_neg (by simp [hk])]

/-- **Nothing follows a return**, neither the first nor a later one. -/
theorem hasUnreachable_of_append {before after : List Node} {n : Node} (hk : n.kind = .ret)
    (h : hasUnreachable (before ++ n :: after) = false) : after = [] := by
  induction before with
  | nil =>
    rw [List.nil_append, hasUnreachable_return hk, Bool.not_eq_false'] at h
    exact List.isEmpty_iff.mp h
  | cons m before ih =>
    rw [List.cons_append] at h
    by_cases hm : m.kind = .ret
    · rw [hasUnreachable_return hm, Bool.not_eq_false'] at h
      have hrest := List.append_eq_nil_iff.mp (List.isEmpty_iff.mp h)
      exact absurd hrest.2 (List.cons_ne_nil _ _)
    · rw [hasUnreachable_cons hm] at h
      exact ih h

/-- The statements among the nodes below a procedure are those of its body. -/
theorem statements_procedureNodes (returns : TypeExpr) (params : List Param)
    (body : List Statement) (mods : List String) :
    statements (procedureNodes returns params body mods) = body.map Statement.toNode := by
  have hparams : statements (params.map Param.toNode) = [] :=
    List.filter_eq_nil_iff.mpr (List.forall_mem_map.mpr fun _ _ => Bool.false_ne_true)
  have hbody : statements (body.map Statement.toNode) = body.map Statement.toNode := by
    refine List.filter_eq_self.mpr (List.forall_mem_map.mpr fun st _ => ?_)
    cases st <;> rfl
  have hmods : statements (mods.map modifierNode) = [] :=
    List.filter_eq_nil_iff.mpr (List.forall_mem_map.mpr fun _ _ => Bool.false_ne_true)
  unfold statements at hparams hbody hmods ⊢
  rw [procedureNodes, List.cons_append, List.filter_cons_of_neg Bool.false_ne_true,
    List.filter_append, List.filter_append, hparams, hbody, hmods, List.append_nil, List.nil_append]

/-- A return behind which nothing follows is the only one. -/
theorem length_returns_le_one {body : List Statement}
    (h : ∀ before v after, body = before ++ .ret v :: after → after = []) :
    (body.filter Statement.isReturn).length ≤ 1 := by
  induction body with
  | nil => exact Nat.zero_le 1
  | cons st rest ih =>
    have hrest : ∀ before v after, rest = before ++ .ret v :: after → after = [] := by
      intro before v after e
      exact h (st :: before) v after (by rw [e, List.cons_append])
    cases hst : st.isReturn with
    | false =>
      rw [List.filter_cons_of_neg (by simp [hst])]
      exact ih hrest
    | true =>
      cases st with
      | ret v =>
        rw [h [] v rest rfl]
        exact Nat.le_refl 1
      | _ => cases hst

/-! ## 2. The value of a return -/

/-- **A return is taken exactly if** it has a value where the procedure has a result. -/
theorem checkReturn_ok {value : Option Node} {s s' : Analyzer} {p : Procedure} {u : Unit}
    (hp : s.procedure = some p) (h : checkReturn value s = .ok u s') :
    value.isSome = p.returns.isSome := by
  unfold checkReturn at h
  obtain ⟨t, _, hget, h⟩ := Check.bind_ok.mp h
  obtain ⟨rfl, rfl⟩ := Check.get_ok.mp hget
  simp only [hp] at h
  cases hr : p.returns with
  | none =>
    cases value with
    | none => rfl
    | some v =>
      simp only [hr] at h
      exact absurd h Check.refuse_ok
  | some dest =>
    cases value with
    | none =>
      simp only [hr] at h
      exact absurd h Check.refuse_ok
    | some v => rfl

theorem visit_return {value : Option Value} {s s' : Analyzer} {n : Node} {p : Procedure}
    (hp : s.procedure = some p) (h : visit (Statement.ret value).toNode s = .ok n s') :
    value.isSome = p.returns.isSome := by
  unfold Statement.toNode visit at h
  simp only [Check.bind_ok] at h
  obtain ⟨ns, t, hv, _, _, hreturn, _⟩ := h
  cases value with
  | none =>
    unfold visitAll at hv
    obtain ⟨rfl, rfl⟩ := Check.pure_ok.mp hv
    exact checkReturn_ok hp hreturn
  | some v =>
    simp only [Option.map_some, Option.toList_some] at hv
    unfold visitAll visitAll at hv
    simp only [Check.bind_ok, Check.pure_ok] at hv
    obtain ⟨n', _, hn, _, _, ⟨rfl, rfl⟩, rfl, rfl⟩ := hv
    exact checkReturn_ok ((visit_procedure_kept hn).trans hp) hreturn

/-! ## 3. Procedures -/

/-- **Each of the nodes is visited**, in the procedure that the walk began in. -/
theorem visit_of_mem {ns ns' : List Node} {s s' : Analyzer} (h : visitAll ns s = .ok ns' s')
    {n : Node} (hn : n ∈ ns) :
    ∃ t n' u, visit n t = .ok n' u ∧ t.procedure = s.procedure := by
  induction ns generalizing ns' s s' with
  | nil => exact absurd hn List.not_mem_nil
  | cons first rest ih =>
    unfold visitAll at h
    simp only [Check.bind_ok] at h
    obtain ⟨first', t, hfirst, rest', u, hrest, _⟩ := h
    rcases List.mem_cons.mp hn with rfl | hmem
    · exact ⟨s, first', t, hfirst, rfl⟩
    · obtain ⟨t', n', u', hvisit, hprocedure⟩ := ih hrest hmem
      exact ⟨t', n', u', hvisit, hprocedure.trans (visit_procedure_kept hfirst)⟩

/-- What a procedure returns, and that nothing follows a return in it. -/
theorem procedureOf_ok {l : Label} {children : List Node} {s s' : Analyzer} {p : Procedure}
    (h : procedureOf l children s = .ok p s') :
    resultType s.scopes l children = .ok p.returns ∧
      hasUnreachable (statements children) = false := by
  simp only [procedureOf, Check.bind_ok, Check.scopes_ok, Check.ofExcept_ok] at h
  obtain ⟨_, _, ⟨rfl, rfl⟩, returns, _, ⟨hreturns, rfl⟩, _, _, _, h⟩ := h
  split at h
  · obtain ⟨_, _, hr, _⟩ := Check.bind_ok.mp h
    exact absurd hr Check.refuse_ok
  · rename_i hreach
    obtain ⟨rfl, _⟩ := Check.pure_ok.mp h
    exact ⟨hreturns, eq_false_of_ne_true hreach⟩

/-- A procedure has a result unless its type is `void`. -/
theorem resultType_isSome {st : ScopeStack} {l : Label} {type : TypeExpr} {rest : List Node}
    {r : Option Ty} (h : resultType st l (type.toNode :: rest) = .ok r) :
    r.isSome = !isVoid type.name := by
  rw [resultType, List.head?_cons] at h
  simp only [show type.toNode.kind = .typeExpr from rfl, if_true,
    show type.toNode.value = type.name from rfl] at h
  cases hv : isVoid type.name with
  | true =>
    simp only [hv, if_true] at h
    cases h
    rfl
  | false =>
    simp only [hv, Bool.false_eq_true, if_false] at h
    cases ht : resolveType st type.name type.toNode.label.size with
    | error f =>
      rw [ht] at h
      cases h
    | ok t =>
      rw [ht] at h
      cases h
      rfl

/-- **The two checks of a procedure**: nothing follows a return, and a return has a value exactly if
    the procedure has a result. -/
theorem visit_procedure_returns {returns : TypeExpr} {name : String} {params : List Param}
    {body : List Statement} {mods : List String} {s s' : Analyzer} {n : Node}
    (h : visit ⟨{ kind := .procedure, value := name },
      procedureNodes returns params body mods⟩ s = .ok n s') :
    (∀ before v after, body = before ++ .ret v :: after → after = []) ∧
      ∀ v, .ret v ∈ body → v.isSome = !isVoid returns.name := by
  unfold visit at h
  simp only [Check.inScope_ok, Check.bind_ok, Check.inBodyOf_ok] at h
  obtain ⟨_, ⟨p, t, hp, _, u, _, ns, _, ⟨w, hv, _⟩, _⟩, _⟩ := h
  obtain ⟨hresult, hreach⟩ := procedureOf_ok hp
  rw [statements_procedureNodes] at hreach
  constructor
  · intro before v after e
    rw [e, List.map_append, List.map_cons] at hreach
    exact List.map_eq_nil_iff.mp (hasUnreachable_of_append rfl hreach)
  · intro v hmem
    have hnode : (Statement.ret v).toNode ∈ procedureNodes returns params body mods := by
      refine List.mem_append_left _ (List.mem_cons_of_mem _ (List.mem_append_right _ ?_))
      exact List.mem_map_of_mem hmem
    obtain ⟨_, _, _, hvisit, hprocedure⟩ := visit_of_mem hv hnode
    rw [visit_return hprocedure hvisit]
    exact resultType_isSome hresult

/-! ## 4. Accepted sources -/

/-- **The rules for the returns of a procedure** with the given type and body: there is at most one
    return and it comes last, a procedure of type `void`, in small letters or capitals, returns no
    value, and any other procedure ends with a return that has a value. -/
structure ReturnDiscipline (returns : TypeExpr) (body : List Statement) : Prop where
  once : (body.filter Statement.isReturn).length ≤ 1
  last : ∀ before v after, body = before ++ .ret v :: after → after = []
  void : isVoid returns.name = true → ∀ v, .ret (some v) ∉ body
  valued : isVoid returns.name = false → ∃ before v, body = before ++ [.ret (some v)]

/-- **The returns of an accepted source.** In each of its procedures there is at most one return, it
    is the last statement, and it has a value exactly if the procedure is not `void`. So the rules
    hold of a procedure exactly if it is `void` or has a return. -/
theorem accepted_returns {file source : String} {p : Program} {a : Analysis}
    (h : Accepted file source p a) {mods : List String} {returns : TypeExpr} {name : String}
    {params : List Param} {body : List Statement}
    (hitem : .declaration mods (.procedure returns name params body) ∈ p.items) :
    (body.filter Statement.isReturn).length ≤ 1 ∧
      (∀ before v after, body = before ++ .ret v :: after → after = []) ∧
      (∀ v, .ret v ∈ body → (v.isSome = true ↔ isVoid returns.name = false)) ∧
      (ReturnDiscipline returns body ↔
        (isVoid returns.name = false → ∃ v, .ret v ∈ body)) := by
  obtain ⟨_, _, _, _, ha⟩ := h
  obtain ⟨n, s, hv, _⟩ := Check.bind_ok.mp ha
  rw [Program.toNode] at hv
  unfold visit at hv
  obtain ⟨ns, t, hv, _⟩ := Check.bind_ok.mp hv
  obtain ⟨_, _, _, hvisit, _⟩ := visit_of_mem hv (List.mem_map_of_mem hitem)
  obtain ⟨hlast, hvalue⟩ := visit_procedure_returns hvisit
  have honce := length_returns_le_one hlast
  refine ⟨honce, hlast, fun v hmem => ?_, fun hrules hresult => ?_, fun hreturn => ?_⟩
  · rw [hvalue v hmem, Bool.not_eq_true']
  · obtain ⟨before, v, rfl⟩ := hrules.valued hresult
    exact ⟨some v, List.mem_append_right _ List.mem_cons_self⟩
  · refine ⟨honce, hlast, fun hvoid v hmem => ?_, fun hresult => ?_⟩
    · have hsome := hvalue _ hmem
      rw [hvoid] at hsome
      cases hsome
    · obtain ⟨v, hmem⟩ := hreturn hresult
      obtain ⟨before, after, e⟩ := List.append_of_mem hmem
      obtain rfl := hlast before v after e
      have hsome := hvalue v hmem
      rw [hresult] at hsome
      obtain ⟨w, rfl⟩ := Option.isSome_iff_exists.mp hsome
      exact ⟨before, w, e⟩

/-- A procedure with a result whose body is the given one. -/
def resultSample (body : List Statement) : Program :=
  ⟨[.declaration [] (.procedure ⟨"int", none, false⟩ "f" [] body)]⟩

/-- The first tokens of `declare [int] :: f() …`. -/
def resultTokens (body : List Token) : List Token :=
  [sampleToken 0 .declare "declare", sampleToken 8 .lbracket "[", sampleToken 9 .ident "int",
    sampleToken 12 .rbracket "]", sampleToken 14 .doubleColon "::", sampleToken 17 .ident "f",
    sampleToken 18 .lparen "(", sampleToken 19 .rparen ")"] ++ body

theorem resultSample_type :
    resolveType Analyzer.fresh.scopes "int" none = .ok ⟨"int", 0, []⟩ := by
  cbv

set_option maxRecDepth 20000 in
/-- A procedure that returns a number keeps the rules. -/
theorem accepted_returns_of_number :
    ∃ a, Accepted "sample" "declare [int] :: f() ret 1 end"
        (resultSample [.ret (some (.number "1"))]) a ∧
      ReturnDiscipline ⟨"int", none, false⟩ [.ret (some (.number "1"))] := by
  have ht : (tokenize "sample" "declare [int] :: f() ret 1 end").toOption =
      some (resultTokens [sampleToken 21 .ret "ret", sampleToken 25 .number "1",
        sampleToken 27 .endBlock "end", sampleToken 30 .eof ""]) := by decide +kernel
  have ha : (Check.analyze (resultSample [.ret (some (.number "1"))]).toNode).succeeds .fresh =
      true := by
    rw [Check.succeeds, resultSample, analyze_procedure resultSample_type]
    cbv
  obtain ⟨a, h⟩ := accepted_of_stages ht (by cbv) ha
  refine ⟨a, h, (accepted_returns h List.mem_cons_self).2.2.2.mpr fun _ => ?_⟩
  exact ⟨some (.number "1"), List.mem_cons_self⟩

set_option maxRecDepth 20000 in
/-- **A procedure with a result and no return is accepted.** -/
theorem result_without_return :
    (∃ a, Accepted "sample" "declare [int] :: f() end" (resultSample []) a) ∧
      ¬ ReturnDiscipline ⟨"int", none, false⟩ [] := by
  constructor
  · have ht : (tokenize "sample" "declare [int] :: f() end").toOption =
        some (resultTokens [sampleToken 21 .endBlock "end", sampleToken 24 .eof ""]) := by
      decide +kernel
    have ha : (Check.analyze (resultSample []).toNode).succeeds .fresh = true := by
      rw [Check.succeeds, resultSample, analyze_procedure resultSample_type]
      cbv
    exact accepted_of_stages ht (by cbv) ha
  · intro h
    obtain ⟨before, v, e⟩ := h.valued (by cbv)
    exact List.append_ne_nil_of_right_ne_nil before (List.cons_ne_nil _ []) e.symm

end Osclan
