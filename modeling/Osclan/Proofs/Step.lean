/-
  File:      Osclan/Proofs/Step.lean
  Subject:   When a step of a check gives a result, and when it stops.

  A step either gives a result and a state or stops with a state. For each way of building steps
  there is one lemma here that says exactly when the step gives which result; the proofs about the
  walk take a good run apart with these and never open the monad. The ways of building steps from
  steps have one more, which says when the step stops.

  * `bind_ok`, `pure_ok`, `refuse_ok`, `ofExcept_ok`, `scopes_ok` -- plain steps;
  * `declare_ok`, `inScope_ok`, `inBodyOf_ok` -- steps that change the scopes or the procedure;
  * `leave_scopes`, `leave_archive`, … -- the state behind a scope;
  * `bind_error`, `declare_error`, `inScope_error`, `inBodyOf_error` -- where a step stops;
  * `accepts?_eq` -- whether a store fits can always be told;
  * `assign_of_legal`, `assign_of_illegal` -- what comes of a store.
-/
import Mathlib
import Osclan.Analysis

namespace Osclan.Check

variable {α β : Type} {s s' : Analyzer}

/-! ## 1. Plain steps -/

/-- A sequence gives what its second step gives after its first. -/
theorem bind_ok {x : Check α} {f : α → Check β} {b : β} :
    (x >>= f) s = .ok b s' ↔ ∃ a t, x s = .ok a t ∧ f a t = .ok b s' := by
  simp only [bind, EStateM.bind]
  constructor
  · intro h
    cases e : x s with
    | ok a t =>
      rw [e] at h
      exact ⟨a, t, rfl, h⟩
    | error e₀ t =>
      rw [e] at h
      cases h
  · rintro ⟨a, t, e, h⟩
    rw [e]
    exact h

/-- A sequence stops where its first step does, or where its second does after the first. -/
theorem bind_error {x : Check α} {f : α → Check β} {e : Abort} :
    (x >>= f) s = .error e s' ↔
      x s = .error e s' ∨ ∃ a t, x s = .ok a t ∧ f a t = .error e s' := by
  simp only [bind, EStateM.bind]
  cases h : x s with
  | ok a t =>
    constructor
    · intro hf
      exact .inr ⟨a, t, rfl, hf⟩
    · rintro (hx | ⟨_, _, hx, hf⟩)
      · cases hx
      · cases hx
        exact hf
  | error e₀ t =>
    constructor
    · intro he
      cases he
      exact .inl rfl
    · rintro (hx | ⟨_, _, hx, _⟩)
      · cases hx
        rfl
      · cases hx

theorem pure_ok {a b : α} : (pure a : Check α) s = .ok b s' ↔ a = b ∧ s = s' := by
  simp only [pure, EStateM.pure, EStateM.Result.ok.injEq]

theorem refuse_ok {fault : Fault} {b : α} : ¬ (refuse fault : Check α) s = .ok b s' := by
  intro h
  cases h

theorem ofExcept_ok {r : Except Fault α} {b : α} :
    ofExcept r s = .ok b s' ↔ r = .ok b ∧ s = s' := by
  cases r with
  | ok a => rw [ofExcept, pure_ok, Except.ok.injEq]
  | error fault => simp only [ofExcept, refuse_ok, reduceCtorEq, false_and]

theorem get_ok {t : Analyzer} : (get : Check Analyzer) s = .ok t s' ↔ s = t ∧ s = s' := by
  simp only [get, getThe, MonadStateOf.get, EStateM.get, EStateM.Result.ok.injEq]

theorem scopes_ok {st : ScopeStack} : scopes s = .ok st s' ↔ s.scopes = st ∧ s = s' := by
  simp only [scopes, bind_ok, get_ok, pure_ok]
  constructor
  · rintro ⟨_, _, ⟨rfl, rfl⟩, rfl, rfl⟩
    exact ⟨rfl, rfl⟩
  · rintro ⟨rfl, rfl⟩
    exact ⟨s, s, ⟨rfl, rfl⟩, rfl, rfl⟩

theorem ofSize_ok {o : Option α} {a : α} : ofSize o s = .ok a s' ↔ o = some a ∧ s = s' := by
  cases o with
  | some b => rw [ofSize, pure_ok, Option.some.injEq]
  | none =>
    constructor
    · intro h
      cases h
    · intro h
      cases h.1

theorem makeVariable_ok {name : String} {type : Ty} {pointer : Bool} {v : Variable} :
    makeVariable name type pointer s = .ok v s' ↔
      Variable.make? name type pointer = some v ∧ s = s' :=
  ofSize_ok

theorem fields_of_make? {name : String} {type : Ty} {pointer : Bool} {v : Variable}
    (h : Variable.make? name type pointer = some v) :
    v.name = name ∧ v.type = type ∧ v.pointer = pointer := by
  rw [Variable.make?, Option.map_eq_some_iff] at h
  obtain ⟨size, _, rfl⟩ := h
  exact ⟨rfl, rfl, rfl⟩

/-! ## 2. Steps that change the scopes or the procedure -/

/-- A declaration gives a result exactly if the scopes take it. -/
theorem declare_ok {f : ScopeStack → Except Redeclared ScopeStack} {u : Unit} :
    declare f s = .ok u s' ↔ ∃ st, f s.scopes = .ok st ∧ s' = { s with scopes := st } := by
  simp only [declare, bind_ok, scopes_ok]
  constructor
  · rintro ⟨_, _, ⟨rfl, rfl⟩, h⟩
    cases e : f s.scopes with
    | ok st =>
      rw [e] at h
      cases h
      exact ⟨st, rfl, rfl⟩
    | error what =>
      rw [e] at h
      cases h
  · rintro ⟨st, e, rfl⟩
    refine ⟨_, s, ⟨rfl, rfl⟩, ?_⟩
    rw [e]
    rfl

/-- A declaration stops exactly if the scopes refuse it, and then leaves the state as it is. -/
theorem declare_error {f : ScopeStack → Except Redeclared ScopeStack} {e : Abort} :
    declare f s = .error e s' ↔
      ∃ what, f s.scopes = .error what ∧ e = .fault (.redeclared what) ∧ s' = s := by
  simp only [declare, bind_error, scopes_ok]
  constructor
  · intro h
    rcases h with h | ⟨_, _, ⟨rfl, rfl⟩, h⟩
    · cases h
    · cases hf : f s.scopes with
      | ok st =>
        rw [hf] at h
        cases h
      | error what =>
        rw [hf] at h
        cases h
        exact ⟨what, rfl, rfl, rfl⟩
  · intro h
    obtain ⟨what, hf, rfl, rfl⟩ := h
    refine .inr ⟨_, _, ⟨rfl, rfl⟩, ?_⟩
    rw [hf]
    rfl

theorem leave_scopes (s : Analyzer) : (leave s).scopes = s.scopes.pop.2 := by
  unfold leave
  rcases s with ⟨⟨root, inner⟩, archive, warnings, procedure⟩
  cases inner <;> rfl

theorem leave_push {st : ScopeStack} (h : s.scopes = st.push) : (leave s).scopes = st := by
  rw [leave_scopes, h]
  rfl

theorem leave_archive {st : ScopeStack} (h : s.scopes = st.push) :
    (leave s).archive = s.archive ++ [{ depth := st.depth + 1 }] := by
  unfold leave
  rw [h]
  rfl

theorem leave_warnings (s : Analyzer) : (leave s).warnings = s.warnings := by
  unfold leave
  rcases s with ⟨⟨root, inner⟩, archive, warnings, procedure⟩
  cases inner <;> rfl

theorem leave_procedure (s : Analyzer) : (leave s).procedure = s.procedure := by
  unfold leave
  rcases s with ⟨⟨root, inner⟩, archive, warnings, procedure⟩
  cases inner <;> rfl

theorem inScope_ok {step : Check α} {a : α} :
    inScope step s = .ok a s' ↔
      ∃ t, step { s with scopes := s.scopes.push } = .ok a t ∧ s' = leave t := by
  unfold inScope
  cases step { s with scopes := s.scopes.push } with
  | ok b t =>
    simp only [EStateM.Result.ok.injEq]
    constructor
    · rintro ⟨rfl, rfl⟩
      exact ⟨t, ⟨rfl, rfl⟩, rfl⟩
    · rintro ⟨_, ⟨rfl, rfl⟩, rfl⟩
      exact ⟨rfl, rfl⟩
  | error e t => simp only [reduceCtorEq, false_and, exists_false]

theorem inScope_error {step : Check α} {e : Abort} :
    inScope step s = .error e s' ↔
      ∃ t, step { s with scopes := s.scopes.push } = .error e t ∧ s' = leave t := by
  unfold inScope
  cases step { s with scopes := s.scopes.push } with
  | ok b t => simp only [reduceCtorEq, false_and, exists_false]
  | error e₀ t =>
    simp only [EStateM.Result.error.injEq]
    constructor
    · rintro ⟨rfl, rfl⟩
      exact ⟨t, ⟨rfl, rfl⟩, rfl⟩
    · rintro ⟨_, ⟨rfl, rfl⟩, rfl⟩
      exact ⟨rfl, rfl⟩

theorem inBodyOf_ok {p : Procedure} {step : Check α} {a : α} :
    inBodyOf p step s = .ok a s' ↔
      ∃ t, step { s with procedure := some p } = .ok a t ∧
        s' = { t with procedure := s.procedure } := by
  unfold inBodyOf
  cases step { s with procedure := some p } with
  | ok b t =>
    simp only [EStateM.Result.ok.injEq]
    constructor
    · rintro ⟨rfl, rfl⟩
      exact ⟨t, ⟨rfl, rfl⟩, rfl⟩
    · rintro ⟨_, ⟨rfl, rfl⟩, rfl⟩
      exact ⟨rfl, rfl⟩
  | error e t => simp only [reduceCtorEq, false_and, exists_false]

theorem inBodyOf_error {p : Procedure} {step : Check α} {e : Abort} :
    inBodyOf p step s = .error e s' ↔
      ∃ t, step { s with procedure := some p } = .error e t ∧
        s' = { t with procedure := s.procedure } := by
  unfold inBodyOf
  cases step { s with procedure := some p } with
  | ok b t => simp only [reduceCtorEq, false_and, exists_false]
  | error e₀ t =>
    simp only [EStateM.Result.error.injEq]
    constructor
    · rintro ⟨rfl, rfl⟩
      exact ⟨t, ⟨rfl, rfl⟩, rfl⟩
    · rintro ⟨_, ⟨rfl, rfl⟩, rfl⟩
      exact ⟨rfl, rfl⟩

/-! ## 3. Stores -/

/-- The warnings of a store: one if the value may not fit, else none. -/
def lossOf (dest source : Ty) : List Warning :=
  if dest.accepts source = .lossOfInformation then
    [⟨dest.textAs dest.size, source.textAs source.size⟩]
  else
    []

/-- An elementary type has its own size. -/
theorem size?_of_elementary {t : Ty} (h : t.isComposite = false) : t.size? = some t.size := by
  obtain ⟨name, size, fields⟩ := t
  cases fields with
  | nil => rw [Ty.size?]
  | cons f fs => cases h

theorem text?_of_elementary {t : Ty} (h : t.isComposite = false) :
    t.text? = some (t.textAs t.size) := by
  rw [Ty.text?, size?_of_elementary h, Option.map_some]

/-- Whether a store fits can always be told: the sizes are asked for only where both types are
    elementary. -/
theorem accepts?_eq (dest source : Ty) : dest.accepts? source = some (dest.accepts source) := by
  unfold Ty.accepts? Ty.accepts
  by_cases hi : (source.isString && dest.isNumeric) = true
  · rw [if_pos hi, if_pos hi]
  rw [if_neg hi, if_neg hi]
  by_cases hc : (dest.isComposite || source.isComposite) = true
  · rw [if_pos hc, if_pos hc]
  rw [if_neg hc, if_neg hc]
  obtain ⟨hd, hs⟩ : dest.isComposite = false ∧ source.isComposite = false := by
    rw [Bool.not_eq_true, Bool.or_eq_false_iff] at hc
    exact hc
  rw [size?_of_elementary hd, size?_of_elementary hs]
  by_cases h0 : dest.size = 0
  · rw [if_neg fun h => h.1 h0]
    simp only [bind, Option.bind, h0, if_true]
    rfl
  · simp only [bind, Option.bind, h0, if_false, ne_eq, not_false_eq_true, true_and]
    split <;> rfl

theorem accepts_illegal_iff {dest source : Ty} :
    dest.accepts source = .illegal ↔ source.isString = true ∧ dest.isNumeric = true := by
  unfold Ty.accepts
  rw [← Bool.and_eq_true]
  by_cases hi : (source.isString && dest.isNumeric) = true
  · rw [if_pos hi]
    exact ⟨fun _ => hi, fun _ => rfl⟩
  · rw [if_neg hi]
    refine ⟨fun e => ?_, fun e => absurd e hi⟩
    split at e
    · cases e
    · split at e
      · cases e
      · cases e

/-- A composite on either side fits, so a store that does not is between elementary types. -/
theorem elementary_of_not_fits {dest source : Ty} (h : dest.accepts source ≠ .fits) :
    dest.isComposite = false ∧ source.isComposite = false := by
  by_cases hi : source.isString = true ∧ dest.isNumeric = true
  · have hs := hi.1
    have hd := hi.2
    rw [Ty.isString, Bool.and_eq_true, Bool.not_eq_true'] at hs
    rw [Ty.isNumeric, Bool.and_eq_true, Bool.not_eq_true'] at hd
    exact ⟨hd.1, hs.1⟩
  · rw [← Bool.or_eq_false_iff, ← Bool.not_eq_true]
    intro hc
    apply h
    rw [Ty.accepts, if_neg (by rwa [Bool.and_eq_true]), if_pos hc]

/-- A store that fits does nothing. -/
theorem assign_of_fits {dest source : Ty} (h : dest.accepts source = .fits) :
    assign dest source = pure () := by
  rw [assign, accepts?_eq, h]
  rfl

/-- A store that may not fit raises a warning. -/
theorem assign_of_loss {dest source : Ty} (h : dest.accepts source = .lossOfInformation) :
    assign dest source = modify fun s =>
      { s with warnings := s.warnings ++ [⟨dest.textAs dest.size, source.textAs source.size⟩] } := by
  obtain ⟨hd, hs⟩ := elementary_of_not_fits fun e => nomatch h.symm.trans e
  rw [assign, accepts?_eq, h, text?_of_elementary hd, text?_of_elementary hs]
  rfl

/-- An illegal store is refused. -/
theorem assign_of_refused {dest source : Ty} (h : dest.accepts source = .illegal) :
    assign dest source =
      refuse (.illegalAssignment (dest.textAs dest.size) (source.textAs source.size)) := by
  obtain ⟨hd, hs⟩ := elementary_of_not_fits fun e => nomatch h.symm.trans e
  rw [assign, accepts?_eq, h, text?_of_elementary hd, text?_of_elementary hs]
  rfl

/-- A store that is not illegal goes through, with its warnings. -/
theorem assign_of_legal {dest source : Ty} (h : dest.accepts source ≠ .illegal) (s : Analyzer) :
    assign dest source s = .ok () { s with warnings := s.warnings ++ lossOf dest source } := by
  unfold lossOf
  cases e : dest.accepts source with
  | fits =>
    rw [assign_of_fits e]
    simp only [reduceCtorEq, if_false, List.append_nil]
    rfl
  | lossOfInformation =>
    rw [assign_of_loss e]
    rfl
  | illegal => exact absurd e h

theorem assign_of_illegal {dest source : Ty} (h : dest.accepts source = .illegal) (s : Analyzer) :
    assign dest source s = .error (.fault (.illegalAssignment (dest.textAs dest.size)
      (source.textAs source.size))) s := by
  rw [assign_of_refused h]
  rfl

end Osclan.Check
