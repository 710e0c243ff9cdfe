/-
  File:      Osclan/Proofs/Outcome.lean
  Subject:   Both ends of a step: what holds of its results, and what holds where it stops.

  A run that stops leaves a state that the next run starts from, so a property of every sequence of
  runs needs both ends of every step. The rules follow the ways in which steps are built. What else
  is said of steps is `Check.Runs` with the two ends chosen, and its rules come from the ones here.

  * `Analyzer.Warned` -- what a store does to the state;
  * `Check.Runs` -- a step with what holds at either end, and its rules;
  * `Check.Files` -- a step that leaves the scopes and puts the given ones on file, and never stops
    at a size, with its rules.
-/
import Osclan.Proofs.Step

namespace Osclan

/-! ## 1. Both ends -/

/-- The state is as it was, or there is one more warning. -/
def Analyzer.Warned (s t : Analyzer) : Prop :=
  t = s ∨ ∃ w, t = { s with warnings := s.warnings ++ [w] }

theorem Analyzer.Warned.scopes {s t : Analyzer} (h : s.Warned t) : t.scopes = s.scopes := by
  rcases h with rfl | ⟨w, rfl⟩ <;> rfl

theorem Analyzer.Warned.archive {s t : Analyzer} (h : s.Warned t) : t.archive = s.archive := by
  rcases h with rfl | ⟨w, rfl⟩ <;> rfl

namespace Check

variable {α β : Type} {s : Analyzer} {post : α → Analyzer → Prop} {stop : Abort → Analyzer → Prop}

/-- Started in `s`, the step gives results as `post` says, or stops as `stop` says. -/
structure Runs (step : Check α) (s : Analyzer) (post : α → Analyzer → Prop)
    (stop : Abort → Analyzer → Prop) : Prop where
  ok : ∀ {a : α} {t : Analyzer}, step s = .ok a t → post a t
  stop : ∀ {e : Abort} {t : Analyzer}, step s = .error e t → stop e t

theorem Runs.imp {post' : α → Analyzer → Prop} {stop' : Abort → Analyzer → Prop} {step : Check α}
    (h : Runs step s post stop) (hpost : ∀ a t, post a t → post' a t)
    (hstop : ∀ e t, stop e t → stop' e t) : Runs step s post' stop' :=
  ⟨fun e => hpost _ _ (h.ok e), fun e => hstop _ _ (h.stop e)⟩

theorem Runs.imp_ok {post' : α → Analyzer → Prop} {step : Check α} (h : Runs step s post stop)
    (hpost : ∀ a t, post a t → post' a t) : Runs step s post' stop :=
  h.imp hpost fun _ _ hstop => hstop

/-- What holds of the results need not be said. -/
theorem Runs.forget {step : Check α} (h : Runs step s post stop) :
    Runs step s (fun _ _ => True) stop :=
  h.imp_ok fun _ _ _ => trivial

/-- That the step has given the result may be used. -/
theorem Runs.with_ok {step : Check α} (h : Runs step s post stop) :
    Runs step s (fun a t => step s = .ok a t ∧ post a t) stop :=
  ⟨fun e => ⟨e, h.ok e⟩, h.stop⟩

theorem Runs.pure {a : α} (h : post a s) : Runs (Pure.pure a) s post stop := by
  constructor
  · intro b t e
    obtain ⟨rfl, rfl⟩ := pure_ok.mp e
    exact h
  · intro e t he
    cases he

/-- **Steps in sequence.** The second starts where the first has given a result. -/
theorem Runs.bind {mid : β → Analyzer → Prop} {x : Check β} {f : β → Check α}
    (hx : Runs x s mid stop) (hf : ∀ b t, mid b t → Runs (f b) t post stop) :
    Runs (x >>= f) s post stop := by
  constructor
  · intro a t e
    obtain ⟨b, u, hb, ha⟩ := bind_ok.mp e
    exact (hf b u (hx.ok hb)).ok ha
  · intro e t he
    rcases bind_error.mp he with hb | ⟨b, u, hb, ha⟩
    · exact hx.stop hb
    · exact (hf b u (hx.ok hb)).stop ha

theorem Runs.throw {e : Abort} (h : stop e s) :
    Runs (MonadExcept.throw e : Check α) s post stop := by
  constructor
  · intro a t he
    cases he
  · intro e t he
    cases he
    exact h

theorem Runs.refuse {fault : Fault} (h : stop (.fault fault) s) :
    Runs (refuse fault) s post stop :=
  .throw h

theorem Runs.bind_refuse {fault : Fault} {f : β → Check α} (h : stop (.fault fault) s) :
    Runs (Check.refuse fault >>= f) s post stop := by
  have hstop : Runs (Check.refuse fault : Check β) s (fun _ _ => False) stop := .refuse h
  exact hstop.bind fun _ _ hf => hf.elim

theorem Runs.ofExcept {r : Except Fault α}
    (hstop : ∀ fault, r = .error fault → stop (.fault fault) s) :
    Runs (ofExcept r) s (fun a t => r = .ok a ∧ t = s) stop := by
  cases r with
  | ok a => exact .pure ⟨rfl, rfl⟩
  | error fault => exact .refuse (hstop fault rfl)

theorem Runs.bind_ofExcept {r : Except Fault β} {f : β → Check α}
    (hstop : ∀ fault, stop (.fault fault) s) (h : ∀ b, r = .ok b → Runs (f b) s post stop) :
    Runs (Check.ofExcept r >>= f) s post stop := by
  refine (Runs.ofExcept fun fault _ => hstop fault).bind ?_
  intro b t ht
  obtain ⟨hb, rfl⟩ := ht
  exact h b hb

theorem Runs.scopes : Runs scopes s (fun st t => st = s.scopes ∧ t = s) stop := by
  constructor
  · intro st t e
    obtain ⟨rfl, rfl⟩ := scopes_ok.mp e
    exact ⟨rfl, rfl⟩
  · intro e t he
    cases he

theorem Runs.bind_scopes {f : ScopeStack → Check α} (h : Runs (f s.scopes) s post stop) :
    Runs (Check.scopes >>= f) s post stop := by
  refine Runs.scopes.bind ?_
  intro st t ht
  obtain ⟨rfl, rfl⟩ := ht
  exact h

theorem Runs.get : Runs (MonadState.get : Check Analyzer) s (fun u t => u = s ∧ t = s) stop := by
  constructor
  · intro u t e
    obtain ⟨rfl, rfl⟩ := get_ok.mp e
    exact ⟨rfl, rfl⟩
  · intro e t he
    cases he

theorem Runs.bind_get {f : Analyzer → Check α} (h : Runs (f s) s post stop) :
    Runs (MonadState.get >>= f) s post stop := by
  refine Runs.get.bind ?_
  intro u t ht
  obtain ⟨rfl, rfl⟩ := ht
  exact h

/-- A declaration changes the scopes and nothing else, or nothing at all. -/
theorem Runs.declare {f : ScopeStack → Except Redeclared ScopeStack}
    (hstop : ∀ what, stop (.fault (.redeclared what)) s) :
    Runs (declare f) s (fun _ t => ∃ st, f s.scopes = .ok st ∧ t = { s with scopes := st })
      stop := by
  constructor
  · intro a t e
    exact declare_ok.mp e
  · intro e t he
    obtain ⟨what, _, rfl, rfl⟩ := declare_error.mp he
    exact hstop _

theorem Runs.makeVariable {name : String} {type : Ty} {pointer : Bool}
    (hstop : stop .sizeOverflow s) :
    Runs (makeVariable name type pointer) s
      (fun v t => Variable.make? name type pointer = some v ∧ t = s) stop := by
  unfold Check.makeVariable
  cases Variable.make? name type pointer with
  | some v => exact .pure ⟨rfl, rfl⟩
  | none => exact .throw hstop

/-- A store may raise a warning, and is refused only if it is illegal. -/
theorem Runs.assign {dest source : Ty}
    (hstop : ∀ d x, stop (.fault (.illegalAssignment d x)) s) :
    Runs (assign dest source) s (fun _ t => s.Warned t) stop := by
  cases h : dest.accepts source with
  | fits =>
    rw [assign_of_fits h]
    exact .pure (.inl rfl)
  | lossOfInformation =>
    rw [assign_of_loss h]
    constructor
    · intro a t e
      cases e
      exact .inr ⟨_, rfl⟩
    · intro e t he
      cases he
  | illegal =>
    rw [assign_of_refused h]
    exact .refuse (hstop _ _)

theorem Runs.assignLiteral {dest : Ty} {pointer : Bool} {literal : Option Ty}
    (hstop : ∀ d x, stop (.fault (.illegalAssignment d x)) s) :
    Runs (assignLiteral dest pointer literal) s (fun _ t => s.Warned t) stop := by
  cases literal with
  | none => exact .pure (.inl rfl)
  | some source =>
    cases pointer with
    | true => exact .pure (.inl rfl)
    | false => exact .assign hstop

theorem Runs.inScope {step : Check α}
    (h : Runs step { s with scopes := s.scopes.push } (fun a t => post a (leave t))
      fun e t => stop e (leave t)) : Runs (inScope step) s post stop := by
  constructor
  · intro a t e
    obtain ⟨u, hu, rfl⟩ := inScope_ok.mp e
    exact h.ok hu
  · intro e t he
    obtain ⟨u, hu, rfl⟩ := inScope_error.mp he
    exact h.stop hu

theorem Runs.inBodyOf {step : Check α} {p : Procedure}
    (h : Runs step { s with procedure := some p }
      (fun a t => post a { t with procedure := s.procedure })
      fun e t => stop e { t with procedure := s.procedure }) :
    Runs (inBodyOf p step) s post stop := by
  constructor
  · intro a t e
    obtain ⟨u, hu, rfl⟩ := inBodyOf_ok.mp e
    exact h.ok hu
  · intro e t he
    obtain ⟨u, hu, rfl⟩ := inBodyOf_error.mp he
    exact h.stop hu

/-! ## 2. Steps that leave the scopes -/

/-- The step leaves the scopes, however it ends. With a result it has put the given scopes on file.
    It never stops at a size. -/
def Files (step : Check α) (s : Analyzer) (closed : List Scope) : Prop :=
  step.Runs s (fun _ t => t.scopes = s.scopes ∧ t.archive = s.archive ++ closed)
    fun e t => t.scopes = s.scopes ∧ e ≠ .sizeOverflow

theorem Files.pure (a : α) : Files (Pure.pure a) s [] :=
  Runs.pure ⟨rfl, (List.append_nil _).symm⟩

theorem Files.refuse (fault : Fault) {closed : List Scope} :
    Files (refuse fault : Check α) s closed :=
  Runs.refuse ⟨rfl, nofun⟩

/-- What comes before is on file first. -/
theorem Files.bind {closed more : List Scope} {x : Check β} {f : β → Check α}
    (hx : Files x s closed) (hf : ∀ b t, t.scopes = s.scopes → Files (f b) t more) :
    Files (x >>= f) s (closed ++ more) := by
  refine Runs.bind hx ?_
  intro b t ht
  obtain ⟨hscopes, harchive⟩ := ht
  refine (hf b t hscopes).imp ?_ ?_
  · intro a u hu
    refine ⟨hu.1.trans hscopes, ?_⟩
    rw [hu.2, harchive, List.append_assoc]
  · intro e u hu
    exact ⟨hu.1.trans hscopes, hu.2⟩

/-- The steps behind the last scope that is closed. -/
theorem Files.bind_last {closed : List Scope} {x : Check β} {f : β → Check α}
    (hx : Files x s closed) (hf : ∀ b t, Files (f b) t []) : Files (x >>= f) s closed := by
  have h := hx.bind fun b t _ => hf b t
  rwa [List.append_nil] at h

theorem Files.bind_scopes {closed : List Scope} {f : ScopeStack → Check α}
    (h : ∀ st, Files (f st) s closed) : Files (Check.scopes >>= f) s closed :=
  Runs.bind_scopes (h _)

theorem Files.bind_get {closed : List Scope} {f : Analyzer → Check α}
    (h : Files (f s) s closed) : Files (MonadState.get >>= f) s closed :=
  Runs.bind_get h

theorem Files.bind_ofExcept {closed : List Scope} {r : Except Fault β} {f : β → Check α}
    (h : ∀ b, Files (f b) s closed) : Files (Check.ofExcept r >>= f) s closed :=
  Runs.bind_ofExcept (fun _ => ⟨rfl, nofun⟩) fun b _ => h b

theorem Files.assignLiteral (dest : Ty) (pointer : Bool) (literal : Option Ty) :
    Files (assignLiteral dest pointer literal) s [] := by
  refine (Runs.assignLiteral fun _ _ => ⟨rfl, nofun⟩).imp_ok ?_
  intro _ t ht
  rw [List.append_nil]
  exact ⟨ht.scopes, ht.archive⟩

/-- A scope in which nothing is declared is put on file empty. -/
theorem Files.inScope {closed : List Scope} {step : Check α}
    (h : Files step { s with scopes := s.scopes.push } closed) :
    Files (inScope step) s (closed ++ [{ depth := s.scopes.depth + 1 }]) := by
  refine Runs.inScope (h.imp ?_ ?_)
  · intro a t ht
    refine ⟨leave_push ht.1, ?_⟩
    rw [leave_archive ht.1, ht.2, List.append_assoc]
  · intro e t ht
    exact ⟨leave_push ht.1, ht.2⟩

end Check

end Osclan
