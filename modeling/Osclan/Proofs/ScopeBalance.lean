/-
  File:      Osclan/Proofs/ScopeBalance.lean
  Subject:   Every run leaves the scopes balanced, whatever comes of it.

  A run may stop anywhere, inside any number of scopes and procedures. Still every part of the walk
  ends in the frame of the state it began in, and so, over any sequence of runs on any trees,
  nothing is left over from one run for the next but more entries in the tables of the root.

  A run that stops because a size leaves the word has no state that could be used again; the
  statements here are about all other runs.

  * `Analyzer.Frame`, `Effect.frame` -- the frame of a state, and that effects keep to it;
  * `Check.settled`, `Analyzer.analyzeAll` -- the state after a step, and after a sequence of runs;
  * `Analyzer.Resting` -- a state between runs;
  * `analyze_restores_scopes` -- the statement over whole sequences of runs and every inner visit.
-/
import Osclan.Proofs.Effect
import Osclan.Proofs.ScopeFrame

namespace Osclan

/-! ## 1. The frame of a state -/

/-- The scopes stay within their frame and the procedure is the same. -/
structure Analyzer.Frame (s s' : Analyzer) : Prop where
  scopes : s.scopes.Frame s'.scopes
  procedure : s'.procedure = s.procedure

/-- **Every effect keeps to the frame of the state it begins in.** -/
theorem Effect.frame {declares : String → Prop} {s s' : Analyzer} (h : Effect declares s s') :
    s.Frame s' := by
  induction h with
  | refl s => exact ⟨.refl _, rfl⟩
  | trans _ _ ih ih' =>
    exact ⟨ih.scopes.trans ih'.scopes, ih'.procedure.trans ih.procedure⟩
  | declareVariable v h => exact ⟨ScopeStack.declareVariable_frame h, rfl⟩
  | declareType t h => exact ⟨ScopeStack.declareType_frame h, rfl⟩
  | declareProcedure p _ h => exact ⟨ScopeStack.declareProcedure_frame h, rfl⟩
  | warn s w => exact ⟨.refl _, rfl⟩
  | scope _ ih =>
    refine ⟨?_, ?_⟩
    · rw [Check.leave_scopes]
      exact ScopeStack.frame_of_push ih.scopes
    · rw [Check.leave_procedure]
      exact ih.procedure
  | body p _ ih => exact ⟨ih.scopes, rfl⟩

theorem visit_frame (n : Node) (s : Analyzer) : s.Frame ((visit n).after s) :=
  ((@visit_does (fun _ => True) n fun _ _ => trivial).after s).frame

theorem visit_procedure_kept {n n' : Node} {s s' : Analyzer} (h : visit n s = .ok n' s') :
    s'.procedure = s.procedure := by
  have hframe := (visit_frame n s).procedure
  rwa [Check.after, h] at hframe

/-! ## 2. Sequences of runs -/

/-- The state a step leaves with a result or a fault; none if a size leaves the word. -/
def Check.settled {α : Type} (step : Check α) (s : Analyzer) : Option Analyzer :=
  match step s with
  | .ok _ s' => some s'
  | .error (.fault _) s' => some s'
  | .error .sizeOverflow _ => none

theorem Check.after_of_settled {α : Type} {step : Check α} {s s' : Analyzer}
    (h : step.settled s = some s') : step.after s = s' := by
  unfold Check.settled at h
  unfold Check.after
  cases e : step s with
  | ok a t =>
    rw [e] at h
    exact Option.some.inj h
  | error e₀ t =>
    rw [e] at h
    cases e₀ with
    | fault fault => exact Option.some.inj h
    | sizeOverflow => cases h

/-- The state after a sequence of runs, each on what the runs before have left. -/
def Analyzer.analyzeAll (s : Analyzer) : List Node → Option Analyzer
  | [] => some s
  | tree :: trees => ((Check.analyze tree).settled s).bind (·.analyzeAll trees)

/-- Handing over the results of a run does not touch the scopes or the procedure. -/
theorem analyze_frame (tree : Node) (s : Analyzer) : s.Frame ((Check.analyze tree).after s) := by
  have h := visit_frame tree s
  unfold Check.after at h ⊢
  unfold Check.analyze
  simp only [bind, EStateM.bind]
  cases e : visit tree s with
  | ok n t =>
    rw [e] at h
    exact ⟨h.scopes, h.procedure⟩
  | error e₀ t =>
    rw [e] at h
    exact h

/-- A state between runs: the root is the only scope, and no procedure is being walked. -/
structure Analyzer.Resting (s : Analyzer) : Prop where
  scopes : s.scopes.scopes = [s.scopes.root]
  depth : s.scopes.root.depth = 0
  procedure : s.procedure = none

theorem Analyzer.Resting.fresh : Analyzer.fresh.Resting := ⟨rfl, rfl, rfl⟩

theorem Analyzer.Resting.of_frame {s s' : Analyzer} (hs : s.Resting) (h : s.Frame s') :
    s'.Resting := by
  have hi : s.scopes.inner = [] := by
    have e : s.scopes.inner ++ [s.scopes.root] = [] ++ [s.scopes.root] := hs.scopes
    exact List.append_cancel_right e
  have hi' := h.scopes.inner_eq_nil hi
  refine ⟨?_, h.scopes.root.depth.trans hs.depth, h.procedure.trans hs.procedure⟩
  rw [ScopeStack.scopes, hi', List.nil_append]

/-- **The invariant over every sequence of runs.** -/
theorem resting_analyzeAll : ∀ (trees : List Node) {s s' : Analyzer}, s.Resting →
    s.analyzeAll trees = some s' → s'.Resting
  | [], s, s', hs, h => by
    rw [← Option.some.inj h]
    exact hs
  | tree :: trees, s, s', hs, h => by
    obtain ⟨t, ht, hr⟩ := Option.bind_eq_some_iff.mp h
    have hf : s.Frame t := Check.after_of_settled ht ▸ analyze_frame tree s
    exact resting_analyzeAll trees (hs.of_frame hf) hr

/-- **Scopes are balanced over whole runs.** After every run of every sequence of runs on any trees,
    the root of depth 0 is the only scope, no procedure is being walked, and each table of the root
    begins with the table from before the run. And wherever the walk visits a node, it leaves the
    number of scopes, the procedure, and the scopes strictly between the root and the innermost one
    as they were. -/
theorem analyze_restores_scopes :
    (∀ (earlier : List Node) (tree : Node) (s s' : Analyzer),
      Analyzer.fresh.analyzeAll earlier = some s → (Check.analyze tree).settled s = some s' →
        s'.Resting ∧ s.scopes.root.vars <+: s'.scopes.root.vars ∧
          s.scopes.root.types <+: s'.scopes.root.types ∧
          s.scopes.root.procs <+: s'.scopes.root.procs) ∧
    ∀ (n : Node) (s s' : Analyzer), (visit n).settled s = some s' →
      s'.scopes.size = s.scopes.size ∧ s'.procedure = s.procedure ∧
        s'.scopes.between = s.scopes.between := by
  refine ⟨fun earlier tree s s' hs h => ?_, fun n s s' h => ?_⟩
  · have hr := resting_analyzeAll earlier Analyzer.Resting.fresh hs
    have hf : s.Frame s' := Check.after_of_settled h ▸ analyze_frame tree s
    exact ⟨hr.of_frame hf, hf.scopes.root.vars, hf.scopes.root.types, hf.scopes.root.procs⟩
  · have hf : s.Frame s' := Check.after_of_settled h ▸ visit_frame n s
    refine ⟨?_, hf.procedure, hf.scopes.between⟩
    rw [ScopeStack.size, ScopeStack.size, hf.scopes.length]

/-- A procedure that stops two scopes deep, at a name that is not declared. -/
def straySample : Node :=
  ⟨{ kind := .root }, [⟨{ kind := .procedure, value := "f" },
    [⟨{ kind := .typeExpr, value := "void" }, []⟩,
     ⟨{ kind := .print }, [⟨{ kind := .record },
       [⟨{ kind := .assignment }, [⟨{ kind := .field, value := "a" }, []⟩,
         ⟨{ kind := .reference, value := "a" }, []⟩]⟩]⟩]⟩]⟩]⟩

/-- A declaration without operands, which no walk gets past. -/
def emptySample : Node := ⟨{ kind := .declaration }, []⟩

/-- Two runs that fail, the first of them inside two scopes; and the walk that fails there, begun
    two scopes deep. -/
theorem analyze_restores_scopes_after_faults :
    (∃ s s', Analyzer.fresh.analyzeAll [straySample] = some s ∧
      (Check.analyze emptySample).settled s = some s' ∧ s'.Resting ∧
      s.scopes.root.procs <+: s'.scopes.root.procs) ∧
    ∃ s', (visit straySample).settled { Analyzer.fresh with scopes := .push (.push .fresh) } =
      some s' ∧ s'.scopes.size = 3 ∧ s'.scopes.between = [{ depth := 1 }] := by
  refine ⟨?_, ?_⟩
  · have h : ((Analyzer.fresh.analyzeAll [straySample]).bind
        (Check.analyze emptySample).settled).isSome = true := by cbv
    obtain ⟨s', h'⟩ := Option.isSome_iff_exists.mp h
    obtain ⟨s, hs, hs'⟩ := Option.bind_eq_some_iff.mp h'
    have hr := analyze_restores_scopes.1 [straySample] emptySample s s' hs hs'
    exact ⟨s, s', hs, hs', hr.1, hr.2.2.2⟩
  · have h : ((visit straySample).settled
        { Analyzer.fresh with scopes := .push (.push .fresh) }).isSome = true := by cbv
    obtain ⟨s', hs'⟩ := Option.isSome_iff_exists.mp h
    obtain ⟨hsize, _, hbetween⟩ := analyze_restores_scopes.2 straySample _ s' hs'
    exact ⟨s', hs', hsize, hbetween⟩

end Osclan
