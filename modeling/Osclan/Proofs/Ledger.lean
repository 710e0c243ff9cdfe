/-
  File:      Osclan/Proofs/Ledger.lean
  Subject:   Steps that make entries: what a result says of them, and what a stop.

  Several things can be followed through a walk in the same way: the references it looks at, the
  literals it stores. Each time the walk makes entries, one after the other. A step that gives a
  result has passed all its entries, and a step that stops at one has stopped at the first that does
  not let it pass. A ledger fixes what the entries are; the rules for steps are the same for all of
  them, and come from those for both ends of a step.

  * `Ledger` -- entries, and the laws they are under;
  * `Check.Accounts` -- a step and the entries it makes, with its rules.
-/
import Osclan.Proofs.ScopeBalance

namespace Osclan

/-! ## 1. Ledgers -/

/-- The faults that may come of working out a type or declaring a name. -/
def Fault.ofTyping : Fault → Bool
  | .unresolvedType _ | .malformedNode _ _ | .redeclared _ => true
  | _ => false

/-- What is entered while a walk goes on. Some entries stop the walk, with a fault that tells what
    the entry is. What a walk is behind the entries it has passed may depend on the warnings before
    and after them. -/
structure Ledger (ι κ : Type) where
  stops : ι → Bool
  tells : ι → κ
  fault : κ → Fault
  passed : List ι → List Warning → List Warning → Prop
  fault_inj : ∀ {k k' : κ}, fault k = fault k' → k = k'
  fault_typing : ∀ k, (fault k).ofTyping = false
  passed_nil : ∀ ws, passed [] ws ws
  passed_append : ∀ {xs ys : List ι} {ws ws' ws'' : List Warning},
    passed xs ws ws' → passed ys ws' ws'' → passed (xs ++ ys) ws ws''
  none_stops : ∀ {xs : List ι} {ws ws' : List Warning}, passed xs ws ws' → xs.find? stops = none

namespace Ledger

variable {ι κ : Type} {L : Ledger ι κ} {xs ys : List ι} {e : Abort}

/-- If the walk has stopped with a fault of the ledger, it is that of the first entry that stops. -/
def Blames (L : Ledger ι κ) (xs : List ι) (e : Abort) : Prop :=
  ∀ k, e = .fault (L.fault k) → ∃ x, xs.find? L.stops = some x ∧ L.tells x = k

theorem Blames.of_ne (h : ∀ k, e ≠ .fault (L.fault k)) : L.Blames xs e :=
  fun k he => absurd he (h k)

theorem Blames.of_fault {fault : Fault} (h : ∀ k, fault ≠ L.fault k) : L.Blames xs (.fault fault) :=
  .of_ne fun k he => h k (Abort.fault.inj he)

theorem Blames.append (h : L.Blames xs e) : L.Blames (xs ++ ys) e := by
  intro k he
  obtain ⟨x, hx, hk⟩ := h k he
  rw [List.find?_append, hx]
  exact ⟨x, rfl, hk⟩

/-- An entry that stops stands behind those that were passed. -/
theorem Blames.behind {ws ws' : List Warning} (hp : L.passed xs ws ws') (h : L.Blames ys e) :
    L.Blames (xs ++ ys) e := by
  intro k he
  obtain ⟨x, hx, hk⟩ := h k he
  rw [List.find?_append, L.none_stops hp, hx]
  exact ⟨x, rfl, hk⟩

end Ledger

/-! ## 2. Steps -/

namespace Check

variable {ι κ α β : Type} {L : Ledger ι κ} {s : Analyzer} {x : ι} {xs ys : List ι}
  {post : α → Analyzer → Prop}

/-- The step makes the given entries, in this order. If it gives a result, it has passed all of
    them, and result and state are as said. If it stops with a fault of the ledger, that is the
    fault of the first entry that stops. -/
def Accounts (L : Ledger ι κ) (step : Check α) (s : Analyzer) (xs : List ι)
    (post : α → Analyzer → Prop) : Prop :=
  step.Runs s (fun a t => L.passed xs s.warnings t.warnings ∧ post a t) fun e _ => L.Blames xs e

theorem Accounts.imp {post' : α → Analyzer → Prop} {step : Check α} (h : Accounts L step s xs post)
    (hi : ∀ a t, post a t → post' a t) : Accounts L step s xs post' :=
  h.imp_ok fun a t ht => ⟨ht.1, hi a t ht.2⟩

/-- What is known of every result may be used. -/
theorem Accounts.with_ok {step : Check α} (h : Accounts L step s xs post) :
    Accounts L step s xs fun a t => step s = .ok a t ∧ post a t :=
  (Runs.with_ok h).imp_ok fun _ _ ht => ⟨ht.2.1, ht.1, ht.2.2⟩

/-- A step that adds no warning and stops with no fault of the ledger makes no entry. -/
theorem Accounts.quiet {step : Check α}
    (h : step.Runs s (fun a t => t.warnings = s.warnings ∧ post a t)
      fun e _ => ∀ k, e ≠ .fault (L.fault k)) : Accounts L step s [] post := by
  refine h.imp ?_ fun e t he => .of_ne he
  intro a t ht
  rw [ht.1]
  exact ⟨L.passed_nil _, ht.2⟩

theorem Accounts.pure {a : α} (h : post a s) : Accounts L (Pure.pure a) s [] post :=
  .quiet (.pure ⟨rfl, h⟩)

/-- **Steps in sequence make their entries in sequence.** -/
theorem Accounts.bind {mid : β → Analyzer → Prop} {x : Check β} {f : β → Check α}
    (hx : Accounts L x s xs mid) (hf : ∀ b t, mid b t → Accounts L (f b) t ys post) :
    Accounts L (x >>= f) s (xs ++ ys) post := by
  refine (Runs.imp hx (fun _ _ hb => hb) fun e t he => he.append).bind ?_
  intro b t hb
  obtain ⟨hpassed, hmid⟩ := hb
  refine Runs.imp (hf b t hmid) ?_ fun e u he => he.behind hpassed
  intro a u ha
  exact ⟨L.passed_append hpassed ha.1, ha.2⟩

/-- The steps behind the last entry. -/
theorem Accounts.bind_last {mid : β → Analyzer → Prop} {x : Check β} {f : β → Check α}
    (hx : Accounts L x s xs mid) (hf : ∀ b t, mid b t → Accounts L (f b) t [] post) :
    Accounts L (x >>= f) s xs post := by
  have h := hx.bind hf
  rwa [List.append_nil] at h

/-- The steps in front of the first entry. -/
theorem Accounts.bind_first {mid : β → Analyzer → Prop} {x : Check β} {f : β → Check α}
    (hx : Accounts L x s [] mid) (hf : ∀ b t, mid b t → Accounts L (f b) t xs post) :
    Accounts L (x >>= f) s xs post :=
  hx.bind hf

/-- Any other fault says nothing of the entries. -/
theorem Accounts.refuse {fault : Fault} (h : ∀ k, fault ≠ L.fault k) :
    Accounts L (refuse fault) s xs post :=
  Runs.refuse (.of_fault h)

theorem Accounts.bind_refuse {fault : Fault} {f : β → Check α} (h : ∀ k, fault ≠ L.fault k) :
    Accounts L (Check.refuse fault >>= f) s xs post :=
  Runs.bind_refuse (.of_fault h)

/-- A step that stops at its first entry. -/
theorem Accounts.stopped (h : L.stops x = true) :
    Accounts L (Check.refuse (L.fault (L.tells x))) s (x :: xs) post :=
  Runs.refuse fun _ he => ⟨x, List.find?_cons_of_pos h, L.fault_inj (Abort.fault.inj he)⟩

/-- An entry that is passed without a trace. -/
theorem Accounts.cons {step : Check α} (hx : L.passed [x] s.warnings s.warnings)
    (h : Accounts L step s xs post) : Accounts L step s (x :: xs) post :=
  Runs.imp h (fun _ _ ha => ⟨L.passed_append hx ha.1, ha.2⟩) fun _ _ he => he.behind hx

theorem Accounts.ofExcept {r : Except Fault α} (h : ∀ k, r ≠ .error (L.fault k)) :
    Accounts L (ofExcept r) s [] fun a t => r = .ok a ∧ t = s := by
  refine Runs.imp (Runs.ofExcept fun fault hr => ?_) ?_ fun _ _ he => he
  · exact .of_fault fun k hk => h k (by rw [hr, hk])
  · intro a t ht
    rw [ht.2]
    exact ⟨L.passed_nil _, ht.1, rfl⟩

theorem Accounts.bind_ofExcept {r : Except Fault β} {f : β → Check α}
    (hr : ∀ k, r ≠ .error (L.fault k)) (h : ∀ b, r = .ok b → Accounts L (f b) s xs post) :
    Accounts L (Check.ofExcept r >>= f) s xs post := by
  refine .bind_first (.ofExcept hr) ?_
  intro b t ht
  obtain ⟨hb, rfl⟩ := ht
  exact h b hb

theorem Accounts.scopes : Accounts L scopes s [] fun st t => st = s.scopes ∧ t = s := by
  refine .quiet (Runs.scopes.imp_ok fun st t ht => ⟨?_, ht⟩)
  rw [ht.2]

theorem Accounts.bind_scopes {f : ScopeStack → Check α} (h : Accounts L (f s.scopes) s xs post) :
    Accounts L (Check.scopes >>= f) s xs post :=
  Runs.bind_scopes h

theorem Accounts.get :
    Accounts L (MonadState.get : Check Analyzer) s [] fun u t => u = s ∧ t = s := by
  refine .quiet (Runs.get.imp_ok fun u t ht => ⟨?_, ht⟩)
  rw [ht.2]

theorem Accounts.bind_get {f : Analyzer → Check α} (h : Accounts L (f s) s xs post) :
    Accounts L (MonadState.get >>= f) s xs post :=
  Runs.bind_get h

theorem Accounts.declare {f : ScopeStack → Except Redeclared ScopeStack} :
    Accounts L (declare f) s [] fun _ t => f s.scopes = .ok t.scopes := by
  refine .quiet ((Runs.declare fun what k he => ?_).imp_ok fun _ t ht => ?_)
  · have hk := L.fault_typing k
    rw [← Abort.fault.inj he] at hk
    cases hk
  · obtain ⟨st, hst, rfl⟩ := ht
    exact ⟨rfl, hst⟩

theorem Accounts.makeVariable {name : String} {type : Ty} {pointer : Bool} :
    Accounts L (makeVariable name type pointer) s [] fun v t =>
      Variable.make? name type pointer = some v ∧ t = s := by
  refine .quiet ((Runs.makeVariable fun k => nofun).imp_ok fun v t ht => ⟨?_, ht⟩)
  rw [ht.2]

theorem Accounts.inScope {step : Check α}
    (h : Accounts L step { s with scopes := s.scopes.push } xs fun a t => post a (leave t)) :
    Accounts L (inScope step) s xs post := by
  refine Runs.inScope (Runs.imp_ok h fun a t ht => ?_)
  rw [leave_warnings]
  exact ht

theorem Accounts.inBodyOf {step : Check α} {p : Procedure}
    (h : Accounts L step { s with procedure := some p } xs fun a t =>
      post a { t with procedure := s.procedure }) : Accounts L (inBodyOf p step) s xs post :=
  Runs.inBodyOf h

/-- A visit keeps the procedure. -/
theorem Accounts.with_procedure {n : Node} {post : Node → Analyzer → Prop}
    (h : Accounts L (visit n) s xs post) :
    Accounts L (visit n) s xs fun n' t => post n' t ∧ t.procedure = s.procedure :=
  h.with_ok.imp fun _ _ ht => ⟨ht.2, visit_procedure_kept ht.1⟩

end Check

end Osclan
