/-
  File:      Osclan/Proofs/LikeRuns.lean
  Subject:   The check runs alike on like trees.

  Two runs are compared that start from like states. They end alike if both give like results and
  leave like states, or both refuse for like reasons. A size may leave the word on one side only
  where sizes do not count; nothing is said of such a pair of runs. Each way of building steps keeps
  this relation between runs, and by it the walk over like trees does.

  The check takes two nodes for names whatever their kind is: the target of an assignment and that
  of a declaration. So the walk over a tree needs that these are names, unless every text may stand
  for itself.

  * `Analyzer.Like`, `Ends`, `Check.Alike` -- states, ends of runs, and steps that run alike;
  * `Alike.bind`, `Alike.inScope`, `Alike.assignLiteral`, … -- one rule for each way to build steps;
  * `visit_alike` -- the walk;
  * `analyze_alike` -- runs over whole trees.
-/
import Osclan.Proofs.Likeness

namespace Osclan

variable {L : Likeness}

/-! ## 1. States and ends -/

/-- Warnings of one value stored in places of like types. -/
structure Warning.Like (L : Likeness) (w w' : Warning) : Prop where
  dest : ∃ t t' : Ty, t.Like L t' ∧ w.dest = t.textAs t.size ∧ w'.dest = t'.textAs t'.size
  source : w'.source = w.source

/-- Warnings depend on sizes, so they are compared only where sizes count. -/
structure Analyzer.Like (L : Likeness) (s s' : Analyzer) : Prop where
  scopes : s.scopes.Like L s'.scopes
  archive : List.Forall₂ (Scope.Like L) s.archive s'.archive
  warnings : L.sized → List.Forall₂ (Warning.Like L) s.warnings s'.warnings
  procedure : Option.Rel (Procedure.Like L) s.procedure s'.procedure

theorem Analyzer.like_fresh : Analyzer.fresh.Like L Analyzer.fresh :=
  ⟨ScopeStack.like_fresh, .nil, fun _ => .nil, .none⟩

/-- The ends of two runs that go alike. -/
inductive Ends (L : Likeness) {α : Type} (R : α → α → Prop) :
    EStateM.Result Abort Analyzer α → EStateM.Result Abort Analyzer α → Prop where
  | ok {a b : α} {s s' : Analyzer} : R a b → s.Like L s' → Ends L R (.ok a s) (.ok b s')
  | fault {f f' : Fault} {s s' : Analyzer} : f.Like L f' →
      Ends L R (.error (.fault f) s) (.error (.fault f') s')
  | overflow {s s' : Analyzer} : Ends L R (.error .sizeOverflow s) (.error .sizeOverflow s')
  | left {s : Analyzer} {r : EStateM.Result Abort Analyzer α} : ¬ L.sized →
      Ends L R (.error .sizeOverflow s) r
  | right {s : Analyzer} {r : EStateM.Result Abort Analyzer α} : ¬ L.sized →
      Ends L R r (.error .sizeOverflow s)

namespace Check

/-- From like states the steps end alike. -/
def Alike (L : Likeness) {α : Type} (R : α → α → Prop) (x x' : Check α) : Prop :=
  ∀ s s', s.Like L s' → Ends L R (x s) (x' s')

/-! ## 2. Rules for steps -/

section Rules

variable {α β : Type} {R : α → α → Prop} {S : β → β → Prop}

theorem Alike.pure {a b : α} (h : R a b) : Alike L R (Pure.pure a) (Pure.pure b) :=
  fun _ _ hs => .ok h hs

theorem Alike.refuse {f f' : Fault} (h : f.Like L f') :
    Alike L R (Check.refuse f) (Check.refuse f') :=
  fun _ _ _ => .fault h

/-- **Sequences.** If the first steps end with results, the second steps go on from like ones. -/
theorem Alike.bind {x x' : Check α} {f f' : α → Check β} (hx : Alike L R x x')
    (hf : ∀ a b, R a b → Alike L S (f a) (f' b)) : Alike L S (x >>= f) (x' >>= f') := by
  intro s s' hs
  have h := hx s s' hs
  simp only [Bind.bind, EStateM.bind]
  generalize x s = r at h
  generalize x' s' = r' at h
  cases h with
  | ok hr hs => exact hf _ _ hr _ _ hs
  | fault he => exact .fault he
  | overflow => exact .overflow
  | left hn => exact .left hn
  | right hn => exact .right hn

theorem Alike.get : Alike L (Analyzer.Like L) MonadState.get MonadState.get :=
  fun _ _ hs => .ok hs hs

theorem Alike.scopes : Alike L (ScopeStack.Like L) Check.scopes Check.scopes :=
  .bind .get fun _ _ hs => .pure hs.scopes

theorem Alike.ofExcept {r r' : Except Fault α} (h : Outcome (Fault.Like L) R r r') :
    Alike L R (Check.ofExcept r) (Check.ofExcept r') := by
  cases h with
  | ok hr => exact .pure hr
  | error he => exact .refuse he

theorem Alike.declare {f f' : ScopeStack → Except Redeclared ScopeStack}
    (hf : ∀ st st', st.Like L st' →
      Outcome (Redeclared.Like L) (ScopeStack.Like L) (f st) (f' st')) :
    Alike L Eq (Check.declare f) (Check.declare f') := by
  refine .bind .scopes fun st st' hst => ?_
  have h := hf st st' hst
  generalize f st = r at h
  generalize f' st' = r' at h
  cases h with
  | ok hr => exact fun s s' hs => .ok rfl ⟨hr, hs.archive, hs.warnings, hs.procedure⟩
  | error he => exact .refuse (.redeclared he)

/-- Where sizes count, the sizes of two types leave the word together. -/
theorem Alike.makeVariable {x x' : String} (hx : L.names x x') {t t' : Ty} (ht : t.Like L t')
    (pointer : Bool) :
    Alike L (Variable.Like L) (Check.makeVariable x t pointer)
      (Check.makeVariable x' t' pointer) := by
  have hsize : L.sized → t'.size? = t.size? := fun hs => Ty.Like.size? hs t ht
  unfold Check.makeVariable Variable.make?
  cases e : t.size? with
  | some a =>
    cases e' : t'.size? with
    | some b =>
      refine .pure ⟨hx, ht, rfl, fun hs => ?_⟩
      have hab := hsize hs
      rw [e, e'] at hab
      exact Option.some.inj hab
    | none =>
      refine fun s s' _ => .right fun hs => ?_
      have hab := hsize hs
      rw [e, e'] at hab
      cases hab
  | none =>
    cases e' : t'.size? with
    | some b =>
      refine fun s s' _ => .left fun hs => ?_
      have hab := hsize hs
      rw [e, e'] at hab
      cases hab
    | none => exact fun s s' _ => .overflow

theorem leave_like {s s' : Analyzer} (h : s.Like L s') : (leave s).Like L (leave s') := by
  rcases s with ⟨⟨root, inner⟩, archive, warnings, procedure⟩
  rcases s' with ⟨⟨root', inner'⟩, archive', warnings', procedure'⟩
  cases h.scopes.inner with
  | nil => exact h
  | cons hs hrest =>
    exact ⟨⟨h.scopes.root, hrest⟩, List.rel_append h.archive (.cons hs .nil), h.warnings,
      h.procedure⟩

theorem Alike.inScope {x x' : Check α} (h : Alike L R x x') :
    Alike L R (Check.inScope x) (Check.inScope x') := by
  intro s s' hs
  have hx := h { s with scopes := s.scopes.push } { s' with scopes := s'.scopes.push }
    ⟨hs.scopes.push, hs.archive, hs.warnings, hs.procedure⟩
  unfold Check.inScope
  generalize x _ = r at hx
  generalize x' _ = r' at hx
  cases hx with
  | ok hr hs => exact .ok hr (leave_like hs)
  | fault he => exact .fault he
  | overflow => exact .overflow
  | left hn => exact .left hn
  | right hn => exact .right hn

theorem Alike.inBodyOf {p p' : Procedure} (hp : p.Like L p') {x x' : Check α}
    (h : Alike L R x x') : Alike L R (Check.inBodyOf p x) (Check.inBodyOf p' x') := by
  intro s s' hs
  have hx := h { s with procedure := some p } { s' with procedure := some p' }
    ⟨hs.scopes, hs.archive, hs.warnings, .some hp⟩
  unfold Check.inBodyOf
  generalize x _ = r at hx
  generalize x' _ = r' at hx
  cases hx with
  | ok hr ht => exact .ok hr ⟨ht.scopes, ht.archive, ht.warnings, hs.procedure⟩
  | fault he => exact .fault he
  | overflow => exact .overflow
  | left hn => exact .left hn
  | right hn => exact .right hn

/-- What may be stored in places of like types is the same, if sizes count. -/
theorem accepts_like {t t' : Ty} (ht : t.Like L t') (hs : L.sized) (source : Ty) :
    t'.accepts source = t.accepts source := by
  unfold Ty.accepts
  rw [ht.isNumeric, ht.isComposite, ht.size hs]

/-- **Stores.** A store is illegal for its types only, so it is refused on both sides or on none;
    the warnings are alike where sizes count. -/
theorem Alike.assign {t t' : Ty} (ht : t.Like L t') (source : Ty) :
    Alike L Eq (Check.assign t source) (Check.assign t' source) := by
  intro s s' hs
  have hiff : t'.accepts source = .illegal ↔ t.accepts source = .illegal := by
    rw [accepts_illegal_iff, accepts_illegal_iff, ht.isNumeric]
  by_cases hi : t.accepts source = .illegal
  · rw [assign_of_illegal hi, assign_of_illegal (hiff.mpr hi)]
    exact .fault (.illegalAssignment ht)
  · rw [assign_of_legal hi, assign_of_legal fun e => hi (hiff.mp e)]
    refine .ok rfl ⟨hs.scopes, hs.archive, fun hsz => ?_, hs.procedure⟩
    refine List.rel_append (hs.warnings hsz) ?_
    unfold lossOf
    rw [accepts_like ht hsz]
    split
    · exact .cons ⟨⟨t, t', ht, rfl, rfl⟩, rfl⟩ .nil
    · exact .nil

theorem Alike.assignLiteral {t t' : Ty} (ht : t.Like L t') (pointer : Bool)
    (literal : Option Ty) :
    Alike L Eq (Check.assignLiteral t pointer literal)
      (Check.assignLiteral t' pointer literal) := by
  cases literal with
  | none => exact .pure rfl
  | some source =>
    cases pointer with
    | true => exact .pure rfl
    | false => exact .assign ht source

end Rules

end Check

/-! ## 3. Rules for the parts of the walk -/

open Check

section Parts

variable {l l' : Label} {ns ns' : List Node}

/-- A parameter with a type has a name. -/
theorem Label.Like.name_of_typed (h : l.Like L l') (hk : l.kind = .argument)
    (ht : l.typeName.isSome = true) : L.names l.value l'.value := by
  apply h.name
  unfold Label.naming
  rw [hk]
  exact ht

theorem paramVariables_alike {st st' : ScopeStack} (hst : st.Like L st')
    (hns : List.Forall₂ (Node.Like L) ns ns') (hk : ∀ n ∈ ns, n.kind = .argument) :
    Alike L (List.Forall₂ (Variable.Like L)) (paramVariables st ns) (paramVariables st' ns') := by
  induction hns with
  | nil => exact .pure .nil
  | @cons n n' rest rest' hn _ ih =>
    obtain ⟨hkind, hrest⟩ := List.forall_mem_cons.mp hk
    unfold paramVariables
    refine .bind (.ofExcept (declaredType_like hst hn.label)) fun t t' ht => ?_
    rw [hn.label.pointer]
    refine .bind (.makeVariable (hn.label.name_of_typed hkind ht.1) ht.2 _) fun v v' hv => ?_
    exact .bind (ih hrest) fun vs vs' hvs => .pure (.cons hv hvs)

theorem procedureOf_alike (hl : l.Like L l') (hk : l.kind = .procedure)
    (hns : List.Forall₂ (Node.Like L) ns ns') :
    Alike L (Procedure.Like L) (procedureOf l ns) (procedureOf l' ns') := by
  have hx : L.names l.value l'.value := hl.name_of_kind hk (by decide)
  have hargs : ∀ n ∈ ns.filter (·.kind == .argument), n.kind = .argument := by
    intro n hn
    exact beq_iff_eq.mp (List.mem_filter.mp hn).2
  unfold procedureOf
  refine .bind .scopes fun st st' hst => ?_
  refine .bind (.ofExcept (resultType_like hst hl hns)) fun returns returns' hr => ?_
  have hparams := paramVariables_alike hst (like_filter hns (· == .argument)) hargs
  refine .bind hparams fun vs vs' hvs => ?_
  rw [hasUnreachable_like hns]
  dsimp only
  split
  · exact .bind (R := Eq) (.refuse (.unreachableCode hx)) fun _ _ _ => .pure ⟨hx, hr, hvs⟩
  · exact .pure ⟨hx, hr, hvs⟩

theorem assignArguments_alike {vs vs' : List Variable}
    (hvs : List.Forall₂ (Variable.Like L) vs vs') (hns : List.Forall₂ (Node.Like L) ns ns') :
    Alike L Eq (assignArguments vs ns) (assignArguments vs' ns') := by
  induction hvs generalizing ns ns' with
  | nil => exact .pure rfl
  | cons hv _ ih =>
    cases hns with
    | nil => exact .pure rfl
    | cons hn hrest =>
      unfold assignArguments
      rw [like_literal (like_head? hn.children), hv.pointer]
      exact .bind (.assignLiteral hv.type _ _) fun _ _ _ => ih hrest

theorem checkArguments_alike {p p' : Procedure} (hp : p.Like L p')
    (hns : List.Forall₂ (Node.Like L) ns ns') :
    Alike L Eq (checkArguments p ns) (checkArguments p' ns') := by
  unfold checkArguments
  rw [hns.length_eq, hp.params.length_eq]
  split
  · exact .refuse (.argumentCount hp.name)
  · exact assignArguments_alike hp.params hns

theorem checkReturn_alike {v v' : Option Node} (hv : Option.Rel (Node.Like L) v v') :
    Alike L Eq (checkReturn v) (checkReturn v') := by
  unfold checkReturn
  refine .bind .get fun s s' hs => ?_
  rcases option_rel_cases hs.procedure with ⟨e, e'⟩ | ⟨p, p', e, e', hp⟩
  · rw [e, e']
    exact .pure rfl
  · simp only [e, e']
    rcases option_rel_cases hp.returns with ⟨er, er'⟩ | ⟨t, t', er, er', ht⟩
    · cases hv with
      | none =>
        simp only [er, er']
        exact .pure rfl
      | some _ =>
        simp only [er, er']
        exact .refuse (.unexpectedReturnValue hp.name)
    · cases hv with
      | none =>
        simp only [er, er']
        exact .refuse (.missingReturnValue hp.name)
      | some hn =>
        simp only [er, er', hn.literalType?]
        exact .assignLiteral ht false _

theorem declareRecord_alike {n n' : Node} (hn : n.Like L n') (hk : n.kind = .record) :
    Alike L Eq (declareRecord n) (declareRecord n') := by
  have hempty : n.value = "" ↔ n'.value = "" := L.empty (hn.label.name_of_kind hk (by decide))
  have hpath : n'.label.path.any (hasSegments ·.toList) =
      n.label.path.any (hasSegments ·.toList) := by
    rcases option_rel_cases hn.label.path with ⟨e, e'⟩ | ⟨p, p', e, e', hp⟩
    · rw [e, e']
    · rw [e, e', Option.any_some, Option.any_some, L.segments hp]
  unfold declareRecord
  simp only [← hempty, hpath]
  split
  · exact .pure rfl
  · refine .bind .scopes fun st st' hst => ?_
    refine .bind (.ofExcept (recordType_like hst n hn hk)) fun t t' ht => ?_
    exact .declare fun st st' hst => hst.declareType ht

theorem declareTyped_alike (hl : l.Like L l') (hk : l.kind = .argument) :
    Alike L Eq (declareTyped l) (declareTyped l') := by
  unfold declareTyped
  refine .bind .scopes fun st st' hst => ?_
  refine .bind (.ofExcept (declaredType_like hst hl)) fun t t' ht => ?_
  rw [hl.pointer]
  refine .bind (.makeVariable (hl.name_of_typed hk ht.1) ht.2 _) fun v v' hv => ?_
  exact .declare fun st st' hst => hst.declareVariable hv

/-- The size of a literal is taken on both sides or, where sizes do not count, on one. -/
theorem adopt_like {t t' : Ty} (ht : t.Like L t') (size : UInt64) :
    (if !t.isComposite && t.size = 0 then { t with size } else t).Like L
      (if !t'.isComposite && t'.size = 0 then { t' with size } else t') := by
  rw [ht.isComposite]
  cases ht with
  | mk hx hs hf =>
    split
    · rename_i hc
      split
      · exact .mk hx (fun _ => rfl) hf
      · rename_i hc'
        refine .mk hx (fun hsz => absurd ?_ hc') hf
        rw [hs hsz]
        exact hc
    · rename_i hc
      split
      · rename_i hc'
        refine .mk hx (fun hsz => absurd ?_ hc) hf
        rw [hs hsz] at hc'
        exact hc'
      · exact .mk hx hs hf

theorem declareWith_alike (hl : l.Like L l') (hx : L.names l.value l'.value)
    (literal : Option Ty) : Alike L Eq (declareWith l literal) (declareWith l' literal) := by
  have hrest : ∀ t t' : Ty, t.Like L t' → Alike L Eq
      (assignLiteral t l.pointer literal >>= fun _ => makeVariable l.value t l.pointer >>=
        fun v => declare (·.declareVariable v))
      (assignLiteral t' l'.pointer literal >>= fun _ => makeVariable l'.value t' l'.pointer >>=
        fun v => declare (·.declareVariable v)) := by
    intro t t' ht
    rw [hl.pointer]
    refine .bind (.assignLiteral ht _ _) fun _ _ _ => ?_
    refine .bind (.makeVariable hx ht _) fun v v' hv => ?_
    exact .declare fun st st' hst => hst.declareVariable hv
  unfold declareWith
  refine .bind .scopes fun st st' hst => ?_
  refine .bind (.ofExcept (declaredType_like hst hl)) fun t t' ht => ?_
  cases literal with
  | none => exact hrest t t' ht.2
  | some source => exact hrest _ _ (adopt_like ht.2 source.size)

end Parts

/-! ## 4. The walk -/

/-- Every text may stand for itself, or the targets in the tree are names. -/
def Likeness.Covers (L : Likeness) (n : Node) : Prop := (∀ x, L.names x x) ∨ n.aimed = true

/-- The same of some trees. -/
def Likeness.CoversAll (L : Likeness) (ns : List Node) : Prop :=
  (∀ x, L.names x x) ∨ Node.aimedAll ns = true

theorem Likeness.Covers.children {l : Label} {ns : List Node} (h : L.Covers ⟨l, ns⟩) :
    L.CoversAll ns :=
  h.imp_right fun e => (aimed_mk.mp e).2

theorem Likeness.CoversAll.head {n : Node} {rest : List Node} (h : L.CoversAll (n :: rest)) :
    L.Covers n :=
  h.imp_right fun e => (aimedAll_cons.mp e).1

theorem Likeness.CoversAll.tail {n : Node} {rest : List Node} (h : L.CoversAll (n :: rest)) :
    L.CoversAll rest :=
  h.imp_right fun e => (aimedAll_cons.mp e).2

/-- Where every text may stand for itself, every value may be a name. -/
theorem Node.Like.name_of_refl {n n' : Node} (h : n.Like L n') (hr : ∀ x, L.names x x) :
    L.names n.value n'.value := by
  rcases h.label.value with hn | hv
  · exact hn
  · rw [show n'.value = n.value from hv]
    exact hr n.value

theorem Likeness.Covers.assigned {l : Label} {target target' : Node} {rest : List Node}
    (h : L.Covers ⟨l, target :: rest⟩) (hk : l.kind = .assignment) (ht : target.Like L target')
    (hf : ¬ target.kind = .field) : L.names target.value target'.value := by
  rcases h with hr | ha
  · exact ht.name_of_refl hr
  · have haims := (aimed_mk.mp ha).1
    simp only [Label.aims, hk, List.head?_cons, Option.all_some, Bool.or_eq_true,
      beq_iff_eq] at haims
    exact ht.label.name_of_kind (haims.resolve_right hf) (by decide)

/-- The target of a declaration is its first operand. -/
theorem Likeness.Covers.declared {l : Label} {ns : List Node} {target target' value : Node}
    (h : L.Covers ⟨l, ns⟩) (hk : l.kind = .declaration) (ho : operandsOf ns = [target, value])
    (ht : target.Like L target') : L.names target.value target'.value := by
  rcases h with hr | ha
  · exact ht.name_of_refl hr
  · have haims := (aimed_mk.mp ha).1
    cases ns with
    | nil => cases ho
    | cons first rest =>
      simp only [Label.aims, hk, List.head?_cons, Option.all_some, beq_iff_eq] at haims
      have hfirst : first = target := by
        have hne : (first.kind != .modifier) = true := by rw [haims]; decide
        rw [operandsOf, List.filter_cons, if_pos hne] at ho
        exact (List.cons.inj ho).1
      rw [hfirst] at haims
      exact ht.label.name_of_kind haims (by decide)

/-- What resolving gives: a node and a type. -/
def Resolved (L : Likeness) (r r' : Node × Ty) : Prop := r.1.Like L r'.1 ∧ r.2.Like L r'.2

/-- What resolving the fields of a path gives: nodes and a type. -/
def ResolvedAll (L : Likeness) (r r' : List Node × Ty) : Prop :=
  List.Forall₂ (Node.Like L) r.1 r'.1 ∧ r.2.Like L r'.2

/-- Like names are resolved to like nodes, if the paths below them are. -/
theorem resolve_alike {l l' : Label} {ns ns' : List Node} (hl : l.Like L l')
    (hx : L.names l.value l'.value)
    (hc : ∀ {parent parent' leaf leaf' : Ty}, parent.Like L parent' → leaf.Like L leaf' →
      Alike L (ResolvedAll L) (resolveFields parent leaf ns) (resolveFields parent' leaf' ns')) :
    Alike L (Resolved L) (resolve ⟨l, ns⟩) (resolve ⟨l', ns'⟩) := by
  unfold resolve
  refine .bind .scopes fun st st' hst => ?_
  rcases option_rel_cases (hst.lookupVariable? hx) with ⟨e, e'⟩ | ⟨v, v', e, e', hv⟩
  · rw [e, e']
    exact .refuse (.unresolvedVariable hx)
  · rw [e, e']
    refine .bind (hc hv.type hv.type) fun r r' hr => ?_
    exact .pure ⟨.mk (hl.typed hx hv.type.name) hr.1, hr.2⟩

mutual

/-- **The walk runs alike on like trees.** -/
theorem visit_alike : ∀ (n : Node) {n' : Node}, n.Like L n' → L.Covers n →
    Alike L (Node.Like L) (visit n) (visit n')
  | ⟨l, ns⟩, n', hn, hcov => by
    cases hn with
    | @mk _ l' _ ns' hl hns =>
      have hall := visitAll_alike ns hns hcov.children
      have hmk : ∀ {ms ms' : List Node}, List.Forall₂ (Node.Like L) ms ms' →
          Node.Like L ⟨l, ms⟩ ⟨l', ms'⟩ := fun hms => .mk hl hms
      unfold visit
      simp only [hl.kind]
      cases hk : l.kind with
      | root | directive | field | print =>
        exact .bind hall fun ms ms' hms => .pure (hmk hms)
      | record =>
        refine .inScope (.bind hall fun ms ms' hms => ?_)
        exact .bind (declareRecord_alike (hmk hms) hk) fun _ _ _ => .pure (hmk hms)
      | procedure =>
        refine .inScope (.bind (procedureOf_alike hl hk hns) fun p p' hp => ?_)
        refine .bind (.declare fun st st' hst => hst.declareProcedure hp) fun _ _ _ => ?_
        exact .bind (.inBodyOf hp hall) fun ms ms' hms => .pure (hmk hms)
      | argument =>
        have hlen := (like_filter hns (· == .typeExpr)).length_eq
        simp only [← hlen]
        generalize (ns.filter (·.kind == .typeExpr)).length = count
        rcases count with _ | _ | k
        · exact .bind hall fun ms ms' hms => .pure (hmk hms)
        · exact .bind (declareTyped_alike hl hk) fun _ _ _ => .pure (hmk hns)
        · exact .refuse (.malformedParameter hl.value)
      | call =>
        have hx := hl.name_of_kind hk (by decide)
        refine .bind .scopes fun st st' hst => ?_
        rcases option_rel_cases (hst.lookupProcedure? hx) with ⟨e, e'⟩ | ⟨p, p', e, e', hp⟩
        · rw [e, e']
          exact .refuse (.unresolvedProcedure hx)
        · rw [e, e']
          refine .bind hall fun ms ms' hms => ?_
          refine .bind (checkArguments_alike hp (like_filter hms (· == .argument))) fun _ _ _ => ?_
          exact .pure (hmk hms)
      | typeExpr =>
        have hx := hl.name_of_kind hk (by decide)
        simp only [← L.void hx, ← L.structWord hx]
        split
        · exact .pure (hmk hns)
        · refine .bind .scopes fun st st' hst => ?_
          refine .bind (.ofExcept (resolveType_like hst hx hl.size)) fun _ _ _ => ?_
          exact .pure (hmk hns)
      | modifier | scalar => exact .pure (hmk hns)
      | assignment =>
        match ns, hns with
        | [⟨lt, ct⟩, value], .cons (b := target') ht (.cons hv .nil) =>
          refine .bind (visit_alike value hv hcov.children.tail.head) fun v v' hv' => ?_
          simp only [ht.kind]
          split
          · exact .pure (.mk hl (.cons ht (.cons hv' .nil)))
          · rename_i hf
            have hx := hcov.assigned hk ht hf
            cases ht with
            | mk hlt hct =>
              have hfields : ∀ {p p' t t' : Ty}, p.Like L p' → t.Like L t' →
                  Alike L (ResolvedAll L) (resolveFields p t ct) (resolveFields p' t' _) :=
                fun hp ht => resolveFields_alike ct hct hcov.children.head.children hp ht
              refine .bind (resolve_alike hlt hx hfields) fun r r' hr => ?_
              rw [hr.1.label.pointer, hv'.literalType?]
              refine .bind (.assignLiteral hr.2 _ _) fun _ _ _ => ?_
              exact .pure (hmk (.cons hr.1 (.cons hv' .nil)))
        | [], .nil => exact .refuse .malformedNode
        | [_], .cons _ .nil => exact .refuse .malformedNode
        | _ :: _ :: _ :: _, .cons _ (.cons _ (.cons _ _)) => exact .refuse .malformedNode
      | declaration =>
        have hops : List.Forall₂ (Node.Like L) (operandsOf ns) (operandsOf ns') :=
          like_filter hns (· != .modifier)
        have hvalue := visitOperand_alike 1 ns hns hcov.children
        generalize ho : operandsOf ns = ops at hops ⊢
        generalize operandsOf ns' = ops' at hops ⊢
        match ops, hops with
        | [target, value], .cons ht (.cons _ .nil) =>
          refine .bind hvalue fun ms ms' hms => ?_
          have hop :
              (operandsOf ms')[1]?.bind literalType? = (operandsOf ms)[1]?.bind literalType? :=
            like_literal (like_getElem? (like_filter hms (· != .modifier)) 1)
          have hx := hcov.declared hk ho ht
          simp only [hop]
          exact .bind (declareWith_alike ht.label hx _) fun _ _ _ => .pure (hmk hms)
        | [], .nil => exact .refuse .malformedNode
        | [_], .cons _ .nil => exact .refuse .malformedNode
        | _ :: _ :: _ :: _, .cons _ (.cons _ (.cons _ _)) => exact .refuse .malformedNode
      | reference | dynamicOffset =>
        have hx := hl.name_of_kind hk (by decide)
        refine .bind (resolve_alike hl hx ?_) fun r r' hr => .pure hr.1
        exact fun hp hleaf => resolveFields_alike ns hns hcov.children hp hleaf
      | allocation =>
        refine .bind .scopes fun st st' hst => ?_
        refine .bind (.ofExcept (declaredType_like hst hl)) fun _ _ _ => ?_
        exact .pure (hmk hns)
      | ret =>
        refine .bind hall fun ms ms' hms => ?_
        exact .bind (checkReturn_alike (like_head? hms)) fun _ _ _ => .pure (hmk hms)
termination_by structural n => n

theorem visitAll_alike : ∀ (ns : List Node) {ns' : List Node},
    List.Forall₂ (Node.Like L) ns ns' → L.CoversAll ns →
    Alike L (List.Forall₂ (Node.Like L)) (visitAll ns) (visitAll ns')
  | [], _, hns, _ => by
    cases hns
    unfold visitAll
    exact .pure .nil
  | n :: rest, _, hns, hcov => by
    cases hns with
    | cons hn hrest =>
      unfold visitAll
      refine .bind (visit_alike n hn hcov.head) fun m m' hm => ?_
      exact .bind (visitAll_alike rest hrest hcov.tail) fun ms ms' hms => .pure (.cons hm hms)
termination_by structural ns => ns

theorem visitOperand_alike : ∀ (before : Nat) (ns : List Node) {ns' : List Node},
    List.Forall₂ (Node.Like L) ns ns' → L.CoversAll ns →
    Alike L (List.Forall₂ (Node.Like L)) (visitOperand before ns) (visitOperand before ns')
  | _, [], _, hns, _ => by
    cases hns
    unfold visitOperand
    exact .pure .nil
  | before, n :: rest, _, hns, hcov => by
    cases hns with
    | cons hn hrest =>
      have hskip := fun before => visitOperand_alike before rest hrest hcov.tail
      have hvisit := visit_alike n hn hcov.head
      unfold visitOperand
      simp only [hn.kind]
      split
      · exact .bind (hskip before) fun ms ms' hms => .pure (.cons hn hms)
      · cases before with
        | zero => exact .bind hvisit fun m m' hm => .pure (.cons hm hrest)
        | succ before => exact .bind (hskip before) fun ms ms' hms => .pure (.cons hn hms)
termination_by structural _ ns => ns

theorem resolveFields_alike : ∀ (ns : List Node) {ns' : List Node},
    List.Forall₂ (Node.Like L) ns ns' → L.CoversAll ns →
    ∀ {parent parent' leaf leaf' : Ty}, parent.Like L parent' → leaf.Like L leaf' →
    Alike L (ResolvedAll L) (resolveFields parent leaf ns) (resolveFields parent' leaf' ns')
  | [], _, hns, _, _, _, _, _, _, hleaf => by
    cases hns
    unfold resolveFields
    exact .pure ⟨.nil, hleaf⟩
  | ⟨l, children⟩ :: rest, _, hns, hcov, parent, parent', leaf, leaf', hparent, hleaf => by
    cases hns with
    | @cons _ n' _ rest' hn hrest =>
      have hvisit := visit_alike ⟨l, children⟩ hn hcov.head
      cases hn with
      | @mk _ l' _ children' hl hc =>
        have hnext : ∀ {leaf leaf' : Ty}, leaf.Like L leaf' → Alike L (ResolvedAll L)
            (resolveFields parent leaf rest) (resolveFields parent' leaf' rest') :=
          fun hleaf => resolveFields_alike rest hrest hcov.tail hparent hleaf
        have hbelow : ∀ {p p' t t' : Ty}, p.Like L p' → t.Like L t' → Alike L (ResolvedAll L)
            (resolveFields p t children) (resolveFields p' t' children') :=
          fun hp ht => resolveFields_alike children hc hcov.head.children hp ht
        unfold resolveFields
        simp only [hl.kind]
        cases hk : l.kind with
        | field =>
          have hx := hl.name_of_kind hk (by decide)
          rcases option_rel_cases (hparent.field? hx) with ⟨e, e'⟩ | ⟨t, t', e, e', ht⟩
          · simp only [e, e']
            refine .refuse (.unresolvedPath ?_)
            rcases option_rel_cases hl.path with ⟨ep, ep'⟩ | ⟨p, p', ep, ep', hp⟩
            · rw [ep, ep']
              exact .inr hx
            · rw [ep, ep']
              exact .inl hp
          · simp only [e, e']
            refine .bind (hbelow ht ht) fun r r' hr => ?_
            refine .bind (hnext hr.2) fun q q' hq => ?_
            refine .pure ⟨.cons (.mk ?_ hr.1) hq.1, hq.2⟩
            simpa only [hl.kind, hk] using hl.typed hx ht.name
        | dynamicOffset =>
          have hx := hl.name_of_kind hk (by decide)
          refine .bind (resolve_alike hl hx hbelow) fun r r' hr => ?_
          exact .bind (hnext hleaf) fun q q' hq => .pure ⟨.cons hr.1 hq.1, hq.2⟩
        | _ =>
          refine .bind hvisit fun m m' hm => ?_
          exact .bind (hnext hleaf) fun q q' hq => .pure ⟨.cons hm hq.1, hq.2⟩
termination_by structural ns => ns

end

/-! ## 5. Runs -/

/-- What two good runs give. -/
structure Analysis.Like (L : Likeness) (a a' : Analysis) : Prop where
  tree : a.tree.Like L a'.tree
  warnings : L.sized → List.Forall₂ (Warning.Like L) a.warnings a'.warnings
  scopes : List.Forall₂ (Scope.Like L) a.scopes a'.scopes
  globals : a.globals.Like L a'.globals

/-- **Runs over like trees end alike.** -/
theorem analyze_alike {tree tree' : Node} (h : tree.Like L tree') (hcov : L.Covers tree) :
    Alike L (Analysis.Like L) (analyze tree) (analyze tree') := by
  refine .bind (visit_alike tree h hcov) fun n n' hn => ?_
  intro s s' hs
  exact .ok ⟨hn, hs.warnings, hs.archive, hs.scopes.root⟩
    ⟨hs.scopes, .nil, fun _ => .nil, hs.procedure⟩

end Osclan
