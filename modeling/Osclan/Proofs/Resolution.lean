/-
  File:      Osclan/Proofs/Resolution.lean
  Subject:   The check resolves names as lexical scope says.

  The walk is followed from item to item, and in a procedure from statement to statement, beside the
  environments of the tree. Between two of them the scopes answer as the environment does; a node
  that declares something takes both to what the node leaves behind. A procedure is walked in a
  scope of its own, and outside of it nothing has changed but the table of procedures.

  * `Keeps`, `TopLevel`, `InBody` -- what holds between two nodes;
  * `Advances` -- a node takes scopes and environment forward, with its run lemma `Advances.all`;
  * `IsBinding`, `Advances.param`, `Advances.record`, `Advances.procedure` -- what declares;
  * `FormsStatement.advances`, `IsItem` -- statements and items;
  * `references_resolved` -- the main result.
-/
import Osclan.Proofs.Annotation
import Osclan.Proofs.Tracking

namespace Osclan

/-! ## 1. Between two nodes -/

/-- What holds of scopes and environment between two nodes: the scopes answer as the environment
    does, and a variable may be declared on both sides. -/
structure Keeps (I : ScopeStack → Env → Prop) : Prop where
  sees : ∀ {st : ScopeStack} {e : Env}, I st e → Sees st e
  declare : ∀ {st st' : ScopeStack} {e : Env} {v : Variable} {type : String}, I st e →
    st.declareVariable v = .ok st' → Name.Plain v.name → Depicts (e.type type) v.type →
    I st' (e.declare v.name type)

/-- Between two items. -/
structure TopLevel (st : ScopeStack) (e : Env) : Prop where
  sees : Sees st e
  top : st.AtTop
  outside : e.locals = none

/-- Between two nodes of a procedure: one scope is open inside the given ones. -/
structure InBody (outer st : ScopeStack) (e : Env) : Prop where
  sees : Sees st e
  inner : ∃ sc, st = { outer with inner := sc :: outer.inner }

theorem topLevel_keeps : Keeps TopLevel := by
  refine ⟨fun h => h.sees, ?_⟩
  intro st st' e v type h hd hv ht
  refine ⟨h.sees.declareVariable hd hv ht, ?_, ?_⟩
  · obtain ⟨_, rfl⟩ := ScopeStack.declareVariable_ok.mp hd
    rw [ScopeStack.modifyInnermost, h.top.inner]
    exact ⟨rfl, h.top.depth⟩
  · rw [Env.declare, h.outside]

theorem inBody_keeps (outer : ScopeStack) : Keeps (InBody outer) := by
  refine ⟨fun h => h.sees, ?_⟩
  intro st st' e v type h hd hv ht
  refine ⟨h.sees.declareVariable hd hv ht, ?_⟩
  obtain ⟨_, rfl⟩ := ScopeStack.declareVariable_ok.mp hd
  obtain ⟨sc, rfl⟩ := h.inner
  exact ⟨_, rfl⟩

/-- A node takes scopes and environment forward: what it declares is declared on both sides, and the
    references that come back are resolved. -/
def Advances (I : ScopeStack → Env → Prop) (n : Node) : Prop :=
  ∀ (s : Analyzer) (e : Env), I s.scopes e →
    (visit n).Tracks s (n.sightings e) fun n' t =>
      e.after n' = e.after n ∧ I t.scopes (e.after n) ∧ ∀ o ∈ n'.sightings e, o.Resolved

/-- **Nodes one after the other**: each sees what those before it declare. -/
theorem Advances.all {I : ScopeStack → Env → Prop} : ∀ {ns : List Node}, (∀ n ∈ ns, Advances I n) →
    ∀ {s : Analyzer} {e : Env}, I s.scopes e →
    (visitAll ns).Tracks s (Node.sightingsFrom e ns) fun ns' t =>
      (∃ e', I t.scopes e') ∧ ∀ o ∈ Node.sightingsFrom e ns', o.Resolved
  | [], _, s, e, hs => by
    rw [Node.sightingsFrom]
    unfold visitAll
    exact .pure ⟨⟨e, hs⟩, fun o ho => absurd ho List.not_mem_nil⟩
  | n :: rest, h, s, e, hs => by
    obtain ⟨hn, hrest⟩ := List.forall_mem_cons.mp h
    rw [Node.sightingsFrom]
    unfold visitAll
    refine (hn s e hs).bind ?_
    intro n' t hpost
    obtain ⟨hafter, ht, hres⟩ := hpost
    refine (Advances.all hrest ht).bind_last ?_
    intro ns' u hpost
    obtain ⟨hu, hall⟩ := hpost
    refine .pure ⟨hu, ?_⟩
    rw [Node.sightingsFrom, hafter]
    exact List.forall_mem_append.mpr ⟨hres, hall⟩

/-- The kinds of nodes that may declare something. -/
def declaringKinds : List NodeKind := [.declaration, .argument, .record]

theorem Env.after_of_kind (e : Env) {n : Node} (h : n.kind ∉ declaringKinds) : e.after n = e := by
  rcases n with ⟨l, children⟩
  have hl : ∀ {k : NodeKind}, l.kind = k → k ∉ declaringKinds := by
    intro k hk
    rw [← hk]
    exact h
  unfold Env.after
  simp only
  split
  · rename_i hk
    exact absurd (by decide) (hl hk)
  · rename_i hk
    exact absurd (by decide) (hl hk)
  · rename_i hk
    exact absurd (by decide) (hl hk)
  · rfl

/-- A visit keeps the kind of a node. -/
theorem visit_kind {n n' : Node} {s s' : Analyzer} (h : visit n s = .ok n' s') :
    n'.kind = n.kind := by
  rw [← untyped_kind n', visit_untyped n h, untyped_kind]

theorem Walks.advances {I : ScopeStack → Env → Prop} {n : Node} (hI : Keeps I) (h : Walks n)
    (hk : n.kind ∉ declaringKinds) : Advances I n := by
  intro s e hs
  refine (h s e (hI.sees hs)).with_ok.imp ?_
  intro n' t hpost
  obtain ⟨hvisit, ht, hres⟩ := hpost
  have hk' : n'.kind ∉ declaringKinds := by
    rw [visit_kind hvisit]
    exact hk
  rw [e.after_of_kind hk, e.after_of_kind hk', ht]
  exact ⟨rfl, hs, hres⟩

/-! ## 2. Variables -/

section

variable {I : ScopeStack → Env → Prop} {s : Analyzer} {e : Env}

theorem declaredType_depicts {st : ScopeStack} {l : Label} {type : String} {ty : Ty}
    (h : Sees st e) (hl : l.typeName = some type) (ht : Name.Plain type)
    (hd : declaredType st l = .ok ty) : Depicts (e.type type) ty := by
  rw [declaredType, hl] at hd
  exact resolveType_depicts h ht hd

/-- A variable of a known type is declared on both sides. -/
theorem makeVariable_tracks {name type : String} {ty : Ty} {pointer : Bool} (hI : Keeps I)
    (h : I s.scopes e) (hn : Name.Plain name) (hd : Depicts (e.type type) ty) :
    (Check.makeVariable name ty pointer >>= fun v => Check.declare (·.declareVariable v)).Tracks
      s [] fun _ t => I t.scopes (e.declare name type) := by
  refine .bind_first .makeVariable ?_
  intro v t hpost
  obtain ⟨hv, rfl⟩ := hpost
  obtain ⟨rfl, rfl, rfl⟩ := Check.fields_of_make? hv
  refine Check.Accounts.declare.imp ?_
  intro _ u hu
  exact hI.declare h hu hn hd

theorem declareTyped_tracks {l : Label} {type : String} (hI : Keeps I) (h : I s.scopes e)
    (hn : Name.Plain l.value) (hl : l.typeName = some type) (ht : Name.Plain type) :
    (declareTyped l).Tracks s [] fun _ t => I t.scopes (e.declare l.value type) := by
  refine .bind_scopes ?_
  refine .bind_ofExcept (fun _ => declaredType_ne rfl) fun ty hty => ?_
  exact makeVariable_tracks hI h hn (declaredType_depicts (hI.sees h) hl ht hty)

/-- A literal may give the variable its size, which is no part of the shape of its type. -/
theorem declareWith_tracks {l : Label} {type : String} {literal : Option Ty} (hI : Keeps I)
    (h : I s.scopes e) (hn : Name.Plain l.value) (hl : l.typeName = some type)
    (ht : Name.Plain type) :
    (declareWith l literal).Tracks s [] fun _ t => I t.scopes (e.declare l.value type) := by
  refine .bind_scopes ?_
  refine .bind_ofExcept (fun _ => declaredType_ne rfl) fun ty hty => ?_
  have hd := declaredType_depicts (hI.sees h) hl ht hty
  have hadopted : ∀ ty' : Ty, Depicts (e.type type) ty' →
      (Check.assignLiteral ty' l.pointer literal >>= fun _ =>
        Check.makeVariable l.value ty' l.pointer >>= fun v =>
          Check.declare (·.declareVariable v)).Tracks
        s [] fun _ t => I t.scopes (e.declare l.value type) := by
    intro ty' hd'
    refine .bind_first (Check.Silent.assignLiteral ty' _ _ s) ?_
    intro _ w hw
    have hkeep : I w.scopes e := by
      rw [hw]
      exact h
    exact makeVariable_tracks hI hkeep hn hd'
  cases literal with
  | none => exact hadopted ty hd
  | some source =>
    simp only
    split
    · exact hadopted _ (hd.sized source.size)
    · exact hadopted ty hd

/-- A modifier, which follows what it modifies. -/
def Node.IsModifier (m : Node) : Prop := ∃ name, m = ⟨{ kind := .modifier, value := name }, []⟩

theorem Node.IsModifier.still {m : Node} (h : m.IsModifier) : Still m := by
  obtain ⟨name, rfl⟩ := h
  exact .plain (.inr rfl)

theorem Node.IsModifier.kind {m : Node} (h : m.IsModifier) : m.kind = .modifier := by
  obtain ⟨name, rfl⟩ := h
  rfl

theorem FormsModifier.isModifier {pre : List Token} {m : Node} (h : FormsModifier pre m) :
    m.IsModifier := by
  cases h with
  | mk _ => exact ⟨_, rfl⟩

theorem operandsOf_pair {target n : Node} {mods : List Node} (ht : target.kind ≠ .modifier)
    (hn : n.kind ≠ .modifier) (hm : ∀ m ∈ mods, m.IsModifier) :
    operandsOf (target :: n :: mods) = [target, n] := by
  have hnone : mods.filter (·.kind != .modifier) = [] :=
    List.filter_eq_nil_iff.mpr fun m hmem => by simp [(hm m hmem).kind]
  simp only [operandsOf, List.filter_cons, bne_iff_ne, ne_eq, ht, hn, not_false_eq_true, if_true,
    hnone]

/-- The value is the second operand, whatever modifiers follow. -/
theorem visitOperand_tracks {target n : Node} {mods : List Node} (hs : Sees s.scopes e)
    (ht : target.kind ≠ .modifier) (hn : n.kind ≠ .modifier) (h : Walks n) :
    (visitOperand 1 (target :: n :: mods)).Tracks s (n.sightings e) fun ns t =>
      ∃ n', ns = target :: n' :: mods ∧ t.scopes = s.scopes ∧ ∀ o ∈ n'.sightings e, o.Resolved := by
  unfold visitOperand
  simp only [if_neg ht]
  have hvalue : (visitOperand 0 (n :: mods)).Tracks s (n.sightings e) fun ns t =>
      ∃ n', ns = n' :: mods ∧ t.scopes = s.scopes ∧ ∀ o ∈ n'.sightings e, o.Resolved := by
    unfold visitOperand
    simp only [if_neg hn]
    refine (h s e hs).bind_last ?_
    intro n' t hpost
    exact .pure ⟨n', rfl, hpost⟩
  refine hvalue.bind_last ?_
  intro ns t hpost
  obtain ⟨n', rfl, hpost⟩ := hpost
  exact .pure ⟨n', rfl, hpost⟩

theorem Sighting.Resolved.undeclared {o : Sighting} (h : o.Resolved) : o.undeclared = false := by
  obtain ⟨t, ht, _⟩ := h
  rw [Sighting.undeclared, ht]
  rfl

/-- The name that a declaration declares stands for what it declares. -/
theorem resolved_of_declare (e : Env) {l : Label} {type : String} (hl : l.typeName = some type) :
    Sighting.Resolved ⟨e.declare l.value type, ⟨l, []⟩⟩ := by
  refine ⟨e.type type, ?_, hl, .nil⟩
  show (e.declare l.value type).typeOf? l.value = _
  rw [Env.typeOf?_declare, if_pos rfl]

/-- A declaration of a variable: the variable with its type, a value, and modifiers. -/
inductive IsBinding : Node → Prop where
  | mk {target : Label} {type : String} {n : Node} {mods : List Node} :
      target.kind = .reference → Name.Plain target.value → target.typeName = some type →
      Name.Plain type → Walks n → n.kind ≠ .modifier → (∀ m ∈ mods, m.IsModifier) →
      IsBinding ⟨{ kind := .declaration }, ⟨target, []⟩ :: n :: mods⟩

/-- **A binding declares its variable behind its value.** -/
theorem IsBinding.advances {binding : Node} (hI : Keeps I) (h : IsBinding binding) :
    Advances I binding := by
  obtain @⟨target, type, n, mods, hkind, hname, hl, ht, h, hk, hm⟩ := h
  intro s e hs
  have hseen : ∀ m : Node,
      Node.sightings e ⟨{ kind := .declaration }, ⟨target, []⟩ :: m :: mods⟩ =
        m.sightings e ++ [⟨e.declare target.value type, ⟨target, []⟩⟩] := by
    intro m
    have hmods := Still.sightingsIn (fun m hmem => (hm m hmem).still) e
    simp only [Node.sightings, Node.sightingsIn, hmods, List.append_nil, Node.value, hl,
      Option.getD_some, hkind]
  have hafter : ∀ m : Node, e.after ⟨{ kind := .declaration }, ⟨target, []⟩ :: m :: mods⟩ =
      e.declare target.value type := by
    intro m
    simp only [Env.after, Node.value, hl, Option.getD_some]
  have htarget : (Node.mk target []).kind ≠ .modifier := by
    rw [Node.kind, hkind]
    decide
  have hdeclared := resolved_of_declare e hl
  unfold visit
  simp only [operandsOf_pair htarget hk hm]
  rw [hseen, hafter]
  refine (visitOperand_tracks (hI.sees hs) htarget hk h).bind ?_
  intro ns t hpost
  obtain ⟨n', rfl, hst, hres⟩ := hpost
  have hkeep : I t.scopes e := by
    rw [hst]
    exact hs
  refine Check.Tracks.declared hdeclared.undeclared ?_
  refine (declareWith_tracks hI hkeep hname hl ht).bind_last ?_
  intro _ u hu
  refine .pure ⟨hafter n', hu, ?_⟩
  rw [hseen]
  exact List.forall_mem_append.mpr ⟨hres, List.forall_mem_singleton.mpr hdeclared⟩

/-- A parameter declares itself. -/
theorem Advances.param {l ty : Label} {type : String} (hI : Keeps I) (hkind : l.kind = .argument)
    (hname : Name.Plain l.value) (hl : l.typeName = some type) (ht : Name.Plain type)
    (hty : ty.kind = .typeExpr) : Advances I ⟨l, [⟨ty, []⟩]⟩ := by
  intro s e hs
  have hseen : Node.sightings e ⟨l, [⟨ty, []⟩]⟩ = [] := by
    rw [Node.sightings_children _ _ (by rw [hkind]; decide), Node.sightingsIn,
      (Still.typeExpr hty).none]
    rfl
  have hafter : e.after ⟨l, [⟨ty, []⟩]⟩ = e.declare l.value type := by
    simp only [Env.after, hkind, hl]
  have hone : ([⟨ty, []⟩] : List Node).filter (·.kind == .typeExpr) = [⟨ty, []⟩] := by
    simp [Node.kind, hty]
  rw [hseen, hafter]
  unfold visit
  simp only [hkind, hone, List.length_singleton]
  refine (declareTyped_tracks hI hs hname hl ht).bind_last ?_
  intro _ t hpost
  refine .pure ⟨hafter, hpost, ?_⟩
  rw [hseen]
  exact fun o ho => absurd ho List.not_mem_nil

end

/-! ## 3. Statements and parameters -/

theorem FormsType.plain {pre : List Token} {ty : Label} (h : FormsType pre ty)
    (ht : ∀ t ∈ pre, t.Plain) : Name.Plain ty.value := by
  cases h with
  | @mk l name r size star n pointer hl hname hsize hstar hr => exact ht name (by simp) hname

section

variable {I : ScopeStack → Env → Prop}

/-- A binding has its parts in their places, and modifiers behind them. -/
theorem FormsBinding.isBinding {pre : List Token} {n : Node} {mods : List Node}
    (h : FormsBinding pre n) (ht : ∀ t ∈ pre, t.Plain) (hm : ∀ m ∈ mods, m.IsModifier) :
    IsBinding ⟨n.label, n.children ++ mods⟩ := by
  cases h with
  | @mk pre post ty name c n hty hname hc hv =>
    have hplain : Name.Plain name.value := ht name (by simp) (.inl hname)
    have htype := hty.plain fun t hmem => ht t (by simp [hmem])
    have hvalue := hv.walks fun t hmem => ht t (by simp [hmem])
    exact .mk rfl hplain rfl htype hvalue (hv.kind_ne (by decide)) hm

theorem FormsParam.advances {pre : List Token} {n : Node} (hI : Keeps I)
    (h : FormsParam pre n) : OfPlain (Advances I) pre n := by
  intro ht
  cases h with
  | @mk pre ty name hty hname =>
    have hplain : Name.Plain name.value := ht name (by simp) (.inl hname)
    have htype := hty.plain fun t hmem => ht t (by simp [hmem])
    exact .param hI rfl hplain rfl htype hty.kind

/-- **A statement takes scopes and environment forward.** -/
theorem FormsStatement.advances {pre : List Token} {n : Node} (hI : Keeps I)
    (h : FormsStatement pre n) : OfPlain (Advances I) pre n := by
  intro ht
  cases h with
  | @declare d pre n hd hb =>
    rcases n with ⟨l, children⟩
    have hbinding := hb.isBinding (List.forall_mem_cons.mp ht).2 fun m hm =>
      absurd hm List.not_mem_nil
    rw [List.append_nil] at hbinding
    exact hbinding.advances hI
  | @assign pre post c target n hp hc hv =>
    obtain ⟨hk, hpath⟩ := hp.walks (.inl rfl) fun t hmem => ht t (by simp [hmem])
    have hvalue := hv.walks fun t hmem => ht t (by simp [hmem])
    exact (Walks.assignment hpath hk hvalue).advances hI (by simp [Node.kind, declaringKinds])
  | @ret r pre n hr hv =>
    have hvalue := hv.walks (List.forall_mem_cons.mp ht).2
    have hret := Walks.ret (List.forall_mem_singleton.mpr hvalue)
    exact hret.advances hI (by simp [Node.kind, declaringKinds])
  | @print p pre n hp hv =>
    have hvalue := hv.walks (List.forall_mem_cons.mp ht).2
    have hprint : Walks ⟨{ kind := .print }, [n]⟩ :=
      .passing (.inr rfl) (List.forall_mem_singleton.mpr hvalue)
    exact hprint.advances hI (by simp [Node.kind, declaringKinds])
  | call hc =>
    have hvalue := FormsValue.walks (.call hc) ht
    cases hc with
    | mk _ _ _ _ _ => exact hvalue.advances hI (by simp [Node.kind, declaringKinds])

theorem FormsBody.advances {pre : List Token} {ns : List Node} (hI : Keeps I)
    (h : FormsBody pre ns) (ht : ∀ t ∈ pre, t.Plain) : ∀ n ∈ ns, Advances I n := by
  have hmany : ∀ {pre : List Token} {ns : List Node}, Many FormsStatement pre ns →
      (∀ t ∈ pre, t.Plain) → ∀ n ∈ ns, Advances I n :=
    fun hm => (hm.imp fun p n _ hs => hs.advances hI).ofPlain
  cases h with
  | plain hm => exact hmany hm ht
  | bareRet hm hr =>
    obtain ⟨hpre, _⟩ := List.forall_mem_append.mp ht
    have hret : Walks ⟨{ kind := .ret }, []⟩ := .ret fun n hn => absurd hn List.not_mem_nil
    exact List.forall_mem_append.mpr
      ⟨hmany hm hpre, List.forall_mem_singleton.mpr (hret.advances hI (by decide))⟩

end

/-! ## 4. Records -/

theorem hasSegments_append (cs ds : List Char) : hasSegments (cs ++ ':' :: ':' :: ds) = true := by
  induction cs with
  | nil => rfl
  | cons c cs ih => rw [List.cons_append, hasSegments, ih, Bool.or_true]

theorem hasSegments_joinPath (path name : String) :
    hasSegments (joinPath path name).toList = true := by
  rw [joinPath, String.toList_append, String.toList_append, List.append_assoc]
  exact hasSegments_append _ _

/-- A record in a record declares nothing: its path has segments. -/
theorem Still.nested {name : String} {fs : List (String → Node)} {parent : String}
    (h : ∀ f ∈ fs, Still (f (parent ++ "::" ++ name))) : Still (nestedRecord name fs parent) := by
  have hall : ∀ n ∈ fs.map (· (parent ++ "::" ++ name)), Still n := List.forall_mem_map.mpr h
  have hpath : hasSegments (parent ++ "::" ++ name).toList = true :=
    hasSegments_joinPath parent name
  constructor
  · intro e
    rw [nestedRecord, Node.sightings_children _ _ (by simp [transparentKinds])]
    exact Still.sightingsIn hall e
  · intro s
    rw [nestedRecord]
    unfold visit
    simp only
    refine .inScope ((Still.all hall _).bind_last ?_)
    intro ns t hpost
    obtain ⟨rfl, ht⟩ := hpost
    rw [declareRecord, if_pos (by simp only [Option.any_some, hpath, Bool.or_true])]
    rw [pure_bind]
    exact .pure ⟨rfl, Check.leave_push ht⟩

/-- What a field is to the check, whatever record it stands in. -/
def FieldLike (f : String → Node) : Prop :=
  ∀ parent, Still (f parent) ∧
    ∀ {st : ScopeStack} {e : Env}, Sees st e → ∃ t, FieldOf st e (f parent) t

/-- **A field is visited and comes back as it is**, and it adds to the record what it writes. -/
theorem FormsField.fieldLike : ∀ {pre : List Token} {f : String → Node}, FormsField pre f →
    OfPlain FieldLike pre f
  | _, _, @FormsField.plain pre ty name hty _ hname => by
    intro ht parent
    have hplain : Name.Plain name.value := ht name (by simp) (.inl hname)
    have htype := hty.plain fun t hmem => ht t (by simp [hmem])
    refine ⟨⟨fun e => ?_, fun s => ?_⟩, fun hs => ⟨_, .plainField hs hplain hty.kind htype⟩⟩
    · rw [Node.sightings_children _ _ (by simp [transparentKinds])]
      exact Still.sightingsIn (List.forall_mem_singleton.mpr (.typeExpr hty.kind)) e
    · unfold visit
      simp only
      refine (Still.all (List.forall_mem_singleton.mpr (.typeExpr hty.kind)) s).bind_last ?_
      intro ns t hpost
      obtain ⟨rfl, hst⟩ := hpost
      exact .pure ⟨rfl, hst⟩
  | _, _, @FormsField.nested pre fields ty name b e fs hty _ hname _ hm _ => by
    intro ht parent
    have hplain : Name.Plain name.value := ht name (by simp) (.inl hname)
    have hfields := (hm.imp fun p f hp hf => hf.fieldLike).ofPlain fun t hmem =>
      ht t (by simp [hmem])
    refine ⟨.nested fun f hf => (hfields f hf _).1, fun hs => ⟨_, .nested hplain ?_⟩⟩
    exact List.forall_mem_map.mpr fun f hf => .inr ((hfields f hf _).2 hs)
termination_by pre => pre.length
decreasing_by
  simp only [List.length_cons, List.length_append]
  omega

/-- **The type of a record is declared on both sides**, from the scope of the record. -/
theorem declareRecord_tracks {name : String} {ns : List Node} {st : ScopeStack} {e : Env}
    {s : Analyzer} (hname : Name.Plain name) (h : TopLevel st e) (hs : s.scopes = st.push)
    (hfields : ∀ n ∈ ns, n.noField ∨ ∃ t, FieldOf st.push e n t) :
    (declareRecord ⟨{ kind := .record, value := name }, ns⟩).Tracks s [] fun _ t =>
      TopLevel t.scopes.pop.2 (e.after ⟨{ kind := .record, value := name }, ns⟩) := by
  by_cases hempty : name = ""
  · -- a record without a name is none to the environment either
    have hafter : e.after ⟨{ kind := .record, value := name }, ns⟩ = e := by
      simp only [Env.after, hempty, decide_true, Bool.true_or, if_true]
    rw [declareRecord, if_pos (by simp [Node.value, hempty]), hafter]
    refine .pure ?_
    rw [hs]
    exact h
  · have hafter : e.after ⟨{ kind := .record, value := name }, ns⟩ =
        { e with records := (name, e.fields ns) :: e.records } := by
      simp only [Env.after, hempty, decide_false, Option.isSome_none, Bool.or_false,
        Bool.false_eq_true, if_false]
    rw [declareRecord, if_neg (by simp [Node.value, hempty]), hafter]
    refine .bind_scopes ?_
    refine .bind_ofExcept (fun _ => recordType_ne rfl _) fun ty hty => ?_
    rw [hs] at hty
    have hd := recordType_depicts hfields hty
    refine Check.Accounts.declare.imp ?_
    intro _ w hw
    rw [hs] at hw
    obtain ⟨_, htop, hsees⟩ := h.sees.declareType h.top hw hname hd
    exact ⟨hsees, htop, h.outside⟩

theorem Advances.record {name : String} {ns : List Node} (hname : Name.Plain name)
    (hstill : ∀ n ∈ ns, Still n)
    (hfields : ∀ {st : ScopeStack} {e : Env}, Sees st e →
      ∀ n ∈ ns, n.noField ∨ ∃ t, FieldOf st e n t) :
    Advances TopLevel ⟨{ kind := .record, value := name }, ns⟩ := by
  intro s e hs
  have hseen : Node.sightings e ⟨{ kind := .record, value := name }, ns⟩ = [] := by
    rw [Node.sightings_children _ _ (by simp [transparentKinds])]
    exact Still.sightingsIn hstill e
  rw [hseen]
  unfold visit
  simp only
  refine .inScope ((Still.all hstill _).bind_last ?_)
  intro ns' t hpost
  obtain ⟨rfl, ht⟩ := hpost
  refine (declareRecord_tracks hname hs ht (hfields hs.sees.push)).bind_last ?_
  intro _ u hu
  refine .pure ⟨rfl, ?_, ?_⟩
  · rw [Check.leave_scopes]
    exact hu
  · rw [hseen]
    exact fun o ho => absurd ho List.not_mem_nil

/-! ## 5. Procedures -/

/-- A procedure is declared outside of its own scope, and its body begins with no variables. -/
theorem TopLevel.declareProcedure {st st' : ScopeStack} {e : Env} {p : Procedure}
    (h : TopLevel st e) (hd : st.push.declareProcedure p = .ok st') :
    ∃ outer, TopLevel outer e ∧ InBody outer st' e.enter := by
  obtain ⟨outer, htop, rfl, _, hvars, htypes⟩ := h.top.lookup_declareProcedure hd
  have hsees : Sees outer e := h.sees.congr htypes hvars
  exact ⟨outer, ⟨hsees, htop, h.outside⟩, (hsees.enter h.outside).push, _, rfl⟩

/-- **A procedure is walked in a scope of its own.** -/
theorem Advances.procedure {name : String} {ns : List Node}
    (h : ∀ outer, ∀ n ∈ ns, Advances (InBody outer) n) :
    Advances TopLevel ⟨{ kind := .procedure, value := name }, ns⟩ := by
  have hseen : ∀ (e : Env) (ms : List Node),
      Node.sightings e ⟨{ kind := .procedure, value := name }, ms⟩ =
        Node.sightingsFrom e.enter ms := by
    intro e ms
    simp only [Node.sightings]
  intro s e hs
  rw [hseen]
  unfold visit
  simp only
  refine .inScope (.bind_first (procedureOf_silent _ _ _) ?_)
  intro p t ht
  refine .bind_first .declare ?_
  intro _ u hu
  rw [ht] at hu
  obtain ⟨outer, htop, hbody⟩ := hs.declareProcedure hu
  have hstart : InBody outer ({ u with procedure := some p } : Analyzer).scopes e.enter := hbody
  have hwalk : (Check.inBodyOf p (visitAll ns)).Tracks u (Node.sightingsFrom e.enter ns)
      fun ns' w => (∃ e', InBody outer w.scopes e') ∧
        ∀ o ∈ Node.sightingsFrom e.enter ns', o.Resolved :=
    .inBodyOf (Advances.all (h outer) hstart)
  refine hwalk.bind_last ?_
  intro ns' w hpost
  obtain ⟨⟨e', hend⟩, hres⟩ := hpost
  refine .pure ⟨rfl, ?_, ?_⟩
  · obtain ⟨sc, hsc⟩ := hend.inner
    rw [Check.leave_scopes, hsc]
    exact htop
  · rw [hseen]
    exact hres

/-! ## 6. Programs -/

/-- **What an item is to the check**: a directive, or a declaration of a variable, a record or a
    procedure. -/
inductive IsItem : Node → Prop where
  | directive {n : Node} : n.kind = .directive → Walks n → IsItem n
  | binding {n : Node} : IsBinding n → IsItem n
  | record {name : String} {ns : List Node} : Name.Plain name → (∀ n ∈ ns, Still n) →
      (∀ {st : ScopeStack} {e : Env}, Sees st e → ∀ n ∈ ns, n.noField ∨ ∃ t, FieldOf st e n t) →
      IsItem ⟨{ kind := .record, value := name }, ns⟩
  | procedure {name : String} {ns : List Node} : Name.Plain name →
      (∀ outer, ∀ n ∈ ns, Advances (InBody outer) n) →
      IsItem ⟨{ kind := .procedure, value := name }, ns⟩

theorem FormsDeclared.isItem {pre : List Token} {n : Node} {mods : List Node}
    (h : FormsDeclared pre n) (ht : ∀ t ∈ pre, t.Plain) (hm : ∀ m ∈ mods, m.IsModifier) :
    IsItem ⟨n.label, n.children ++ mods⟩ := by
  cases h with
  | @record s name e fields fs hs hname hf he =>
    have hplain : Name.Plain name.value := ht name (by simp) (.inl hname)
    have hfields := (hf.imp fun p f _ hfield => hfield.fieldLike).ofPlain fun t hmem =>
      ht t (by simp [hmem])
    have hmods : ∀ m ∈ mods, m.noField := by
      intro m hmem
      rw [Node.noField, (hm m hmem).kind]
      decide
    refine .record hplain ?_ ?_
    · exact List.forall_mem_append.mpr
        ⟨List.forall_mem_map.mpr fun f hf => (hfields f hf _).1, fun m hmem => (hm m hmem).still⟩
    · intro st e hsees
      exact List.forall_mem_append.mpr
        ⟨List.forall_mem_map.mpr fun f hf => .inr ((hfields f hf _).2 hsees),
          fun m hmem => .inl (hmods m hmem)⟩
  | @procedure pre params body ty c name l r e ps ns hty hc hname hl hp hr hb he =>
    refine .procedure (ht name (by simp) (.inl hname)) fun outer => ?_
    have hI := inBody_keeps outer
    have hparams := (hp.imp fun p n _ hparam => hparam.advances hI).ofPlain fun t hmem =>
      ht t (by simp [hmem])
    have hbody := hb.advances hI fun t hmem => ht t (by simp [hmem])
    have htype := (Still.typeExpr hty.kind).walks.advances hI (by
      rw [Node.kind, hty.kind]
      decide)
    have hmods : ∀ m ∈ mods, Advances (InBody outer) m := by
      intro m hmem
      refine (hm m hmem).still.walks.advances hI ?_
      rw [(hm m hmem).kind]
      decide
    refine List.forall_mem_append.mpr ⟨List.forall_mem_cons.mpr ⟨htype, ?_⟩, hmods⟩
    exact List.forall_mem_append.mpr ⟨hparams, hbody⟩
  | global hb => exact .binding (hb.isBinding ht hm)

theorem FormsItem.isItem {pre : List Token} {n : Node} (h : FormsItem pre n) :
    OfPlain IsItem pre n := by
  intro ht
  cases h with
  | @directive d name a hd hname hword ha =>
    have hargument : Walks ⟨{ kind := .argument, value := a.value }, []⟩ :=
      .argument rfl fun n hn => absurd hn List.not_mem_nil
    exact .directive rfl (.passing (.inl rfl) (List.forall_mem_singleton.mpr hargument))
  | @declaration d ms pre mods n hd hm hn =>
    have hmods := hm.forall_mem fun p m hmod => hmod.isModifier
    exact hn.isItem (fun t hmem => ht t (by simp [hmem])) hmods

/-- **An item takes scopes and environment forward.** -/
theorem IsItem.advances {n : Node} (h : IsItem n) : Advances TopLevel n := by
  cases h with
  | directive hk hw =>
    exact hw.advances topLevel_keeps (by rw [hk]; decide)
  | binding hb => exact hb.advances topLevel_keeps
  | record hname hstill hfields => exact .record hname hstill hfields
  | procedure _ hbody => exact .procedure hbody

theorem FormsProgram.items {pre : List Token} {ns : List Node}
    (h : FormsProgram pre ⟨{ kind := .root }, ns⟩) (ht : ∀ t ∈ pre, t.Plain) :
    ∀ n ∈ ns, IsItem n := by
  cases h with
  | mk hm => exact (hm.imp fun p n _ hitem => hitem.isItem).ofPlain ht

theorem FormsProgram.tracks {pre : List Token} {tree : Node} (h : FormsProgram pre tree)
    (ht : ∀ t ∈ pre, t.Plain) {s : Analyzer} {e : Env} (hs : TopLevel s.scopes e) :
    (visit tree).Tracks s (tree.sightings e) fun n' _ => ∀ o ∈ n'.sightings e, o.Resolved := by
  have hseen : ∀ ns : List Node, Node.sightings e ⟨{ kind := .root }, ns⟩ =
      Node.sightingsFrom e ns := by
    intro ns
    simp only [Node.sightings]
  cases h with
  | @mk ns hm =>
    have hitems := fun n hn => (FormsProgram.items (.mk hm) ht n hn).advances
    rw [hseen]
    unfold visit
    simp only
    refine (Advances.all hitems hs).bind_last ?_
    intro ns' t hpost
    obtain ⟨_, hres⟩ := hpost
    refine .pure ?_
    rw [hseen]
    exact hres

/-! ## 7. The main result -/

theorem topLevel_fresh : TopLevel Analyzer.fresh.scopes .fresh := ⟨.fresh, ⟨rfl, rfl⟩, rfl⟩

/-- **Lexical resolution is sound.** In the tree of an accepted source every reference carries the
    type of the declaration that lexical scope gives its name, and every field of its path the type
    of that field. A source refused for an unknown variable has a reference to it where nothing of
    that name is declared, and it is the first such reference. -/
theorem references_resolved {file source : String} {ts : List Token} {p : Program}
    (ht : tokenize file source = .ok ts) (hp : Program.ofTokens ts = .ok p) :
    (∀ a s, Check.analyze p.toNode .fresh = .ok a s →
      (∀ n ∈ a.tree.nodes, n.kind = .reference ∨ n.kind = .dynamicOffset →
        ∃ o ∈ a.tree.sightings .fresh, o.node = n) ∧
      ∀ o ∈ a.tree.sightings .fresh, o.Resolved) ∧
    ∀ x s, Check.analyze p.toNode .fresh = .error (.fault (.unresolvedVariable x)) s →
      ∃ o, (p.toNode.sightings .fresh).find? Sighting.undeclared = some o ∧ o.node.value = x := by
  obtain ⟨pre, e, rest, rfl, he, hforms, hgood⟩ := ofTokens_sound hp
  have hplain : ∀ t ∈ pre, t.Plain := by
    intro t hm
    exact (lex_spelled ht t (List.mem_append_left _ hm) (hgood t hm).2).plain
  have hwalk := hforms.tracks hplain topLevel_fresh
  constructor
  · intro a s ha
    obtain ⟨n, t, hn, hover⟩ := Check.bind_ok.mp ha
    cases hover
    exact ⟨fun m hm hk => n.exists_sighting .fresh m hm hk, (hwalk.ok hn).2⟩
  · intro x s hx
    rcases Check.bind_error.mp hx with hx | ⟨n, t, _, hover⟩
    · exact hwalk.stop hx
    · cases hover

/-- A parameter with the name of a variable at the top, and of another type. -/
def shadowingSample : Program :=
  ⟨[.declaration [] (.global ⟨"int", none, false⟩ "a-b" (.number "1")),
    .declaration [] (.procedure ⟨"void", none, false⟩ "f" [⟨⟨"string", none, false⟩, "a-b"⟩]
      [.print (.path (.mk "a-b" []))])]⟩

/-- The tokens of the sample. -/
def shadowingTokens : List Token :=
  [sampleToken 0 .declare "declare", sampleToken 8 .lbracket "[", sampleToken 9 .ident "int",
    sampleToken 12 .rbracket "]", sampleToken 14 .ident "a-b", sampleToken 18 .colon ":",
    sampleToken 20 .number "1", sampleToken 22 .declare "declare", sampleToken 30 .lbracket "[",
    sampleToken 31 .ident "void", sampleToken 35 .rbracket "]", sampleToken 37 .doubleColon "::",
    sampleToken 40 .ident "f", sampleToken 41 .lparen "(", sampleToken 42 .lbracket "[",
    sampleToken 43 .ident "string", sampleToken 49 .rbracket "]", sampleToken 51 .ident "a-b",
    sampleToken 54 .rparen ")", sampleToken 56 .print "print", sampleToken 62 .ident "a-b",
    sampleToken 66 .endBlock "end", sampleToken 69 .eof ""]

/-- A variable that is read before it is declared. -/
def earlySample : Program :=
  ⟨[.declaration [] (.procedure ⟨"void", none, false⟩ "f" []
    [.print (.path (.mk "c" [])), .declare ⟨"int", none, false⟩ "c" (.number "1")])]⟩

/-- The tokens of the sample. -/
def earlyTokens : List Token :=
  [sampleToken 0 .declare "declare", sampleToken 8 .lbracket "[", sampleToken 9 .ident "void",
    sampleToken 13 .rbracket "]", sampleToken 15 .doubleColon "::", sampleToken 18 .ident "f",
    sampleToken 19 .lparen "(", sampleToken 20 .rparen ")", sampleToken 22 .print "print",
    sampleToken 28 .ident "c", sampleToken 30 .declare "declare", sampleToken 38 .lbracket "[",
    sampleToken 39 .ident "int", sampleToken 42 .rbracket "]", sampleToken 44 .ident "c",
    sampleToken 46 .colon ":", sampleToken 48 .number "1", sampleToken 50 .endBlock "end",
    sampleToken 53 .eof ""]

set_option maxRecDepth 20000 in
/-- Both samples are read. In the one the printed name carries the type of the parameter; the other
    is refused at the name that is not declared yet. -/
theorem references_of_samples :
    (∃ a, Accepted "sample"
        "declare [int] a-b : 1 declare [void] :: f([string] a-b) print a-b end"
        shadowingSample a ∧ ∀ o ∈ a.tree.sightings .fresh, o.Resolved) ∧
    ∃ s, tokenize "sample" "declare [void] :: f() print c declare [int] c : 1 end" =
        .ok earlyTokens ∧
      Program.ofTokens earlyTokens = .ok earlySample ∧
      Check.analyze earlySample.toNode .fresh = .error (.fault (.unresolvedVariable "c")) s ∧
      ∃ o, (earlySample.toNode.sightings .fresh).find? Sighting.undeclared = some o ∧
        o.node.value = "c" := by
  constructor
  · have ht : (tokenize "sample"
        "declare [int] a-b : 1 declare [void] :: f([string] a-b) print a-b end").toOption =
        some shadowingTokens := by decide +kernel
    obtain ⟨a, h⟩ := accepted_of_stages ht
      (show Program.ofTokens _ = .ok shadowingSample by cbv) (by cbv)
    obtain ⟨ts, s, htokens, hp, ha⟩ := id h
    exact ⟨a, h, ((references_resolved htokens hp).1 a s ha).2⟩
  · have ht : (tokenize "sample"
        "declare [void] :: f() print c declare [int] c : 1 end").toOption = some earlyTokens := by
      decide +kernel
    have hp : Program.ofTokens earlyTokens = .ok earlySample := by cbv
    have ha : (Check.analyze earlySample.toNode).abort? Analyzer.fresh =
        some (.fault (.unresolvedVariable "c")) := by cbv
    obtain ⟨s, hr⟩ := Check.error_of_abort? ha
    exact ⟨s, ok_of_toOption ht, hp, hr, (references_resolved (ok_of_toOption ht) hp).2 "c" s hr⟩

end Osclan
