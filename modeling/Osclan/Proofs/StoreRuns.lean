/-
  File:      Osclan/Proofs/StoreRuns.lean
  Subject:   The literals that a walk stores, up to values.

  A step of the check is said to make the writes it should: if it gives a result, every write that is
  checked has a slot and is legal, and the warnings that were added are those of the writes, in
  their order; if it stops at an illegal assignment, that is the first illegal one among them.
  Writes are the entries of a ledger, whose rules say how this composes. Values declare nothing, so
  that for them the scopes stay as they are.

  * `writeLedger`, `Check.Stores` -- a step and the writes it makes;
  * `Stores.assign`, `Stores.assignLiteral` -- the steps that store something;
  * `Path.checked`, `Value.checked` -- paths and values.
-/
import Osclan.Proofs.AnnotationSite
import Osclan.Proofs.SlotLookup
import Osclan.Proofs.Tracking

namespace Osclan

/-! ## 1. Steps that store literals -/

namespace Write

variable {w : Write}

/-- If the write is checked, it has a slot and is not illegal. -/
def IsLegal (w : Write) : Prop :=
  w.isExempt = false → w.store.dest.isSome = true ∧ w.store.isIllegal = false

/-- The write is checked, and illegal. -/
def isRefused (w : Write) : Bool := !w.isExempt && w.store.isIllegal

/-- The warnings of some writes: one for each that is checked and loses something. -/
def losses (ws : List Write) : List Warning :=
  (ws.filter fun w => !w.isExempt && w.store.loses).map fun w => w.store.warning

theorem losses_append (ws more : List Write) : losses (ws ++ more) = losses ws ++ losses more := by
  rw [losses, List.filter_append, List.map_append]
  rfl

theorem losses_of_exempt (h : w.isExempt = true) : losses [w] = [] := by
  rw [losses, List.filter_cons_of_neg (by simp [h])]
  rfl

theorem losses_of_checked (h : w.isExempt = false) :
    losses [w] = if w.store.loses then [w.store.warning] else [] := by
  rw [losses, List.filter_singleton, h, Bool.not_false, Bool.true_and]
  cases w.store.loses <;> rfl

theorem IsLegal.of_exempt (h : w.isExempt = true) : w.IsLegal := by
  intro hchecked
  rw [h] at hchecked
  cases hchecked

theorem IsLegal.not_refused (h : w.IsLegal) : w.isRefused = false := by
  unfold isRefused
  cases he : w.isExempt with
  | true => rfl
  | false => exact (h he).2

end Write

/-- The literals that a walk stores. One that is checked and illegal stops it. Of those that are
    passed, the walk has warned if they lose something. -/
def writeLedger : Ledger Write (String × String) where
  stops := Write.isRefused
  tells w := (w.store.destText, w.store.sourceText)
  fault k := .illegalAssignment k.1 k.2
  passed ws before after := (∀ w ∈ ws, w.IsLegal) ∧ after = before ++ Write.losses ws
  fault_inj h := Prod.ext (Fault.illegalAssignment.inj h).1 (Fault.illegalAssignment.inj h).2
  fault_typing _ := rfl
  passed_nil _ := ⟨fun _ hw => absurd hw List.not_mem_nil, (List.append_nil _).symm⟩
  passed_append hxs hys := by
    refine ⟨List.forall_mem_append.mpr ⟨hxs.1, hys.1⟩, ?_⟩
    rw [hys.2, hxs.2, Write.losses_append, List.append_assoc]
  none_stops h := List.find?_eq_none.mpr fun w hw => by simp [(h.1 w hw).not_refused]

/-- The step makes the given writes, in this order. If it gives a result, all of them are legal,
    the warnings are those there were and theirs, and result and state are as said. If it stops at
    an illegal assignment, that is the first of them that is refused. -/
abbrev Check.Stores {α : Type} (step : Check α) (s : Analyzer) (ws : List Write)
    (post : α → Analyzer → Prop) : Prop :=
  step.Accounts writeLedger s ws post

theorem Check.Stores.stop {α : Type} {step : Check α} {s s' : Analyzer} {ws : List Write}
    {post : α → Analyzer → Prop} {dest source : String} (h : step.Stores s ws post)
    (e : step s = .error (.fault (.illegalAssignment dest source)) s') :
    ∃ w, ws.find? Write.isRefused = some w ∧ w.store.destText = dest ∧
      w.store.sourceText = source := by
  obtain ⟨w, hw, ht⟩ := Check.Runs.stop h e (dest, source) rfl
  exact ⟨w, hw, congrArg Prod.fst ht, congrArg Prod.snd ht⟩

/-! ## 2. The steps that store -/

/-- The type of a literal. -/
def Literal.type (x : Literal) : Ty := .elementary x.typeName x.size

theorem Literal.isString_type (x : Literal) : x.type.isString = x.isText := by
  cases x <;> rfl

section

variable {t : Slot} {ty : Ty} {s : Analyzer} {form : StoreForm} {isPointer : Bool}

/-- **What the check refuses is an illegal store.** -/
theorem Slot.HasType.accepts_illegal (h : t.HasType ty) (x : Literal) :
    ty.accepts x.type = .illegal ↔ Store.isIllegal ⟨some t, x⟩ = true := by
  rw [Check.accepts_illegal_iff, x.isString_type, h.isNumeric]
  exact (Bool.and_eq_true _ _).symm.to_iff

theorem Slot.HasType.accepts_loss (h : t.HasType ty) {x : Literal}
    (hlegal : Store.isIllegal ⟨some t, x⟩ = false) :
    ty.accepts x.type = .lossOfInformation ↔ Store.loses ⟨some t, x⟩ = true := by
  have hi : (x.type.isString && ty.isNumeric) = false := by
    rw [x.isString_type, h.isNumeric]
    exact hlegal
  have hx : x.type.isComposite = false := rfl
  have hsize : x.type.size = x.size := rfl
  rw [Ty.accepts, hi, hx, h.isComposite, h.size, hsize]
  cases ht : t.isElementary with
  | false => simp [Store.loses, ht]
  | true => simp [Store.loses, ht]

theorem Slot.HasType.destText (h : t.HasType ty) (x : Literal) :
    ty.textAs ty.size = Store.destText ⟨some t, x⟩ := by
  rw [Ty.textAs, h.name, h.size]
  rfl

/-- **What the check warns of is a store that loses something.** -/
theorem Slot.HasType.lossOf (h : t.HasType ty) {x : Literal}
    (hlegal : Store.isIllegal ⟨some t, x⟩ = false)
    (hchecked : Write.isExempt ⟨form, isPointer, ⟨some t, x⟩⟩ = false) :
    Check.lossOf ty x.type = Write.losses [⟨form, isPointer, ⟨some t, x⟩⟩] := by
  rw [Check.lossOf, Write.losses_of_checked hchecked, h.destText x]
  by_cases hl : Store.loses ⟨some t, x⟩ = true
  · rw [if_pos ((h.accepts_loss hlegal).mpr hl), if_pos hl]
    rfl
  · rw [if_neg fun e => hl ((h.accepts_loss hlegal).mp e), if_neg hl]

/-- **An assignment makes one write.** -/
theorem Check.Stores.assign (h : t.HasType ty) (x : Literal)
    (hchecked : Write.isExempt ⟨form, isPointer, ⟨some t, x⟩⟩ = false) :
    Check.Stores (Check.assign ty x.type) s [⟨form, isPointer, ⟨some t, x⟩⟩] fun _ u =>
      u.scopes = s.scopes := by
  by_cases hi : Store.isIllegal ⟨some t, x⟩ = true
  · have hrefused : Write.isRefused ⟨form, isPointer, ⟨some t, x⟩⟩ = true := by
      rw [Write.isRefused, hchecked]
      exact hi
    rw [Check.assign_of_refused ((h.accepts_illegal x).mpr hi), h.destText x]
    exact Check.Accounts.stopped (L := writeLedger) hrefused
  · have hlegal := eq_false_of_ne_true hi
    have hrun := Check.assign_of_legal (fun e => hi ((h.accepts_illegal x).mp e)) s
    rw [h.lossOf hlegal hchecked] at hrun
    constructor
    · intro _ u e
      rw [hrun] at e
      cases e
      exact ⟨⟨List.forall_mem_singleton.mpr fun _ => ⟨rfl, hlegal⟩, rfl⟩, rfl⟩
    · intro _ u e
      rw [hrun] at e
      cases e

/-- A value is stored if it is a literal, and checked unless the way of storing it spares the
    pointer it goes to. -/
theorem Check.Stores.assignLiteral (h : t.HasType ty) {pointer : Bool}
    (hpointer : (isPointer && form.sparesPointers) = pointer) (v : Value) :
    Check.Stores (Check.assignLiteral ty pointer (v.literal?.map Literal.type)) s
      (v.writeIn form isPointer (some t)) fun _ u => u.scopes = s.scopes := by
  unfold Value.writeIn
  cases v.literal? with
  | none => exact .pure rfl
  | some x =>
    have hexempt : Write.isExempt ⟨form, isPointer, ⟨some t, x⟩⟩ = pointer := hpointer
    cases pointer with
    | true =>
      refine Check.Accounts.cons ⟨List.forall_mem_singleton.mpr (.of_exempt hexempt), ?_⟩ (.pure rfl)
      rw [Write.losses_of_exempt hexempt, List.append_nil]
    | false => exact .assign h x hexempt

end

/-! ## 3. Literals among nodes -/

/-- The literal that a value is has the type of its node. -/
theorem Value.literalType?_toNode (v : Value) :
    literalType? v.toNode = v.literal?.map Literal.type := by
  cases v with
  | path p =>
    rcases p with ⟨base, segments⟩
    rw [Value.toNode, Path.toNode]
    rfl
  | anon members =>
    rw [Value.toNode]
    rfl
  | call name args =>
    rw [Value.toNode]
    rfl
  | _ => rfl

theorem literalType?_unresolved (n : Node) : literalType? n.unresolved = literalType? n := by
  rcases n with ⟨l, children⟩
  by_cases hk : (Node.mk l children).kind = .scalar
  · have hk' : l.kind ∉ resolvingKinds := by
      rw [show l.kind = _ from hk]
      decide
    rw [unresolved_mk hk']
    rfl
  · have hk' : (Node.unresolved ⟨l, children⟩).kind ≠ .scalar := by
      rw [unresolved_kind]
      exact hk
    rw [literalType?, if_neg hk', literalType?, if_neg hk]

/-- A value is as much of a literal behind the walk as in front of it. -/
theorem Value.literalType?_visit {v : Value} {n : Node} {s s' : Analyzer}
    (h : visit v.toNode s = .ok n s') : literalType? n = v.literal?.map Literal.type := by
  rw [← literalType?_unresolved, visit_unresolved _ v.aimed_toNode h, literalType?_unresolved,
    v.literalType?_toNode]

/-- The type of the literal that an argument hands over. -/
def Node.handedOver (n : Node) : Option Ty := n.children.head?.bind literalType?

theorem handedOver_unresolved {n : Node} (hk : n.kind = .argument) :
    n.unresolved.handedOver = n.handedOver := by
  rcases n with ⟨l, children⟩
  have hk' : l.kind ∉ resolvingKinds := by
    rw [show l.kind = _ from hk]
    decide
  rw [unresolved_mk hk']
  cases children with
  | nil => rfl
  | cons n rest =>
    rw [Node.unresolvedAll]
    exact literalType?_unresolved n

theorem handedOver_argument (v : Value) :
    Node.handedOver ⟨{ kind := .argument }, [v.toNode]⟩ = v.literal?.map Literal.type :=
  v.literalType?_toNode

/-- The arguments of a call hand over what they did before they were walked. -/
theorem handedOver_of_unresolved : ∀ {args : List Value} {ns : List Node},
    Node.unresolvedAll ns = Node.unresolvedAll (Value.argNodes args) →
    (ns.filter (·.kind == .argument)).map Node.handedOver =
      args.map fun v => v.literal?.map Literal.type
  | [], [], _ => rfl
  | [], n :: ns, h => by
    rw [Value.argNodes, Node.unresolvedAll, Node.unresolvedAll] at h
    cases h
  | v :: args, [], h => by
    rw [Value.argNodes, Node.unresolvedAll, Node.unresolvedAll] at h
    cases h
  | v :: args, n :: ns, h => by
    rw [Value.argNodes, Node.unresolvedAll, Node.unresolvedAll] at h
    obtain ⟨hn, hns⟩ := List.cons.inj h
    have hk : n.kind = .argument := by
      rw [← unresolved_kind, hn, unresolved_kind]
      rfl
    have hover : n.handedOver = v.literal?.map Literal.type := by
      rw [← handedOver_unresolved hk, hn, handedOver_unresolved rfl, handedOver_argument]
    rw [List.filter_cons_of_pos (by rw [hk]; rfl), List.map_cons, List.map_cons, hover,
      handedOver_of_unresolved hns]

/-- **The literals among the arguments are stored in the parameters.** -/
theorem assignArguments_stores {params : List (Slot × Bool)} {vs : List Variable}
    (h : List.Forall₂ (fun q v => q.1.HasType v.type ∧ v.pointer = q.2) params vs) :
    ∀ {args : List Value} {ns : List Node} (s : Analyzer),
    ns.map Node.handedOver = (args.map fun v => v.literal?.map Literal.type) →
    ns.length = vs.length →
    (assignArguments vs ns).Stores s (Value.writesInto params args) fun _ u =>
      u.scopes = s.scopes := by
  induction h with
  | nil =>
    intro args ns s hover hlen
    obtain rfl := List.length_eq_zero_iff.mp hlen
    obtain rfl := List.map_eq_nil_iff.mp hover.symm
    exact .pure rfl
  | @cons q v params vs hv _ ih =>
    intro args ns s hover hlen
    match ns, args with
    | [], _ => cases hlen
    | _ :: _, [] => cases hover
    | n :: ns, a :: args =>
      rw [List.map_cons, List.map_cons] at hover
      obtain ⟨hn, hns⟩ := List.cons.inj hover
      rw [Value.writesInto]
      unfold assignArguments
      rw [show n.children.head?.bind literalType? = _ from hn, hv.2]
      refine (Check.Stores.assignLiteral hv.1 (Bool.and_true q.2) a).bind fun _ t ht => ?_
      exact (ih t hns (Nat.succ.inj hlen)).imp fun _ u hu => hu.trans ht

/-! ## 4. Paths -/

section

variable {d : Decls}

/-- **A name resolves to its slot**, and the fields below it lead on as they do from the slot. -/
theorem resolve_stores {l : Label} {children : List Node} {s : Analyzer}
    {next : Slot → Option Slot} (hn : Name.Plain l.value) (h : Knows s.scopes d)
    (hc : ∀ {t : Slot} {ty : Ty}, t.HasType ty →
      (resolveFields ty ty children).Stores s [] fun r u =>
        u.scopes = s.scopes ∧ ∃ t', next t = some t' ∧ t'.HasType r.2) :
    (resolve ⟨l, children⟩).Stores s [] fun r u =>
      u.scopes = s.scopes ∧ r.1.label.pointer = l.pointer ∧
        ∃ t, (d.slotOf? l.value).bind next = some t ∧ t.HasType r.2 := by
  unfold resolve
  refine .bind_scopes ?_
  have hrel := h.vars hn
  generalize d.slotOf? l.value = found at hrel ⊢
  generalize s.scopes.lookupVariable? l.value = declared at hrel ⊢
  cases hrel with
  | none => exact .refuse fun _ => Fault.noConfusion
  | @some t v ht =>
    refine (hc ht).bind_last ?_
    intro r w hpost
    obtain ⟨children', leaf⟩ := r
    obtain ⟨hw, hleaf⟩ := hpost
    exact .pure ⟨hw, rfl, hleaf⟩

/-- A node below a field that is an offset is resolved for itself. -/
theorem resolveFields_offset {n : Node} (hk : n.kind = .dynamicOffset) (parent leaf : Ty)
    (rest : List Node) :
    resolveFields parent leaf (n :: rest) = (do
      let r ← resolve n
      let out ← resolveFields parent leaf rest
      return (r.1 :: out.1, out.2)) := by
  rcases n with ⟨l, children⟩
  have hk' : l.kind = .dynamicOffset := hk
  rw [resolveFields]
  simp only [hk']

/-- One field of a path, and what follows it. -/
theorem resolveFields_stores {l : Label} {below : List Node} {s : Analyzer}
    {t : Slot} {ty : Ty} {next : Slot → Option Slot} (hn : Name.Plain l.value) (ht : t.HasType ty)
    (hk : l.kind = .field)
    (hc : ∀ {t : Slot} {ty : Ty}, t.HasType ty →
      (resolveFields ty ty below).Stores s [] fun r u =>
        u.scopes = s.scopes ∧ ∃ t', next t = some t' ∧ t'.HasType r.2) :
    (resolveFields ty ty [⟨l, below⟩]).Stores s [] fun r u =>
      u.scopes = s.scopes ∧ ∃ t', (t.field? l.value).bind next = some t' ∧ t'.HasType r.2 := by
  unfold resolveFields
  simp only [hk]
  have hrel := ht.field hn
  generalize t.field? l.value = found at hrel ⊢
  generalize ty.field? l.value = type at hrel ⊢
  cases hrel with
  | none => exact .refuse fun _ => Fault.noConfusion
  | @some u fty hfield =>
    refine (hc hfield).bind_last ?_
    intro r w hpost
    obtain ⟨children, leaf⟩ := r
    obtain ⟨hw, hleaf⟩ := hpost
    unfold resolveFields
    rw [pure_bind]
    exact .pure ⟨hw, hleaf⟩

mutual

/-- **A path leads to its slot.** -/
theorem Path.checked : ∀ (p : Path) {kind : NodeKind},
    kind = .reference ∨ kind = .dynamicOffset → (p.toNode kind).Named Name.Plain →
    ∀ {s : Analyzer}, Knows s.scopes d →
    (resolve (p.toNode kind)).Stores s [] fun r u =>
      u.scopes = s.scopes ∧ r.1.label.pointer = false ∧
        ∃ t, d.slotAt? p = some t ∧ t.HasType r.2
  | .mk base segments, kind, hk, hn, s, h => by
    have hsegments := Segment.checkedAll segments base
    rw [Path.toNode] at hn ⊢
    have hbase : Name.Plain base := hn.plain (by rcases hk with rfl | rfl <;> rfl)
    exact resolve_stores hbase h fun ht => hsegments hn.children h ht

theorem Segment.checkedAll : ∀ (segments : List Segment) (before : String),
    (∀ n ∈ Segment.toNodes before segments, n.Named Name.Plain) →
    ∀ {s : Analyzer} {t : Slot} {ty : Ty}, Knows s.scopes d → t.HasType ty →
    (resolveFields ty ty (Segment.toNodes before segments)).Stores s [] fun r u =>
      u.scopes = s.scopes ∧ ∃ t', t.follow? segments = some t' ∧ t'.HasType r.2
  | [], before, _, s, t, ty, h, ht => by
    rw [Segment.toNodes]
    unfold resolveFields
    exact .pure ⟨rfl, t, rfl, ht⟩
  | .fixed name offset :: rest, before, hn, s, t, ty, h, ht => by
    have hrest := Segment.checkedAll rest (joinPath before name)
    rw [Segment.toNodes] at hn ⊢
    have hfield := (List.forall_mem_singleton.mp hn)
    exact resolveFields_stores (hfield.plain rfl) ht rfl fun ht' => hrest hfield.children h ht'
  | .dynamic name offset :: rest, before, hn, s, t, ty, h, ht => by
    have hrest := Segment.checkedAll rest (joinPath before name)
    have hoffset := Path.checked offset (.inr rfl)
    rw [Segment.toNodes] at hn ⊢
    have hfield := (List.forall_mem_singleton.mp hn)
    obtain ⟨hinner, hbelow⟩ := List.forall_mem_cons.mp hfield.children
    refine resolveFields_stores (hfield.plain rfl) ht rfl fun ht' => ?_
    rw [resolveFields_offset (offset.kind_toNode _)]
    refine .bind_first (hoffset hinner h) ?_
    intro r u hpost
    obtain ⟨hu, _, _⟩ := hpost
    refine (hrest hbelow (h.same hu) ht').bind_last ?_
    intro r w hpost
    obtain ⟨out, leaf⟩ := r
    obtain ⟨hw, hleaf⟩ := hpost
    exact .pure ⟨hw.trans hu, hleaf⟩

end

/-! ## 5. Values -/

/-- The step makes the given stores and leaves the scopes. -/
def Check.StoresOnly {α : Type} (step : Check α) (s : Analyzer) (ws : List Write) : Prop :=
  step.Stores s ws fun _ t => t.scopes = s.scopes

/-- A reference by itself stores nothing. -/
theorem reference_stores {n : Node} {s : Analyzer} (hk : n.kind = .reference)
    (h : (resolve n).StoresOnly s []) : (visit n).StoresOnly s [] := by
  rcases n with ⟨l, children⟩
  have hk' : l.kind = .reference := hk
  unfold visit
  simp only [hk']
  refine Check.Accounts.bind_last h ?_
  intro r t ht
  exact .pure ht

/-- Two parts of a walk that both leave the scopes. -/
theorem visitAll_cons_stores {n : Node} {rest : List Node} {s : Analyzer} {ws more : List Write}
    (h : (visit n).StoresOnly s ws)
    (hrest : ∀ {t : Analyzer}, t.scopes = s.scopes → (visitAll rest).StoresOnly t more) :
    (visitAll (n :: rest)).StoresOnly s (ws ++ more) := by
  unfold visitAll
  refine Check.Accounts.bind h ?_
  intro n' t ht
  refine Check.Accounts.bind_last (hrest ht) ?_
  intro ns u hu
  exact .pure (hu.trans ht)

/-- An argument of a call is its value. -/
theorem argument_stores (value : Value) {s : Analyzer} {ws : List Write}
    (h : (visit value.toNode).StoresOnly s ws) :
    (visit ⟨{ kind := .argument }, [value.toNode]⟩).StoresOnly s ws := by
  have hnone : [value.toNode].filter (·.kind == .typeExpr) = [] :=
    List.filter_eq_nil_iff.mpr fun n hn => by
      rw [List.mem_singleton.mp hn]
      simp [value.kind_ne (.inl rfl)]
  unfold visit
  simp only [hnone, List.length_nil]
  have hone : (visitAll [value.toNode]).StoresOnly s (ws ++ []) := by
    refine visitAll_cons_stores h fun ht => ?_
    unfold visitAll
    exact .pure rfl
  rw [List.append_nil] at hone
  refine Check.Accounts.bind_last hone ?_
  intro ns t ht
  exact .pure ht

/-- **A call stores its literal arguments**, behind the stores inside them. -/
theorem call_stores {name : String} {args : List Value} {s : Analyzer} (hn : Name.Plain name)
    (h : Knows s.scopes d)
    (hargs : (visitAll (Value.argNodes args)).StoresOnly s (Value.writesAll d args)) :
    (visit ⟨{ kind := .call, value := name }, Value.argNodes args⟩).StoresOnly s
      ((Value.call name args).writes d) := by
  rw [Value.writes]
  unfold visit
  simp only
  refine .bind_scopes ?_
  have hrel := h.procs hn
  generalize d.procs.lookup name = sig at hrel ⊢
  generalize s.scopes.lookupProcedure? name = found at hrel ⊢
  cases hrel with
  | none => exact .refuse fun _ => Fault.noConfusion
  | @some sig p hsig =>
    refine (Check.Accounts.with_ok hargs).bind ?_
    intro ns t hpost
    obtain ⟨hvisit, ht⟩ := hpost
    have hu := visitAll_unresolved _ (Value.aimed_argNodes args) hvisit
    unfold checkArguments
    split
    · exact .refuse fun _ => Fault.noConfusion
    · rename_i hlen
      have hover := handedOver_of_unresolved hu
      refine (assignArguments_stores hsig.params t hover (not_not.mp hlen)).bind_last ?_
      intro _ w hw
      exact .pure (hw.trans ht)

mutual

/-- **The stores inside a value.** -/
theorem Value.checked : ∀ (v : Value), v.toNode.Named Name.Plain → ∀ {s : Analyzer},
    Knows s.scopes d → (visit v.toNode).StoresOnly s (v.writes d)
  | .allocate type, _, s, _ => by
    rw [Value.writes, Value.toNode]
    unfold visit
    refine .bind_scopes ?_
    refine .bind_ofExcept (fun _ => declaredType_ne rfl) fun ty _ => ?_
    exact .pure rfl
  | .number digits, _, s, _ => by
    rw [Value.writes, Value.toNode]
    unfold visit
    exact .pure rfl
  | .text content, _, s, _ => by
    rw [Value.writes, Value.toNode]
    unfold visit
    exact .pure rfl
  | .path p, hn, s, h => by
    rw [Value.toNode] at hn ⊢
    rw [Value.writes]
    refine reference_stores (p.kind_toNode _) ?_
    exact (p.checked (.inl rfl) hn h).imp fun _ _ hu => hu.1
  | .pointer name, hn, s, h => by
    rw [Value.toNode] at hn ⊢
    rw [Value.writes]
    refine reference_stores rfl ?_
    have hnext : ∀ {t : Slot} {ty : Ty}, t.HasType ty →
        (resolveFields ty ty []).Stores s [] fun r u =>
          u.scopes = s.scopes ∧ ∃ t', some t = some t' ∧ t'.HasType r.2 := by
      intro t ty ht
      unfold resolveFields
      exact .pure ⟨rfl, t, rfl, ht⟩
    exact (resolve_stores (hn.plain rfl) h hnext).imp fun _ _ hu => hu.1
  | .anon members, hn, s, h => by
    have hmembers := Member.checkedAll members
    rw [Value.toNode] at hn ⊢
    rw [Value.writes]
    unfold visit
    refine .inScope ((hmembers hn.children h.push).bind_last ?_)
    intro ns t ht
    -- a record without a name declares nothing
    have hnone : declareRecord ⟨{ kind := .record }, ns⟩ = pure () := rfl
    rw [hnone, pure_bind]
    exact .pure (Check.leave_push ht)
  | .call name args, hn, s, h => by
    have hargs := Value.checkedArgs args
    rw [Value.toNode] at hn ⊢
    exact call_stores (hn.plain rfl) h (hargs hn.children h)

/-- A member of an anonymous record is no store, only its value may hold some. -/
theorem Member.checkedAll : ∀ (members : List Member),
    (∀ n ∈ Member.toNodes members, n.Named Name.Plain) → ∀ {s : Analyzer}, Knows s.scopes d →
    (visitAll (Member.toNodes members)).StoresOnly s (Member.writes d members)
  | [], _, s, _ => by
    rw [Member.writes, Member.toNodes]
    unfold visitAll
    exact .pure rfl
  | .mk name value :: rest, hn, s, h => by
    have hvalue := Value.checked value
    have hrest := Member.checkedAll rest
    rw [Member.toNodes] at hn ⊢
    rw [Member.writes]
    obtain ⟨hfirst, hothers⟩ := List.forall_mem_cons.mp hn
    have hnamed := hfirst.children value.toNode (List.mem_cons_of_mem _ List.mem_cons_self)
    refine visitAll_cons_stores ?_ fun hst => hrest hothers (h.same hst)
    unfold visit
    refine (hvalue hnamed h).bind_last ?_
    intro n t ht
    exact .pure ht

theorem Value.checkedArgs : ∀ (args : List Value),
    (∀ n ∈ Value.argNodes args, n.Named Name.Plain) → ∀ {s : Analyzer}, Knows s.scopes d →
    (visitAll (Value.argNodes args)).StoresOnly s (Value.writesAll d args)
  | [], _, s, _ => by
    rw [Value.writesAll, Value.argNodes]
    unfold visitAll
    exact .pure rfl
  | value :: rest, hn, s, h => by
    have hvalue := Value.checked value
    have hrest := Value.checkedArgs rest
    rw [Value.argNodes] at hn ⊢
    rw [Value.writesAll]
    obtain ⟨hfirst, hothers⟩ := List.forall_mem_cons.mp hn
    have hnamed := hfirst.children value.toNode List.mem_cons_self
    refine visitAll_cons_stores ?_ fun hst => hrest hothers (h.same hst)
    exact argument_stores value (hvalue hnamed h)

end

end

end Osclan
