/-
  File:      Osclan/Proofs/Likeness.lean
  Subject:   Trees and states that differ in names or in sizes only.

  Two programs are compared that are alike but for what they are called, or but for the sizes they
  write. A `Likeness` says which names stand for which and whether sizes count, and what must hold
  of the names so that the check cannot tell the two apart: it looks at keys of tables, at the names
  of the types every program knows, at a few words, and at nothing else. All data of the check is
  then compared part by part, and each way of asking a scope or of adding to it is shown to answer
  alike on both sides.

  * `Likeness` -- the comparison of names and its laws;
  * `Label.Like`, `Node.Like` -- trees, where literals and directives are the same on both sides;
  * `Ty.Like`, `Variable.Like`, `Procedure.Like`, `ScopeStack.Like` -- what scopes hold;
  * `Fault.Like`, `Outcome` -- refusals, and results that may be refusals;
  * `recordType_like`, `resultType_like` -- types written in a tree.
-/
import Osclan.Proofs.AnnotationSite
import Osclan.Proofs.ScopeFrame

namespace Osclan

/-! ## 1. Names -/

/-- A way to compare two programs: the names and the written paths that stand for each other, and
    whether sizes have to be the same. The laws say that the check asks nothing of a name that the
    name standing for it would answer otherwise. -/
structure Likeness where
  names : String → String → Prop
  paths : String → String → Prop
  sized : Prop
  key : ∀ {x x' y y' : String}, names x x' → names y y' →
    (Name.mangle x = Name.mangle y ↔ Name.mangle x' = Name.mangle y')
  empty : ∀ {x x' : String}, names x x' → (x = "" ↔ x' = "")
  void : ∀ {x x' : String}, names x x' → isVoid x = isVoid x'
  structWord : ∀ {x x' : String}, names x x' →
    Text.isAsciiWord "struct" x = Text.isAsciiWord "struct" x'
  builtin : ∀ {x x' w : String}, names x x' → w ∈ Ty.builtins.map Ty.name → (x = w ↔ x' = w)
  builtin_self : ∀ {w : String}, w ∈ Ty.builtins.map Ty.name → names w w
  segments : ∀ {p p' : String}, paths p p' → hasSegments p.toList = hasSegments p'.toList

/-! ## 2. Trees -/

/-- Does the text of the label name something declared? A parameter carries a type, the argument of
    a call or of a directive does not. -/
def Label.naming (l : Label) : Bool :=
  match l.kind with
  | .record | .procedure | .call | .typeExpr | .field | .reference | .dynamicOffset => true
  | .argument => l.typeName.isSome
  | _ => false

variable {L : Likeness}

/-- Labels with names that stand for each other; a text that is no name is the same. -/
structure Label.Like (L : Likeness) (l l' : Label) : Prop where
  kind : l'.kind = l.kind
  name : l.naming = true → L.names l.value l'.value
  text : l.naming = false → l'.value = l.value
  typeName : Option.Rel L.names l.typeName l'.typeName
  size : L.sized → l'.size = l.size
  pointer : l'.pointer = l.pointer
  path : Option.Rel L.paths l.path l'.path
  offset : l'.offset = l.offset

/-- Trees of one shape with like labels. -/
inductive Node.Like (L : Likeness) : Node → Node → Prop where
  | mk {l l' : Label} {ns ns' : List Node} : l.Like L l' → List.Forall₂ (Node.Like L) ns ns' →
      Node.Like L ⟨l, ns⟩ ⟨l', ns'⟩

theorem Node.Like.label {n n' : Node} (h : n.Like L n') : n.label.Like L n'.label := by
  cases h with
  | mk hl _ => exact hl

theorem Node.Like.kind {n n' : Node} (h : n.Like L n') : n'.kind = n.kind := h.label.kind

theorem Node.Like.children {n n' : Node} (h : n.Like L n') :
    List.Forall₂ (Node.Like L) n.children n'.children := by
  cases h with
  | mk _ hc => exact hc

/-- The name of a label of a kind that names something. -/
theorem Label.Like.name_of_kind {l l' : Label} (h : l.Like L l') {kind : NodeKind}
    (hk : l.kind = kind)
    (hm : kind ∈ [.record, .procedure, .call, .typeExpr, .field, .reference, .dynamicOffset]) :
    L.names l.value l'.value := by
  apply h.name
  unfold Label.naming
  rw [hk]
  simp only [List.mem_cons, List.not_mem_nil, or_false] at hm
  rcases hm with rfl | rfl | rfl | rfl | rfl | rfl | rfl <;> rfl

/-- The text is the same, or the two are names that stand for each other. -/
theorem Label.Like.value {l l' : Label} (h : l.Like L l') :
    L.names l.value l'.value ∨ l'.value = l.value := by
  cases hn : l.naming with
  | true => exact .inl (h.name hn)
  | false => exact .inr (h.text hn)

/-- The type of a name is written into both labels. -/
theorem Label.Like.typed {l l' : Label} (h : l.Like L l') (hv : L.names l.value l'.value)
    {x x' : String} (hx : L.names x x') :
    ({ l with typeName := some x } : Label).Like L { l' with typeName := some x' } := by
  have hn : ({ l with typeName := some x } : Label).naming = false → l.naming = false := by
    unfold Label.naming
    cases l.kind with
    | argument => exact fun e => absurd e (by simp)
    | _ => exact id
  exact { h with name := fun _ => hv, text := fun e => h.text (hn e), typeName := .some hx }

/-- Related options are both empty, or hold related values. -/
theorem option_rel_cases {α β : Type} {R : α → β → Prop} {a : Option α} {b : Option β}
    (h : Option.Rel R a b) : (a = none ∧ b = none) ∨ ∃ x y, a = some x ∧ b = some y ∧ R x y := by
  cases h with
  | none => exact .inl ⟨rfl, rfl⟩
  | some hr => exact .inr ⟨_, _, rfl, rfl, hr⟩

theorem option_rel_isSome {α β : Type} {R : α → β → Prop} {a : Option α} {b : Option β}
    (h : Option.Rel R a b) : b.isSome = a.isSome := by
  cases h <;> rfl

theorem option_rel_some_iff {x : String} {a b : Option String}
    (h : Option.Rel L.names a b) (hx : x ∈ Ty.builtins.map Ty.name) :
    a = some x ↔ b = some x := by
  cases h with
  | none => exact Iff.rfl
  | some hr => rw [Option.some.injEq, Option.some.injEq, L.builtin hr hx]

/-- **A literal has the same type on both sides.** -/
theorem Node.Like.literalType? {n n' : Node} (h : n.Like L n') :
    literalType? n' = literalType? n := by
  unfold Osclan.literalType?
  rw [h.kind]
  by_cases hk : n.kind = .scalar
  · have hv : n'.value = n.value :=
      h.label.text (by rw [Label.naming, show n.label.kind = _ from hk])
    have ht := option_rel_some_iff h.label.typeName (x := "string") (by decide)
    simp only [if_pos hk, hv, ht]
  · rw [if_neg hk, if_neg hk]

section Lists

variable {ns ns' : List Node}

/-- What is chosen by kinds alone is chosen on both sides. -/
theorem like_filter (h : List.Forall₂ (Node.Like L) ns ns') (p : NodeKind → Bool) :
    List.Forall₂ (Node.Like L) (ns.filter fun n => p n.kind) (ns'.filter fun n => p n.kind) := by
  induction h with
  | nil => exact .nil
  | cons hn _ ih =>
    rw [List.filter_cons, List.filter_cons, hn.kind]
    split
    · exact .cons hn ih
    · exact ih

theorem like_find? (h : List.Forall₂ (Node.Like L) ns ns') (p : NodeKind → Bool) :
    Option.Rel (Node.Like L) (ns.find? fun n => p n.kind) (ns'.find? fun n => p n.kind) := by
  induction h with
  | nil => exact .none
  | cons hn _ ih =>
    rw [List.find?_cons, List.find?_cons, hn.kind]
    split
    · exact .some hn
    · exact ih

theorem like_dropWhile (h : List.Forall₂ (Node.Like L) ns ns') (p : NodeKind → Bool) :
    List.Forall₂ (Node.Like L) (ns.dropWhile fun n => p n.kind)
      (ns'.dropWhile fun n => p n.kind) := by
  induction h with
  | nil => exact .nil
  | cons hn hrest ih =>
    rw [List.dropWhile_cons, List.dropWhile_cons, hn.kind]
    split
    · exact ih
    · exact .cons hn hrest

theorem like_head? (h : List.Forall₂ (Node.Like L) ns ns') :
    Option.Rel (Node.Like L) ns.head? ns'.head? := by
  cases h with
  | nil => exact .none
  | cons hn _ => exact .some hn

theorem like_getElem? (h : List.Forall₂ (Node.Like L) ns ns') (i : Nat) :
    Option.Rel (Node.Like L) ns[i]? ns'[i]? := by
  induction h generalizing i with
  | nil => exact .none
  | cons hn _ ih =>
    cases i with
    | zero => exact .some hn
    | succ i => exact ih i

/-- The literal among like nodes, if there is a node and it is one. -/
theorem like_literal {n n' : Option Node} (h : Option.Rel (Node.Like L) n n') :
    n'.bind literalType? = n.bind literalType? := by
  cases h with
  | none => rfl
  | some hn => exact hn.literalType?

theorem hasUnreachable_like (h : List.Forall₂ (Node.Like L) ns ns') :
    hasUnreachable (statements ns') = hasUnreachable (statements ns) := by
  have hs := like_dropWhile
    (like_filter h fun k => k != .modifier && k != .typeExpr && k != .argument) (· != .ret)
  unfold hasUnreachable statements
  revert hs
  generalize (ns.filter _).dropWhile _ = ms
  generalize (ns'.filter _).dropWhile _ = ms'
  intro hs
  cases hs with
  | nil => rfl
  | cons _ hrest => cases hrest <;> rfl

end Lists

/-! ## 3. Types -/

/-- Entries under names that stand for each other. -/
inductive LikeEntry (L : Likeness) {α : Type} (R : α → α → Prop) :
    String × α → String × α → Prop where
  | mk {x x' : String} {a b : α} : L.names x x' → R a b →
      LikeEntry L R (Name.mangle x, a) (Name.mangle x', b)

/-- Types with like names and like fields, and with one size if sizes count. -/
inductive Ty.Like (L : Likeness) : Ty → Ty → Prop where
  | mk {x x' : String} {a b : UInt64} {fs fs' : List (String × Ty)} : L.names x x' →
      (L.sized → b = a) → List.Forall₂ (LikeEntry L (Ty.Like L)) fs fs' →
      Ty.Like L ⟨x, a, fs⟩ ⟨x', b, fs'⟩

section Tables

variable {α : Type} {R : α → α → Prop} {t t' : Table α} {x x' : String}

/-- **A name finds what the name standing for it finds.** -/
theorem like_lookup (h : List.Forall₂ (LikeEntry L R) t t') (hx : L.names x x') :
    Option.Rel R (t.find? (Name.mangle x)) (t'.find? (Name.mangle x')) := by
  induction h with
  | nil => exact .none
  | cons he _ ih =>
    cases he with
    | @mk y y' _ _ hy hr =>
      rw [Table.find?_cons, Table.find?_cons]
      by_cases hk : Name.mangle x = Name.mangle y
      · rw [if_pos hk, if_pos ((L.key hx hy).mp hk)]
        exact .some hr
      · rw [if_neg hk, if_neg fun e => hk ((L.key hx hy).mpr e)]
        exact ih

theorem like_contains (h : List.Forall₂ (LikeEntry L R) t t') (hx : L.names x x') :
    t'.contains (Name.mangle x') = t.contains (Name.mangle x) :=
  option_rel_isSome (like_lookup h hx)

theorem like_insert (h : List.Forall₂ (LikeEntry L R) t t') (hx : L.names x x') {a b : α}
    (hr : R a b) : List.Forall₂ (LikeEntry L R) (t.insert (Name.mangle x) a)
      (t'.insert (Name.mangle x') b) := by
  induction h with
  | nil => exact .cons (.mk hx hr) .nil
  | cons he hrest ih =>
    cases he with
    | @mk y y' _ _ hy hr' =>
      rw [Table.insert, Table.insert]
      by_cases hk : Name.mangle y = Name.mangle x
      · rw [if_pos hk, if_pos ((L.key hy hx).mp hk)]
        exact .cons (.mk hx hr) hrest
      · rw [if_neg hk, if_neg fun e => hk ((L.key hy hx).mpr e)]
        exact .cons (.mk hy hr') ih

end Tables

namespace Ty

variable {t t' : Ty}

theorem Like.name (h : t.Like L t') : L.names t.name t'.name := by
  cases h with
  | mk hx _ _ => exact hx

theorem Like.size (h : t.Like L t') (hs : L.sized) : t'.size = t.size := by
  cases h with
  | mk _ hz _ => exact hz hs

theorem Like.fields (h : t.Like L t') :
    List.Forall₂ (LikeEntry L (Ty.Like L)) t.fields t'.fields := by
  cases h with
  | mk _ _ hf => exact hf

theorem Like.field? (h : t.Like L t') {x x' : String} (hx : L.names x x') :
    Option.Rel (Ty.Like L) (t.field? x) (t'.field? x') :=
  like_lookup h.fields hx

theorem Like.isComposite (h : t.Like L t') : t'.isComposite = t.isComposite := by
  cases h with
  | mk _ _ hf => cases hf <;> rfl

theorem Like.isNumeric (h : t.Like L t') : t'.isNumeric = t.isNumeric := by
  have hi := L.builtin h.name (w := "int") (by decide)
  have hu := L.builtin h.name (w := "uint") (by decide)
  unfold Ty.isNumeric
  rw [h.isComposite, Bool.beq_eq_decide_eq, Bool.beq_eq_decide_eq, Bool.beq_eq_decide_eq,
    Bool.beq_eq_decide_eq]
  simp only [hi, hu]

mutual

/-- Where sizes count, the sizes of like types are the same. -/
theorem Like.size? (hs : L.sized) : ∀ (t : Ty) {t' : Ty}, t.Like L t' → t'.size? = t.size?
  | ⟨x, a, []⟩, t', h => by
    cases h with
    | mk _ hz hf =>
      cases hf
      rw [Ty.size?, Ty.size?, hz hs]
  | ⟨x, a, f :: fs⟩, t', h => by
    cases h with
    | mk _ _ hf =>
      have hsum := like_sumSizes hs 0 (f :: fs) hf
      cases hf
      rw [Ty.size?, Ty.size?, hsum]

theorem like_sumSizes (hs : L.sized) : ∀ (acc : UInt64) (fs : List (String × Ty))
    {fs' : List (String × Ty)}, List.Forall₂ (LikeEntry L (Ty.Like L)) fs fs' →
    Ty.sumSizes acc fs' = Ty.sumSizes acc fs
  | acc, [], fs', h => by
    cases h
    rfl
  | acc, (k, t) :: rest, fs', h => by
    cases h with
    | cons he hrest =>
      cases he with
      | mk _ ht =>
        have hsize := Like.size? hs t ht
        have hsum := fun acc => like_sumSizes hs acc rest hrest
        simp only [Ty.sumSizes, hsize, hsum]

end

end Ty

/-! ## 4. Scopes -/

/-- Variables of like names and types. -/
structure Variable.Like (L : Likeness) (v v' : Variable) : Prop where
  name : L.names v.name v'.name
  type : v.type.Like L v'.type
  pointer : v'.pointer = v.pointer
  size : L.sized → v'.size = v.size

/-- Procedures of like names, results and parameters. -/
structure Procedure.Like (L : Likeness) (p p' : Procedure) : Prop where
  name : L.names p.name p'.name
  returns : Option.Rel (Ty.Like L) p.returns p'.returns
  params : List.Forall₂ (Variable.Like L) p.params p'.params

/-- Scopes of the same depth with like declarations, in the same order. -/
structure Scope.Like (L : Likeness) (sc sc' : Scope) : Prop where
  depth : sc'.depth = sc.depth
  vars : List.Forall₂ (LikeEntry L (Variable.Like L)) sc.vars sc'.vars
  types : List.Forall₂ (LikeEntry L (Ty.Like L)) sc.types sc'.types
  procs : List.Forall₂ (LikeEntry L (Procedure.Like L)) sc.procs sc'.procs

/-- Stacks of as many scopes, alike one by one. -/
structure ScopeStack.Like (L : Likeness) (st st' : ScopeStack) : Prop where
  root : st.root.Like L st'.root
  inner : List.Forall₂ (Scope.Like L) st.inner st'.inner

/-- The same sort of thing, under like names. -/
structure Redeclared.Like (L : Likeness) (w w' : Redeclared) : Prop where
  entity : w'.entity = w.entity
  name : L.names w.name w'.name

/-- Two outcomes: both good, with like results, or both refused, for like reasons. -/
inductive Outcome {ε α : Type} (E : ε → ε → Prop) (R : α → α → Prop) :
    Except ε α → Except ε α → Prop where
  | ok {a b : α} : R a b → Outcome E R (.ok a) (.ok b)
  | error {e e' : ε} : E e e' → Outcome E R (.error e) (.error e')

theorem Outcome.bind {ε α β : Type} {E : ε → ε → Prop} {R : α → α → Prop} {S : β → β → Prop}
    {r r' : Except ε α} {f f' : α → Except ε β} (h : Outcome E R r r')
    (hf : ∀ a b, R a b → Outcome E S (f a) (f' b)) : Outcome E S (r >>= f) (r' >>= f') := by
  cases h with
  | ok hr => exact hf _ _ hr
  | error he => exact .error he

theorem Outcome.imp {ε α : Type} {E : ε → ε → Prop} {R S : α → α → Prop} {r r' : Except ε α}
    (h : Outcome E R r r') (hi : ∀ a b, R a b → S a b) : Outcome E S r r' := by
  cases h with
  | ok hr => exact .ok (hi _ _ hr)
  | error he => exact .error he

theorem Outcome.map {ε α β : Type} {E : ε → ε → Prop} {R : α → α → Prop} {S : β → β → Prop}
    {r r' : Except ε α} {f : α → β} (h : Outcome E R r r') (hf : ∀ a b, R a b → S (f a) (f b)) :
    Outcome E S (r.map f) (r'.map f) := by
  cases h with
  | ok hr => exact .ok (hf _ _ hr)
  | error he => exact .error he

namespace ScopeStack

variable {st st' : ScopeStack}

/-- The stack of a fresh program is like itself: it has only the types every program knows. -/
theorem like_fresh : ScopeStack.fresh.Like L ScopeStack.fresh := by
  have hentry : ∀ ts : List Ty, (∀ t ∈ ts, t.name ∈ Ty.builtins.map Ty.name ∧ t.fields = []) →
      List.Forall₂ (LikeEntry L (Ty.Like L)) (ts.map fun t => (Name.mangle t.name, t))
        (ts.map fun t => (Name.mangle t.name, t)) := by
    intro ts hts
    induction ts with
    | nil => exact .nil
    | cons t rest ih =>
      obtain ⟨⟨hname, hfields⟩, hrest⟩ := List.forall_mem_cons.mp hts
      rcases t with ⟨name, size, fields⟩
      obtain rfl : fields = [] := hfields
      have hself := L.builtin_self hname
      exact .cons (.mk hself (.mk hself (fun _ => rfl) .nil)) (ih hrest)
  have hbuiltins : ∀ t ∈ Ty.builtins, t.name ∈ Ty.builtins.map Ty.name ∧ t.fields = [] := by
    intro t ht
    refine ⟨List.mem_map_of_mem ht, ?_⟩
    simp only [Ty.builtins, List.mem_cons, List.not_mem_nil, or_false] at ht
    rcases ht with rfl | rfl | rfl <;> rfl
  exact ⟨⟨rfl, .nil, hentry _ hbuiltins, .nil⟩, .nil⟩

theorem Like.scopes (h : st.Like L st') : List.Forall₂ (Scope.Like L) st.scopes st'.scopes :=
  List.rel_append h.inner (.cons h.root .nil)

theorem Like.innermost (h : st.Like L st') : st.innermost.Like L st'.innermost := by
  rcases st with ⟨root, inner⟩
  rcases st' with ⟨root', inner'⟩
  cases h.inner with
  | nil => exact h.root
  | cons hs _ => exact hs

theorem Like.depth (h : st.Like L st') : st'.depth = st.depth := h.innermost.depth

theorem Like.push (h : st.Like L st') : st.push.Like L st'.push := by
  refine ⟨h.root, .cons ⟨?_, .nil, .nil, .nil⟩ h.inner⟩
  rw [h.depth]

theorem Like.modifyInnermost (h : st.Like L st') {f f' : Scope → Scope}
    (hf : ∀ sc sc', sc.Like L sc' → (f sc).Like L (f' sc')) :
    (st.modifyInnermost f).Like L (st'.modifyInnermost f') := by
  rcases st with ⟨root, inner⟩
  rcases st' with ⟨root', inner'⟩
  cases h.inner with
  | nil => exact ⟨hf _ _ h.root, .nil⟩
  | cons hs hrest => exact ⟨h.root, .cons (hf _ _ hs) hrest⟩

theorem Like.host (h : st.Like L st') : st.host.Like L st'.host := by
  unfold ScopeStack.host
  rw [h.depth]
  split
  · exact h.root
  · exact h.innermost

theorem Like.modifyHost (h : st.Like L st') {f f' : Scope → Scope}
    (hf : ∀ sc sc', sc.Like L sc' → (f sc).Like L (f' sc')) :
    (st.modifyHost f).Like L (st'.modifyHost f') := by
  unfold ScopeStack.modifyHost
  rw [h.depth]
  split
  · exact ⟨hf _ _ h.root, h.inner⟩
  · exact h.modifyInnermost hf

/-- **Like scopes take and refuse like variables alike.** -/
theorem Like.declareVariable (h : st.Like L st') {v v' : Variable} (hv : v.Like L v') :
    Outcome (Redeclared.Like L) (ScopeStack.Like L) (st.declareVariable v)
      (st'.declareVariable v') := by
  have hc : st'.innermost.vars.contains v'.mangled = st.innermost.vars.contains v.mangled :=
    like_contains h.innermost.vars hv.name
  unfold ScopeStack.declareVariable
  rw [hc]
  split
  · exact .error ⟨rfl, hv.name⟩
  · refine .ok (h.modifyInnermost fun sc sc' hs => ?_)
    exact ⟨hs.depth, like_insert hs.vars hv.name hv, hs.types, hs.procs⟩

theorem Like.declareType (h : st.Like L st') {t t' : Ty} (ht : t.Like L t') :
    Outcome (Redeclared.Like L) (ScopeStack.Like L) (st.declareType t) (st'.declareType t') := by
  have hc := like_contains h.host.types ht.name
  simp only [ScopeStack.declareType]
  rw [hc]
  split
  · exact .error ⟨rfl, ht.name⟩
  · refine .ok (h.modifyHost fun sc sc' hs => ?_)
    exact ⟨hs.depth, hs.vars, like_insert hs.types ht.name ht, hs.procs⟩

theorem Like.declareProcedure (h : st.Like L st') {p p' : Procedure} (hp : p.Like L p') :
    Outcome (Redeclared.Like L) (ScopeStack.Like L) (st.declareProcedure p)
      (st'.declareProcedure p') := by
  have hc : st'.host.procs.contains p'.mangled = st.host.procs.contains p.mangled :=
    like_contains h.host.procs hp.name
  unfold ScopeStack.declareProcedure
  rw [hc]
  split
  · exact .error ⟨rfl, hp.name⟩
  · refine .ok (h.modifyHost fun sc sc' hs => ?_)
    exact ⟨hs.depth, hs.vars, hs.types, like_insert hs.procs hp.name hp⟩

/-- The first scope that answers is the same on both sides. -/
theorem like_findSome? {α : Type} {R : α → α → Prop} {f f' : Scope → Option α}
    (hf : ∀ sc sc', sc.Like L sc' → Option.Rel R (f sc) (f' sc')) {scs scs' : List Scope}
    (h : List.Forall₂ (Scope.Like L) scs scs') :
    Option.Rel R (scs.findSome? f) (scs'.findSome? f') := by
  induction h with
  | nil => exact .none
  | @cons sc sc' _ _ hs _ ih =>
    rw [List.findSome?_cons, List.findSome?_cons]
    have hr := hf _ _ hs
    revert hr
    generalize f sc = r
    generalize f' sc' = r'
    intro hr
    cases hr with
    | none => exact ih
    | some hr => exact .some hr

variable {x x' : String}

theorem Like.lookupVariable? (h : st.Like L st') (hx : L.names x x') :
    Option.Rel (Variable.Like L) (st.lookupVariable? x) (st'.lookupVariable? x') :=
  like_findSome? (fun _ _ hs => like_lookup hs.vars hx) h.scopes

theorem Like.lookupType? (h : st.Like L st') (hx : L.names x x') :
    Option.Rel (Ty.Like L) (st.lookupType? x) (st'.lookupType? x') :=
  like_findSome? (fun _ _ hs => like_lookup hs.types hx) h.scopes

theorem Like.lookupProcedure? (h : st.Like L st') (hx : L.names x x') :
    Option.Rel (Procedure.Like L) (st.lookupProcedure? x) (st'.lookupProcedure? x') :=
  like_findSome? (fun _ _ hs => like_lookup hs.procs hx) h.scopes

end ScopeStack

/-! ## 5. Refusals and written types -/

/-- Two refusals for one reason, of names that stand for each other. Only what is printed of a size
    may differ besides, and only where sizes do not count. -/
inductive Fault.Like (L : Likeness) : Fault → Fault → Prop where
  | unresolvedVariable {x x' : String} : L.names x x' →
      Fault.Like L (.unresolvedVariable x) (.unresolvedVariable x')
  | unresolvedType {x x' : String} : L.names x x' →
      Fault.Like L (.unresolvedType x) (.unresolvedType x')
  | unresolvedPath {p p' : String} : L.paths p p' ∨ L.names p p' →
      Fault.Like L (.unresolvedPath p) (.unresolvedPath p')
  | unresolvedProcedure {x x' : String} : L.names x x' →
      Fault.Like L (.unresolvedProcedure x) (.unresolvedProcedure x')
  | redeclared {w w' : Redeclared} : w.Like L w' → Fault.Like L (.redeclared w) (.redeclared w')
  | illegalAssignment {t t' : Ty} {source : String} : t.Like L t' →
      Fault.Like L (.illegalAssignment (t.textAs t.size) source)
        (.illegalAssignment (t'.textAs t'.size) source)
  | malformedParameter {x x' : String} : L.names x x' ∨ x' = x →
      Fault.Like L (.malformedParameter x) (.malformedParameter x')
  | untyped {kind : NodeKind} {x x' rest : String} : L.names x x' ∨ x' = x →
      Fault.Like L (.malformedNode kind ("'" ++ (x ++ rest)))
        (.malformedNode kind ("'" ++ (x' ++ rest)))
  | malformedNode {kind : NodeKind} {problem : String} :
      Fault.Like L (.malformedNode kind problem) (.malformedNode kind problem)
  | argumentCount {x x' : String} {expected got : Nat} : L.names x x' →
      Fault.Like L (.argumentCount x expected got) (.argumentCount x' expected got)
  | unreachableCode {x x' : String} : L.names x x' →
      Fault.Like L (.unreachableCode x) (.unreachableCode x')
  | unexpectedReturnValue {x x' : String} : L.names x x' →
      Fault.Like L (.unexpectedReturnValue x) (.unexpectedReturnValue x')
  | missingReturnValue {x x' : String} : L.names x x' →
      Fault.Like L (.missingReturnValue x) (.missingReturnValue x')

section Types

variable {st st' : ScopeStack} {l l' : Label} {ns ns' : List Node}

theorem resolveType_like (h : st.Like L st') {x x' : String} (hx : L.names x x')
    {a b : Option UInt64} (hs : L.sized → b = a) :
    Outcome (Fault.Like L) (Ty.Like L) (resolveType st x a) (resolveType st' x' b) := by
  unfold resolveType
  rcases option_rel_cases (h.lookupType? hx) with ⟨e, e'⟩ | ⟨t, t', e, e', ht⟩
  · rw [e, e']
    exact .error (.unresolvedType hx)
  · rw [e, e']
    cases ht with
    | mk hy hz hf =>
      -- a size may be written on one side only, if sizes do not count
      cases a with
      | none =>
        cases b with
        | none => exact .ok (.mk hy hz hf)
        | some b => exact .ok (.mk hy (fun hsz => absurd (hs hsz) (by simp)) hf)
      | some a =>
        cases b with
        | none => exact .ok (.mk hy (fun hsz => absurd (hs hsz) (by simp)) hf)
        | some b => exact .ok (.mk hy (fun hsz => Option.some.inj (hs hsz)) hf)

/-- A label that is declared with a type has one. -/
theorem declaredType_like (h : st.Like L st') (hl : l.Like L l') :
    Outcome (Fault.Like L) (fun t t' => l.typeName.isSome = true ∧ t.Like L t')
      (declaredType st l) (declaredType st' l') := by
  unfold declaredType
  rcases option_rel_cases hl.typeName with ⟨e, e'⟩ | ⟨x, x', e, e', hx⟩
  · rw [e, e', hl.kind, String.append_assoc, String.append_assoc]
    exact .error (.untyped hl.value)
  · rw [e, e']
    exact (resolveType_like h hx hl.size).imp fun _ _ ht => ⟨rfl, ht⟩

theorem fieldType_like (h : st.Like L st') (hl : l.Like L l')
    (hns : List.Forall₂ (Node.Like L) ns ns') :
    Outcome (Fault.Like L) (Ty.Like L) (fieldType st l ns) (fieldType st' l' ns') := by
  unfold fieldType
  rcases option_rel_cases (like_find? hns (· == .typeExpr)) with ⟨e, e'⟩ | ⟨t, t', e, e', ht⟩
  · rw [e, e', String.append_assoc, String.append_assoc]
    exact .error (.untyped hl.value)
  · have hk : t.kind = .typeExpr := by simpa using List.find?_some e
    rw [e, e']
    exact resolveType_like h (ht.label.name_of_kind hk (by decide)) ht.label.size

theorem addField_like {t t' : Table Ty} (h : List.Forall₂ (LikeEntry L (Ty.Like L)) t t')
    {x x' : String} (hx : L.names x x') {type type' : Ty} (ht : type.Like L type') :
    Outcome (Fault.Like L) (List.Forall₂ (LikeEntry L (Ty.Like L))) (addField t x type)
      (addField t' x' type') := by
  have hc := like_contains h hx
  simp only [addField]
  rw [hc]
  split
  · exact .error (.redeclared ⟨rfl, hx⟩)
  · exact .ok (like_insert h hx ht)

mutual

/-- **Like records have like types.** -/
theorem recordType_like (h : st.Like L st') : ∀ (n : Node) {n' : Node}, n.Like L n' →
    n.kind = .record →
    Outcome (Fault.Like L) (Ty.Like L) (recordType st n) (recordType st' n')
  | ⟨l, ns⟩, n', hn, hk => by
    cases hn with
    | mk hl hns =>
      have hfields := recordFields_like h ns .nil hns
      unfold recordType
      refine hfields.bind fun fs fs' hf => ?_
      exact .ok (.mk (hl.name_of_kind hk (by decide)) (fun _ => rfl) hf)

theorem recordFields_like (h : st.Like L st') : ∀ (ns : List Node) {ns' : List Node}
    {t t' : Table Ty}, List.Forall₂ (LikeEntry L (Ty.Like L)) t t' →
    List.Forall₂ (Node.Like L) ns ns' →
    Outcome (Fault.Like L) (List.Forall₂ (LikeEntry L (Ty.Like L))) (recordFields st t ns)
      (recordFields st' t' ns')
  | [], _, t, t', ht, hns => by
    cases hns
    exact .ok ht
  | ⟨l, children⟩ :: rest, _, t, t', ht, hns => by
    cases hns with
    | cons hn hrest =>
      have hrecord := recordType_like h ⟨l, children⟩ hn
      cases hn with
      | mk hl hc =>
        have hnext : ∀ u u' : Table Ty, List.Forall₂ (LikeEntry L (Ty.Like L)) u u' →
            Outcome (Fault.Like L) (List.Forall₂ (LikeEntry L (Ty.Like L))) (recordFields st u rest)
              (recordFields st' u' _) := fun u u' hu => recordFields_like h rest hu hrest
        unfold recordFields
        rw [hl.kind]
        cases hk : l.kind with
        | field =>
          refine (fieldType_like h hl hc).bind fun type type' htype => ?_
          exact (addField_like ht (hl.name_of_kind hk (by decide)) htype).bind hnext
        | record =>
          refine (hrecord hk).bind fun type type' htype => ?_
          exact (addField_like ht (hl.name_of_kind hk (by decide)) htype).bind hnext
        | _ => exact hnext t t' ht

end

/-- What a procedure returns, if it returns something, is alike. -/
theorem resultType_like (h : st.Like L st') (hl : l.Like L l')
    (hns : List.Forall₂ (Node.Like L) ns ns') :
    Outcome (Fault.Like L) (Option.Rel (Ty.Like L)) (resultType st l ns)
      (resultType st' l' ns') := by
  unfold resultType
  rcases option_rel_cases (like_head? hns) with ⟨e, e'⟩ | ⟨t, t', e, e', ht⟩
  · rw [e, e', String.append_assoc, String.append_assoc]
    exact .error (.untyped hl.value)
  · simp only [e, e', ht.kind]
    by_cases hk : t.kind = .typeExpr
    · have hx := ht.label.name_of_kind hk (by decide)
      have hvoid : isVoid t'.value = isVoid t.value := (L.void hx).symm
      simp only [if_pos hk, hvoid]
      split
      · exact .ok .none
      · exact (resolveType_like h hx ht.label.size).map fun _ _ hr => .some hr
    · simp only [if_neg hk, String.append_assoc]
      exact .error (.untyped hl.value)

end Types

end Osclan
