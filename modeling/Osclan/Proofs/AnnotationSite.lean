/-
  File:      Osclan/Proofs/AnnotationSite.lean
  Subject:   Where a walk writes type names.

  A reference and the variable that a declaration declares are nodes of one kind, and so are the
  fields of a path, of a record and of an anonymous record. The walk writes types to references and
  to the fields of their paths only. This is said by a second view of trees: `unresolved` takes off
  what resolving may write and leaves all other labels whole, and a good walk keeps the view.

  * `Node.unresolved` -- the tree without the types of its references and their paths;
  * `Node.settled` -- the labels of what is declared, allocated or written out;
  * `Node.aimed` -- trees whose assignments and declarations have targets of the right kinds;
  * `visit_unresolved`, `Program.aimed_toNode` -- the walk, and the trees of programs;
  * `analyze_annotates` -- the main result.
-/
import Osclan.Proofs.Acceptance
import Osclan.Proofs.Annotation

namespace Osclan

/-! ## 1. Trees without the types of references -/

mutual

/-- The tree without what resolving writes: the type names of references, of offsets and of the
    fields of their paths. The target of a declaration is no reference. -/
def Node.unresolved : Node → Node
  | ⟨l, children⟩ =>
    match l.kind with
    | .reference | .dynamicOffset => ⟨l.untyped, Node.unresolvedPath children⟩
    | .declaration =>
      match children with
      | [] => ⟨l, []⟩
      | target :: rest => ⟨l, target :: Node.unresolvedAll rest⟩
    | _ => ⟨l, Node.unresolvedAll children⟩

/-- Some trees without what resolving writes. -/
def Node.unresolvedAll : List Node → List Node
  | [] => []
  | n :: rest => n.unresolved :: Node.unresolvedAll rest

/-- The nodes below a reference or below a field of its path. -/
def Node.unresolvedPath : List Node → List Node
  | [] => []
  | ⟨l, children⟩ :: rest =>
    match l.kind with
    | .field => ⟨l.untyped, Node.unresolvedPath children⟩ :: Node.unresolvedPath rest
    | _ => Node.unresolved ⟨l, children⟩ :: Node.unresolvedPath rest

end

/-- The kinds of nodes that are treated in a way of their own. -/
def resolvingKinds : List NodeKind := [.reference, .dynamicOffset, .declaration]

theorem unresolved_mk {l : Label} (hk : l.kind ∉ resolvingKinds) (children : List Node) :
    Node.unresolved ⟨l, children⟩ = ⟨l, Node.unresolvedAll children⟩ := by
  unfold Node.unresolved
  simp only [resolvingKinds, List.mem_cons, List.not_mem_nil, or_false, not_or] at hk
  split
  · exact absurd ‹_› hk.1
  · exact absurd ‹_› hk.2.1
  · exact absurd ‹_› hk.2.2
  · rfl

/-- Children without the same types make nodes without the same types. -/
theorem unresolved_congr {l : Label} (hk : l.kind ∉ resolvingKinds) {children children' : List Node}
    (h : Node.unresolvedAll children' = Node.unresolvedAll children) :
    Node.unresolved ⟨l, children'⟩ = Node.unresolved ⟨l, children⟩ := by
  rw [unresolved_mk hk, unresolved_mk hk, h]

theorem unresolved_reference {l : Label} (hk : l.kind = .reference ∨ l.kind = .dynamicOffset)
    (children : List Node) :
    Node.unresolved ⟨l, children⟩ = ⟨l.untyped, Node.unresolvedPath children⟩ := by
  unfold Node.unresolved
  rcases hk with hk | hk <;> simp only [hk]

theorem unresolvedPath_field {l : Label} (hk : l.kind = .field) (children rest : List Node) :
    Node.unresolvedPath (⟨l, children⟩ :: rest) =
      ⟨l.untyped, Node.unresolvedPath children⟩ :: Node.unresolvedPath rest := by
  rw [Node.unresolvedPath, hk]

theorem unresolvedPath_other {n : Node} (hk : n.kind ≠ .field) (rest : List Node) :
    Node.unresolvedPath (n :: rest) = n.unresolved :: Node.unresolvedPath rest := by
  rcases n with ⟨l, children⟩
  rw [Node.unresolvedPath]
  split
  · exact absurd ‹_› hk
  · rfl

theorem unresolved_kind (n : Node) : n.unresolved.kind = n.kind := by
  rcases n with ⟨l, children⟩
  unfold Node.unresolved
  repeat' split
  all_goals rfl

/-- What is no field is a node like any other, below a reference too. -/
theorem unresolvedPath_congr {n n' : Node} {rest rest' : List Node} (hk : n.kind ≠ .field)
    (hn : n'.unresolved = n.unresolved)
    (hrest : Node.unresolvedPath rest' = Node.unresolvedPath rest) :
    Node.unresolvedPath (n' :: rest') = Node.unresolvedPath (n :: rest) := by
  have hk' : n'.kind ≠ .field := by
    rw [← unresolved_kind n', hn, unresolved_kind]
    exact hk
  rw [unresolvedPath_other hk, unresolvedPath_other hk', hn, hrest]

/-! ## 2. Labels that name no reference -/

/-- The kinds of nodes that carry a type of their own. -/
def typedKinds : List NodeKind := [.argument, .allocation, .scalar]

mutual

/-- The labels of a tree that carry the type of something declared, allocated or written out: of the
    targets of declarations, of parameters and arguments, of allocations and of literals. -/
def Node.settled : Node → List Label
  | ⟨l, children⟩ =>
    match l.kind with
    | .declaration =>
      match children with
      | [] => []
      | target :: rest => target.label :: Node.settledAll rest
    | _ => (if l.kind ∈ typedKinds then [l] else []) ++ Node.settledAll children

/-- The labels of this sort in some trees. -/
def Node.settledAll : List Node → List Label
  | [] => []
  | n :: rest => n.settled ++ Node.settledAll rest

end

theorem settled_mk {l : Label} (hk : l.kind ≠ .declaration) (children : List Node) :
    Node.settled ⟨l, children⟩ =
      (if l.kind ∈ typedKinds then [l] else []) ++ Node.settledAll children := by
  unfold Node.settled
  split
  · exact absurd ‹_› hk
  · rfl

/-- A node whose label is not settled has only the settled labels below it. -/
theorem settled_skip {l : Label} (hd : l.kind ≠ .declaration) (ht : l.kind ∉ typedKinds)
    (children : List Node) : Node.settled ⟨l, children⟩ = Node.settledAll children := by
  rw [settled_mk hd, if_neg ht, List.nil_append]

mutual

/-- Resolving writes to no settled label. -/
theorem settled_unresolved : ∀ n : Node, n.unresolved.settled = n.settled
  | ⟨l, children⟩ => by
    have hall := settledAll_unresolvedAll children
    have hpath := settledAll_unresolvedPath children
    have hskip : l.kind = .reference ∨ l.kind = .dynamicOffset →
        Node.settled (Node.unresolved ⟨l, children⟩) = Node.settled ⟨l, children⟩ := by
      intro href
      have hd : l.kind ≠ .declaration := by rcases href with h | h <;> rw [h] <;> decide
      have ht : l.kind ∉ typedKinds := by rcases href with h | h <;> rw [h] <;> decide
      have hl : Node.settled ⟨l.untyped, Node.unresolvedPath children⟩ =
          Node.settledAll (Node.unresolvedPath children) := settled_skip (l := l.untyped) hd ht _
      rw [unresolved_reference href, hl, settled_skip hd ht, hpath]
    cases hk : l.kind with
    | reference => exact hskip (.inl hk)
    | dynamicOffset => exact hskip (.inr hk)
    | declaration =>
      cases children with
      | nil => simp only [Node.unresolved, hk]
      | cons target rest =>
        have hrest := settledAll_unresolvedAll rest
        simp only [Node.unresolved, Node.settled, hk, hrest]
    | _ =>
      have hd : l.kind ≠ .declaration := by rw [hk]; decide
      rw [unresolved_mk (by rw [hk]; decide), settled_mk hd, settled_mk hd, hall]

theorem settledAll_unresolvedAll : ∀ ns : List Node,
    Node.settledAll (Node.unresolvedAll ns) = Node.settledAll ns
  | [] => rfl
  | n :: rest => by
    rw [Node.unresolvedAll, Node.settledAll, Node.settledAll, settled_unresolved n,
      settledAll_unresolvedAll rest]

theorem settledAll_unresolvedPath : ∀ ns : List Node,
    Node.settledAll (Node.unresolvedPath ns) = Node.settledAll ns
  | [] => rfl
  | ⟨l, children⟩ :: rest => by
    have hn := settled_unresolved ⟨l, children⟩
    have hpath := settledAll_unresolvedPath children
    have hrest := settledAll_unresolvedPath rest
    by_cases hk : l.kind = .field
    · have hd : l.kind ≠ .declaration := by rw [hk]; decide
      have ht : l.kind ∉ typedKinds := by rw [hk]; decide
      have hl : Node.settled ⟨l.untyped, Node.unresolvedPath children⟩ =
          Node.settledAll (Node.unresolvedPath children) := settled_skip (l := l.untyped) hd ht _
      rw [unresolvedPath_field hk, Node.settledAll, Node.settledAll, hl, settled_skip hd ht, hpath,
        hrest]
    · rw [unresolvedPath_other (n := ⟨l, children⟩) hk, Node.settledAll, Node.settledAll, hn, hrest]

end

/-! ## 3. Targets -/

/-- The node is aimed at something of the right kind: an assignment at a reference or at a member, a
    declaration at the name it declares. -/
def Label.aims (l : Label) (children : List Node) : Bool :=
  match l.kind with
  | .assignment => children.head?.all fun t => t.kind == .reference || t.kind == .field
  | .declaration => children.head?.all (·.kind == .reference)
  | _ => true

mutual

/-- Every assignment and every declaration of the tree has a target of the right kind. -/
def Node.aimed : Node → Bool
  | ⟨l, children⟩ => l.aims children && Node.aimedAll children

/-- Every tree among them is aimed. -/
def Node.aimedAll : List Node → Bool
  | [] => true
  | n :: rest => n.aimed && Node.aimedAll rest

end

theorem aimed_mk {l : Label} {children : List Node} :
    Node.aimed ⟨l, children⟩ = true ↔
      l.aims children = true ∧ Node.aimedAll children = true := by
  rw [Node.aimed, Bool.and_eq_true]

theorem aimedAll_cons {n : Node} {rest : List Node} :
    Node.aimedAll (n :: rest) = true ↔ n.aimed = true ∧ Node.aimedAll rest = true := by
  rw [Node.aimedAll, Bool.and_eq_true]

/-! ## 4. The walk -/

/-- A name whose path keeps its view is resolved to a reference that does. -/
theorem resolve_unresolved {l : Label} {children : List Node} {s s' : Analyzer} {r : Node × Ty}
    (hk : l.kind = .reference ∨ l.kind = .dynamicOffset)
    (hc : ∀ parent leaf {t t' : Analyzer} {r : List Node × Ty},
      resolveFields parent leaf children t = .ok r t' →
        Node.unresolvedPath r.1 = Node.unresolvedPath children)
    (h : resolve ⟨l, children⟩ s = .ok r s') :
    r.1.unresolved = Node.unresolved ⟨l, children⟩ := by
  unfold resolve at h
  simp only [Check.bind_ok, Check.scopes_ok] at h
  obtain ⟨_, _, ⟨rfl, rfl⟩, h⟩ := h
  cases hv : s.scopes.lookupVariable? l.value with
  | none =>
    simp only [hv] at h
    exact absurd h Check.refuse_ok
  | some v =>
    simp only [hv, Check.bind_ok, Check.pure_ok] at h
    obtain ⟨⟨children', _⟩, _, hf, rfl, _⟩ := h
    have hk' : ({ l with typeName := some v.type.name } : Label).kind = .reference ∨
        ({ l with typeName := some v.type.name } : Label).kind = .dynamicOffset := hk
    rw [unresolved_reference hk', unresolved_reference hk, hc _ _ hf]
    rfl

mutual

/-- **A walk writes types to references and their paths only.** -/
theorem visit_unresolved : ∀ (n : Node), n.aimed = true → ∀ {s s' : Analyzer} {n' : Node},
    visit n s = .ok n' s' → n'.unresolved = n.unresolved
  | ⟨l, children⟩, haimed, s, s', n', h => by
    obtain ⟨haims, hc⟩ := aimed_mk.mp haimed
    have hall : l.kind ∉ resolvingKinds → ∀ {t t' : Analyzer} {ns : List Node},
        visitAll children t = .ok ns t' →
        Node.unresolved ⟨l, ns⟩ = Node.unresolved ⟨l, children⟩ :=
      fun hk _ _ _ h => unresolved_congr hk (visitAll_unresolved children hc h)
    unfold visit at h
    cases hk : l.kind with
    | root | directive | field | print =>
      simp only [hk, Check.bind_ok, Check.pure_ok] at h
      obtain ⟨ns, _, hv, rfl, _⟩ := h
      exact hall (by rw [hk]; decide) hv
    | record =>
      simp only [hk, Check.inScope_ok, Check.bind_ok, Check.pure_ok] at h
      obtain ⟨_, ⟨ns, _, hv, _, _, _, rfl, _⟩, _⟩ := h
      exact hall (by rw [hk]; decide) hv
    | procedure =>
      simp only [hk, Check.inScope_ok, Check.bind_ok, Check.pure_ok, Check.inBodyOf_ok] at h
      obtain ⟨_, ⟨_, _, _, _, _, _, ns, _, ⟨_, hv, _⟩, rfl, _⟩, _⟩ := h
      exact hall (by rw [hk]; decide) hv
    | argument =>
      simp only [hk] at h
      rcases hn : (children.filter (·.kind == .typeExpr)).length with _ | _ | k
      · simp only [hn, Check.bind_ok, Check.pure_ok] at h
        obtain ⟨ns, _, hv, rfl, _⟩ := h
        exact hall (by rw [hk]; decide) hv
      · simp only [hn, Check.bind_ok, Check.pure_ok] at h
        obtain ⟨_, _, _, rfl, _⟩ := h
        rfl
      · simp only [hn] at h
        exact absurd h Check.refuse_ok
    | call =>
      simp only [hk, Check.bind_ok, Check.scopes_ok] at h
      obtain ⟨_, _, ⟨rfl, rfl⟩, h⟩ := h
      cases hp : s.scopes.lookupProcedure? l.value with
      | none =>
        simp only [hp] at h
        exact absurd h Check.refuse_ok
      | some p =>
        simp only [hp, Check.bind_ok, Check.pure_ok] at h
        obtain ⟨ns, _, hv, _, _, _, rfl, _⟩ := h
        exact hall (by rw [hk]; decide) hv
    | typeExpr =>
      simp only [hk] at h
      split at h
      · rw [← (Check.pure_ok.mp h).1]
      · simp only [Check.bind_ok, Check.pure_ok] at h
        obtain ⟨_, _, _, _, _, _, rfl, _⟩ := h
        rfl
    | modifier | scalar =>
      simp only [hk] at h
      rw [← (Check.pure_ok.mp h).1]
    | assignment =>
      have hk' : l.kind ∉ resolvingKinds := by rw [hk]; decide
      simp only [Label.aims, hk] at haims
      simp only [hk] at h
      match children, h with
      | [⟨lt, ct⟩, value], h =>
        obtain ⟨htarget, hvalue⟩ := aimedAll_cons.mp hc
        simp only [Check.bind_ok] at h
        obtain ⟨value', _, hv, h⟩ := h
        have ev := visit_unresolved value (aimedAll_cons.mp hvalue).1 hv
        split at h
        · rw [← (Check.pure_ok.mp h).1]
          simp only [unresolved_mk hk', Node.unresolvedAll, ev]
        · rename_i hfield
          have href : lt.kind = .reference ∨ lt.kind = .dynamicOffset := by
            simp only [List.head?_cons, Option.all_some, Node.kind, Bool.or_eq_true,
              beq_iff_eq] at haims
            exact .inl (haims.resolve_right hfield)
          simp only [Check.bind_ok, Check.pure_ok] at h
          obtain ⟨⟨target', _⟩, _, ht, _, _, _, rfl, _⟩ := h
          have et := resolve_unresolved href
            (fun p t => resolveFields_unresolved p t ct (aimed_mk.mp htarget).2) ht
          simp only [unresolved_mk hk', Node.unresolvedAll, ev, et]
      | [], h => exact absurd h Check.refuse_ok
      | [_], h => exact absurd h Check.refuse_ok
      | _ :: _ :: _ :: _, h => exact absurd h Check.refuse_ok
    | declaration =>
      simp only [Label.aims, hk] at haims
      simp only [hk] at h
      match ho : operandsOf children, h with
      | [], h => exact absurd h Check.refuse_ok
      | [_], h => exact absurd h Check.refuse_ok
      | _ :: _ :: _ :: _, h => exact absurd h Check.refuse_ok
      | [_, _], h =>
        simp only [Check.bind_ok, Check.pure_ok] at h
        obtain ⟨ns, _, hv, _, _, _, rfl, _⟩ := h
        cases children with
        | nil => cases ho
        | cons target rest =>
          -- the target is the first operand, so the walk goes on to the next one
          have htarget : target.kind = .reference := by simpa using haims
          have hne : ¬ target.kind = .modifier := by
            rw [htarget]
            decide
          unfold visitOperand at hv
          simp only [if_neg hne, Check.bind_ok, Check.pure_ok] at hv
          obtain ⟨rest', _, hr, rfl, _⟩ := hv
          have er := visitOperand_unresolved 0 rest (aimedAll_cons.mp hc).2 hr
          simp only [Node.unresolved, hk, er]
    | reference | dynamicOffset =>
      simp only [hk, Check.bind_ok, Check.pure_ok] at h
      obtain ⟨⟨n₁, _⟩, _, hr, rfl, _⟩ := h
      have href : l.kind = .reference ∨ l.kind = .dynamicOffset := by simp [hk]
      exact resolve_unresolved href (fun p t => resolveFields_unresolved p t children hc) hr
    | allocation =>
      simp only [hk, Check.bind_ok, Check.pure_ok] at h
      obtain ⟨_, _, _, _, _, _, rfl, _⟩ := h
      rfl
    | ret =>
      simp only [hk, Check.bind_ok, Check.pure_ok] at h
      obtain ⟨ns, _, hv, _, _, _, rfl, _⟩ := h
      exact hall (by rw [hk]; decide) hv

theorem visitAll_unresolved : ∀ (ns : List Node), Node.aimedAll ns = true →
    ∀ {s s' : Analyzer} {ns' : List Node}, visitAll ns s = .ok ns' s' →
    Node.unresolvedAll ns' = Node.unresolvedAll ns
  | [], _, s, s', ns', h => by
    unfold visitAll at h
    rw [← (Check.pure_ok.mp h).1]
  | n :: rest, hc, s, s', ns', h => by
    obtain ⟨hn, hrest⟩ := aimedAll_cons.mp hc
    unfold visitAll at h
    simp only [Check.bind_ok, Check.pure_ok] at h
    obtain ⟨n', _, hv, rest', _, hr, rfl, _⟩ := h
    rw [Node.unresolvedAll, Node.unresolvedAll, visit_unresolved n hn hv,
      visitAll_unresolved rest hrest hr]

theorem visitOperand_unresolved : ∀ (before : Nat) (ns : List Node), Node.aimedAll ns = true →
    ∀ {s s' : Analyzer} {ns' : List Node}, visitOperand before ns s = .ok ns' s' →
    Node.unresolvedAll ns' = Node.unresolvedAll ns
  | _, [], _, s, s', ns', h => by
    unfold visitOperand at h
    rw [← (Check.pure_ok.mp h).1]
  | before, n :: rest, hc, s, s', ns', h => by
    obtain ⟨hn, hrest⟩ := aimedAll_cons.mp hc
    unfold visitOperand at h
    split at h
    · simp only [Check.bind_ok, Check.pure_ok] at h
      obtain ⟨rest', _, hr, rfl, _⟩ := h
      rw [Node.unresolvedAll, Node.unresolvedAll, visitOperand_unresolved before rest hrest hr]
    · cases before with
      | zero =>
        simp only [Check.bind_ok, Check.pure_ok] at h
        obtain ⟨n', _, hv, rfl, _⟩ := h
        rw [Node.unresolvedAll, Node.unresolvedAll, visit_unresolved n hn hv]
      | succ before =>
        simp only [Check.bind_ok, Check.pure_ok] at h
        obtain ⟨rest', _, hr, rfl, _⟩ := h
        rw [Node.unresolvedAll, Node.unresolvedAll, visitOperand_unresolved before rest hrest hr]

theorem resolveFields_unresolved : ∀ (parent leaf : Ty) (ns : List Node),
    Node.aimedAll ns = true → ∀ {s s' : Analyzer} {r : List Node × Ty},
    resolveFields parent leaf ns s = .ok r s' →
    Node.unresolvedPath r.1 = Node.unresolvedPath ns
  | _, _, [], _, s, s', r, h => by
    unfold resolveFields at h
    rw [← (Check.pure_ok.mp h).1]
  | parent, leaf, ⟨l, children⟩ :: rest, hc, s, s', r, h => by
    obtain ⟨hn, hrest⟩ := aimedAll_cons.mp hc
    have hchildren := (aimed_mk.mp hn).2
    have hvisit : ∀ {t t' : Analyzer} {n' : Node}, visit ⟨l, children⟩ t = .ok n' t' →
        n'.unresolved = Node.unresolved ⟨l, children⟩ := fun h => visit_unresolved _ hn h
    unfold resolveFields at h
    cases hk : l.kind with
    | field =>
      simp only [hk] at h
      cases hf : parent.field? l.value with
      | none =>
        simp only [hf] at h
        exact absurd h Check.refuse_ok
      | some type =>
        simp only [hf, Check.bind_ok, Check.pure_ok] at h
        obtain ⟨⟨children', _⟩, _, hc', ⟨rest', _⟩, _, hr, rfl, _⟩ := h
        have ec := resolveFields_unresolved _ _ children hchildren hc'
        have er := resolveFields_unresolved _ _ rest hrest hr
        rw [unresolvedPath_field hk, ← ec, ← er]
        simp only [unresolvedPath_field, Label.untyped, hk]
    | dynamicOffset =>
      simp only [hk, Check.bind_ok, Check.pure_ok] at h
      obtain ⟨⟨n', _⟩, _, hv, ⟨rest', _⟩, _, hr, rfl, _⟩ := h
      have en := resolve_unresolved (.inr hk)
        (fun p t => resolveFields_unresolved p t children hchildren) hv
      exact unresolvedPath_congr (by rw [Node.kind, hk]; decide) en
        (resolveFields_unresolved _ _ rest hrest hr)
    | _ =>
      simp only [hk, Check.bind_ok, Check.pure_ok] at h
      obtain ⟨n', _, hv, ⟨rest', _⟩, _, hr, rfl, _⟩ := h
      exact unresolvedPath_congr (by rw [Node.kind, hk]; decide) (hvisit hv)
        (resolveFields_unresolved _ _ rest hrest hr)

end

/-! ## 5. The trees of programs -/

theorem aimedAll_eq_all : ∀ ns : List Node, Node.aimedAll ns = ns.all Node.aimed
  | [] => rfl
  | n :: rest => by rw [Node.aimedAll, aimedAll_eq_all rest, List.all_cons]

theorem aimedAll_append (ns ms : List Node) :
    Node.aimedAll (ns ++ ms) = (Node.aimedAll ns && Node.aimedAll ms) := by
  rw [aimedAll_eq_all, aimedAll_eq_all, aimedAll_eq_all, List.all_append]

mutual

theorem Path.aimed_toNode {kind : NodeKind} (hk : kind = .reference ∨ kind = .dynamicOffset) :
    ∀ p : Path, (p.toNode kind).aimed = true
  | .mk base segments => by
    have hc := Segment.aimed_toNodes base segments
    rw [Path.toNode]
    rcases hk with rfl | rfl
    · exact aimed_mk.mpr ⟨rfl, hc⟩
    · exact aimed_mk.mpr ⟨rfl, hc⟩

theorem Segment.aimed_toNodes : ∀ (before : String) (segments : List Segment),
    Node.aimedAll (Segment.toNodes before segments) = true
  | _, [] => rfl
  | before, .fixed name offset :: rest => by
    have hc := Segment.aimed_toNodes (joinPath before name) rest
    rw [Segment.toNodes]
    exact aimedAll_cons.mpr ⟨aimed_mk.mpr ⟨rfl, hc⟩, rfl⟩
  | before, .dynamic name offset :: rest => by
    have hc := Segment.aimed_toNodes (joinPath before name) rest
    have ho := Path.aimed_toNode (.inr rfl) offset
    rw [Segment.toNodes]
    exact aimedAll_cons.mpr ⟨aimed_mk.mpr ⟨rfl, aimedAll_cons.mpr ⟨ho, hc⟩⟩, rfl⟩

end

mutual

/-- A value is aimed: the target of a member is a field. -/
theorem Value.aimed_toNode : ∀ v : Value, v.toNode.aimed = true
  | .allocate _ => rfl
  | .number _ => rfl
  | .text _ => rfl
  | .path p => by
    rw [Value.toNode]
    exact p.aimed_toNode (.inl rfl)
  | .pointer _ => rfl
  | .anon members => by
    rw [Value.toNode]
    exact aimed_mk.mpr ⟨rfl, Member.aimed_toNodes members⟩
  | .call name args => by
    rw [Value.toNode]
    exact aimed_mk.mpr ⟨rfl, Value.aimed_argNodes args⟩

theorem Member.aimed_toNodes : ∀ members : List Member,
    Node.aimedAll (Member.toNodes members) = true
  | [] => rfl
  | .mk name value :: rest => by
    have hrest := Member.aimed_toNodes rest
    have hv := Value.aimed_toNode value
    rw [Member.toNodes]
    refine aimedAll_cons.mpr ⟨aimed_mk.mpr ⟨rfl, ?_⟩, hrest⟩
    exact aimedAll_cons.mpr ⟨rfl, aimedAll_cons.mpr ⟨hv, rfl⟩⟩

theorem Value.aimed_argNodes : ∀ args : List Value, Node.aimedAll (Value.argNodes args) = true
  | [] => rfl
  | value :: rest => by
    have hrest := Value.aimed_argNodes rest
    have hv := Value.aimed_toNode value
    rw [Value.argNodes]
    exact aimedAll_cons.mpr ⟨aimed_mk.mpr ⟨rfl, aimedAll_cons.mpr ⟨hv, rfl⟩⟩, hrest⟩

end

/-- A declaration is aimed at the name it declares, whatever stands behind its value. -/
theorem declarationNode_aimed (type : TypeExpr) (name : String) (value : Value)
    {mods : List Node} (hm : Node.aimedAll mods = true) :
    Node.aimed ⟨(declarationNode type name value).label,
      (declarationNode type name value).children ++ mods⟩ = true := by
  refine aimed_mk.mpr ⟨rfl, ?_⟩
  rw [aimedAll_append, hm, Bool.and_true]
  exact aimedAll_cons.mpr ⟨rfl, aimedAll_cons.mpr ⟨value.aimed_toNode, rfl⟩⟩

theorem Statement.aimed_toNode (st : Statement) : st.toNode.aimed = true := by
  cases st with
  | declare type name value =>
    have hnone : Node.aimedAll [] = true := rfl
    have h := declarationNode_aimed type name value hnone
    rwa [List.append_nil] at h
  | assign target value =>
    have ht := target.aimed_toNode (.inl rfl)
    refine aimed_mk.mpr ⟨?_, aimedAll_cons.mpr ⟨ht, aimedAll_cons.mpr ⟨value.aimed_toNode, rfl⟩⟩⟩
    rcases target with ⟨base, segments⟩
    rw [Path.toNode]
    rfl
  | ret value =>
    cases value with
    | none => rfl
    | some v => exact aimed_mk.mpr ⟨rfl, aimedAll_cons.mpr ⟨v.aimed_toNode, rfl⟩⟩
  | print value => exact aimed_mk.mpr ⟨rfl, aimedAll_cons.mpr ⟨value.aimed_toNode, rfl⟩⟩
  | call name args => exact (Value.call name args).aimed_toNode

mutual

theorem Field.aimed_toNode : ∀ (parent : String) (field : Field),
    (field.toNode parent).aimed = true
  | parent, .plain type name => by
    rw [Field.toNode]
    rfl
  | parent, .nested name fields => by
    rw [Field.toNode]
    exact aimed_mk.mpr ⟨rfl, Field.aimed_toNodes (joinPath parent name) fields⟩

theorem Field.aimed_toNodes : ∀ (parent : String) (fields : List Field),
    Node.aimedAll (Field.toNodes parent fields) = true
  | _, [] => rfl
  | parent, field :: rest => by
    rw [Field.toNodes]
    exact aimedAll_cons.mpr ⟨Field.aimed_toNode parent field, Field.aimed_toNodes parent rest⟩

end

/-- Nodes made from a list are aimed if each of them is. -/
theorem aimedAll_map {α : Type} {f : α → Node} (hf : ∀ a, (f a).aimed = true) (as : List α) :
    Node.aimedAll (as.map f) = true := by
  rw [aimedAll_eq_all, List.all_map]
  exact List.all_eq_true.mpr fun a _ => hf a

theorem Item.aimed_toNode (item : Item) : item.toNode.aimed = true := by
  cases item with
  | directive name argument => rfl
  | declaration modifiers declared =>
    have hm : Node.aimedAll (modifiers.map modifierNode) = true :=
      aimedAll_map (fun _ => rfl) modifiers
    cases declared with
    | record name fields =>
      refine aimed_mk.mpr ⟨rfl, ?_⟩
      rw [aimedAll_append, hm, Bool.and_true]
      exact Field.aimed_toNodes name fields
    | procedure returns name params body =>
      have hp : Node.aimedAll (params.map Param.toNode) = true := aimedAll_map (fun _ => rfl) params
      have hb : Node.aimedAll (body.map Statement.toNode) = true :=
        aimedAll_map Statement.aimed_toNode body
      refine aimed_mk.mpr ⟨rfl, ?_⟩
      simp only [Declared.toNode, aimedAll_append, Node.aimedAll, hp, hb, hm]
      rfl
    | «global» type name value => exact declarationNode_aimed type name value hm

/-- **The tree of a program is aimed.** -/
theorem Program.aimed_toNode (p : Program) : p.toNode.aimed = true :=
  aimed_mk.mpr ⟨rfl, aimedAll_map Item.aimed_toNode p.items⟩

/-! ## 6. What a run gives back -/

theorem analyze_unresolved {tree : Node} (ht : tree.aimed = true) {s s' : Analyzer} {a : Analysis}
    (h : Check.analyze tree s = .ok a s') : a.tree.unresolved = tree.unresolved := by
  obtain ⟨n, t, hv, ha⟩ := Check.bind_ok.mp h
  cases ha
  exact visit_unresolved tree ht hv

/-- **A run only annotates.** Whatever the tree, the tree handed over is the tree given but for type
    names, and the assembly of the two is the same. Of the tree of a program only the references and
    the fields of their paths take a type; what is declared, allocated or written out keeps its
    label. -/
theorem analyze_annotates :
    (∀ (tree : Node) (s s' : Analyzer) (a : Analysis), Check.analyze tree s = .ok a s' →
      a.tree.untyped = tree.untyped ∧
      ∀ now, Assembly.ofTree now a.tree = Assembly.ofTree now tree) ∧
    (∀ (p : Program) (s s' : Analyzer) (a : Analysis), Check.analyze p.toNode s = .ok a s' →
      a.tree.unresolved = p.toNode.unresolved ∧ a.tree.settled = p.toNode.settled) := by
  constructor
  · intro tree s s' a h
    exact ⟨analyze_untyped h, fun now => ofTree_analyze now h⟩
  · intro p s s' a h
    have hview := analyze_unresolved p.aimed_toNode h
    refine ⟨hview, ?_⟩
    rw [← settled_unresolved a.tree, hview, settled_unresolved]

/-- The program `declare [uint(4)] b : 7 declare [void] :: f([int] a) print a end`. -/
def annotatedProgram : Program :=
  ⟨[.declaration [] (.global ⟨"uint", some 4, false⟩ "b" (.number "7")),
    .declaration [] (.procedure ⟨"void", none, false⟩ "f" [⟨⟨"int", none, false⟩, "a"⟩]
      [.print (.path (.mk "a" []))])]⟩

set_option maxRecDepth 20000 in
theorem analyze_annotates_of_program : ∃ a s',
    Check.analyze annotatedProgram.toNode .fresh = .ok a s' ∧
    a.tree.untyped = annotatedProgram.toNode.untyped ∧
    a.tree.unresolved = annotatedProgram.toNode.unresolved ∧
    a.tree.settled =
      [{ kind := .reference, value := "b", typeName := some "uint", size := some 4 },
       { kind := .scalar, value := "7", typeName := some "int" },
       { kind := .argument, value := "a", typeName := some "int" }] := by
  have ha : (Check.analyze annotatedProgram.toNode).succeeds Analyzer.fresh = true := by cbv
  obtain ⟨a, s', hr⟩ := Check.ok_of_succeeds ha
  obtain ⟨hall, hprogram⟩ := analyze_annotates
  obtain ⟨hview, hsettled⟩ := hprogram annotatedProgram _ s' a hr
  exact ⟨a, s', hr, (hall _ _ s' a hr).1, hview, hsettled.trans rfl⟩

end Osclan
