/-
  File:      Osclan/Proofs/Annotation.lean
  Subject:   A walk writes type names into the labels and changes nothing else.

  Two trees that agree but for the type names of their labels have the same `untyped` tree. A good
  walk gives a tree that agrees with the tree walked in this sense, and since code generation does
  not read type names, it makes the same assembly of both.

  * `Node.untyped` -- the tree without type names;
  * `visit_untyped` -- what a walk gives is what it was given, but for type names;
  * `Assembly.ofTree_untyped` -- the assembly does not depend on type names.
-/
import Osclan.Assembly.Generate
import Osclan.Proofs.Step
import Osclan.Proofs.TreeValues

namespace Osclan

/-! ## 1. Trees without type names -/

/-- The label without a type name. -/
def Label.untyped (l : Label) : Label := { l with typeName := none }

mutual

/-- The tree without the type names of its labels. -/
def Node.untyped : Node → Node
  | ⟨l, children⟩ => ⟨l.untyped, Node.untypedAll children⟩

/-- Some trees without type names. -/
def Node.untypedAll : List Node → List Node
  | [] => []
  | n :: rest => n.untyped :: Node.untypedAll rest

end

theorem untypedAll_eq_map : ∀ ns : List Node, Node.untypedAll ns = ns.map Node.untyped
  | [] => rfl
  | n :: ns => by rw [Node.untypedAll, List.map_cons, untypedAll_eq_map ns]

theorem untyped_kind (n : Node) : n.untyped.kind = n.kind := by
  rcases n with ⟨l, children⟩
  rw [Node.untyped]
  rfl

theorem untyped_value (n : Node) : n.untyped.value = n.value := by
  rcases n with ⟨l, children⟩
  rw [Node.untyped]
  rfl

/-- Children that agree but for type names make nodes that do. -/
theorem untyped_congr {l : Label} {children children' : List Node}
    (h : Node.untypedAll children' = Node.untypedAll children) :
    Node.untyped ⟨l, children'⟩ = Node.untyped ⟨l, children⟩ := by
  rw [Node.untyped, Node.untyped, h]

/-! ## 2. The walk -/

/-- A name whose fields keep their tree is resolved to a node that keeps its own. -/
theorem resolve_untyped {l : Label} {children : List Node} {s s' : Analyzer} {r : Node × Ty}
    (hc : ∀ parent leaf {t t' : Analyzer} {r : List Node × Ty},
      resolveFields parent leaf children t = .ok r t' →
        Node.untypedAll r.1 = Node.untypedAll children)
    (h : resolve ⟨l, children⟩ s = .ok r s') : r.1.untyped = Node.untyped ⟨l, children⟩ := by
  unfold resolve at h
  simp only [Check.bind_ok, Check.scopes_ok] at h
  obtain ⟨_, _, ⟨rfl, rfl⟩, h⟩ := h
  cases hv : s.scopes.lookupVariable? l.value with
  | none =>
    simp only [hv] at h
    exact absurd h Check.refuse_ok
  | some v =>
    simp only [hv, Check.bind_ok, Check.pure_ok] at h
    obtain ⟨⟨children', _⟩, _, hf, rfl, _⟩ := h
    have ef := hc _ _ hf
    simp only [Node.untyped, Label.untyped, ef]

mutual

/-- **A walk only annotates**: the tree it gives is the tree it was given, but for type names. -/
theorem visit_untyped : ∀ (n : Node) {s s' : Analyzer} {n' : Node}, visit n s = .ok n' s' →
    n'.untyped = n.untyped
  | ⟨l, children⟩, s, s', n', h => by
    have hall : ∀ {t t' : Analyzer} {ns : List Node}, visitAll children t = .ok ns t' →
        Node.untyped ⟨l, ns⟩ = Node.untyped ⟨l, children⟩ :=
      fun h => untyped_congr (visitAll_untyped children h)
    unfold visit at h
    cases hk : l.kind with
    | root | directive | field | print =>
      simp only [hk, Check.bind_ok, Check.pure_ok] at h
      obtain ⟨ns, _, hv, rfl, _⟩ := h
      exact hall hv
    | record =>
      simp only [hk, Check.inScope_ok, Check.bind_ok, Check.pure_ok] at h
      obtain ⟨_, ⟨ns, _, hv, _, _, _, rfl, _⟩, _⟩ := h
      exact hall hv
    | procedure =>
      simp only [hk, Check.inScope_ok, Check.bind_ok, Check.pure_ok, Check.inBodyOf_ok] at h
      obtain ⟨_, ⟨_, _, _, _, _, _, ns, _, ⟨_, hv, _⟩, rfl, _⟩, _⟩ := h
      exact hall hv
    | argument =>
      simp only [hk] at h
      rcases hn : (children.filter (·.kind == .typeExpr)).length with _ | _ | k
      · simp only [hn, Check.bind_ok, Check.pure_ok] at h
        obtain ⟨ns, _, hv, rfl, _⟩ := h
        exact hall hv
      · simp only [hn, Check.bind_ok, Check.pure_ok] at h
        obtain ⟨_, _, _, rfl, _⟩ := h
        rfl
      · simp only [hn] at h
        exact absurd h Check.refuse_ok
    | call =>
      simp only [hk, Check.bind_ok, Check.scopes_ok] at h
      obtain ⟨_, _, ⟨rfl, rfl⟩, h⟩ := h
      cases hp : s.scopes.lookupProcedure? l.value with
      | none =>
        simp only [hp] at h
        exact absurd h Check.refuse_ok
      | some p =>
        simp only [hp, Check.bind_ok, Check.pure_ok] at h
        obtain ⟨ns, _, hv, _, _, _, rfl, _⟩ := h
        exact hall hv
    | typeExpr =>
      simp only [hk] at h
      split at h
      · rw [← (Check.pure_ok.mp h).1]
      · simp only [Check.bind_ok, Check.pure_ok] at h
        obtain ⟨_, _, _, _, _, _, rfl, _⟩ := h
        rfl
    | modifier | scalar =>
      simp only [hk] at h
      rw [← (Check.pure_ok.mp h).1]
    | assignment =>
      simp only [hk] at h
      match children, h with
      | [⟨lt, ct⟩, value], h =>
        simp only [Check.bind_ok] at h
        obtain ⟨value', _, hv, h⟩ := h
        have ev := visit_untyped value hv
        split at h
        · rw [← (Check.pure_ok.mp h).1]
          simp only [Node.untyped, Node.untypedAll, ev]
        · simp only [Check.bind_ok, Check.pure_ok] at h
          obtain ⟨⟨target', _⟩, _, ht, _, _, _, rfl, _⟩ := h
          have et := resolve_untyped (fun p t => resolveFields_untyped p t ct) ht
          simp only [Node.untyped, Node.untypedAll, ev, et]
      | [], h => exact absurd h Check.refuse_ok
      | [_], h => exact absurd h Check.refuse_ok
      | _ :: _ :: _ :: _, h => exact absurd h Check.refuse_ok
    | declaration =>
      simp only [hk] at h
      match ho : operandsOf children, h with
      | [], h => exact absurd h Check.refuse_ok
      | [_], h => exact absurd h Check.refuse_ok
      | _ :: _ :: _ :: _, h => exact absurd h Check.refuse_ok
      | [target, _], h =>
        simp only [Check.bind_ok, Check.pure_ok] at h
        obtain ⟨ns, _, hv, _, _, _, rfl, _⟩ := h
        exact untyped_congr (visitOperand_untyped 1 children hv)
    | reference | dynamicOffset =>
      simp only [hk, Check.bind_ok, Check.pure_ok] at h
      obtain ⟨⟨n₁, _⟩, _, hr, rfl, _⟩ := h
      exact resolve_untyped (fun p t => resolveFields_untyped p t children) hr
    | allocation =>
      simp only [hk, Check.bind_ok, Check.pure_ok] at h
      obtain ⟨_, _, _, _, _, _, rfl, _⟩ := h
      rfl
    | ret =>
      simp only [hk, Check.bind_ok, Check.pure_ok] at h
      obtain ⟨ns, _, hv, _, _, _, rfl, _⟩ := h
      exact hall hv

theorem visitAll_untyped : ∀ (ns : List Node) {s s' : Analyzer} {ns' : List Node},
    visitAll ns s = .ok ns' s' → Node.untypedAll ns' = Node.untypedAll ns
  | [], s, s', ns', h => by
    unfold visitAll at h
    rw [← (Check.pure_ok.mp h).1]
  | n :: rest, s, s', ns', h => by
    unfold visitAll at h
    simp only [Check.bind_ok, Check.pure_ok] at h
    obtain ⟨n', _, hn, rest', _, hr, rfl, _⟩ := h
    rw [Node.untypedAll, Node.untypedAll, visit_untyped n hn, visitAll_untyped rest hr]

theorem visitOperand_untyped : ∀ (before : Nat) (ns : List Node) {s s' : Analyzer}
    {ns' : List Node}, visitOperand before ns s = .ok ns' s' →
    Node.untypedAll ns' = Node.untypedAll ns
  | _, [], s, s', ns', h => by
    unfold visitOperand at h
    rw [← (Check.pure_ok.mp h).1]
  | before, n :: rest, s, s', ns', h => by
    unfold visitOperand at h
    split at h
    · simp only [Check.bind_ok, Check.pure_ok] at h
      obtain ⟨rest', _, hr, rfl, _⟩ := h
      rw [Node.untypedAll, Node.untypedAll, visitOperand_untyped before rest hr]
    · cases before with
      | zero =>
        simp only [Check.bind_ok, Check.pure_ok] at h
        obtain ⟨n', _, hn, rfl, _⟩ := h
        rw [Node.untypedAll, Node.untypedAll, visit_untyped n hn]
      | succ before =>
        simp only [Check.bind_ok, Check.pure_ok] at h
        obtain ⟨rest', _, hr, rfl, _⟩ := h
        rw [Node.untypedAll, Node.untypedAll, visitOperand_untyped before rest hr]

theorem resolveFields_untyped : ∀ (parent leaf : Ty) (ns : List Node) {s s' : Analyzer}
    {r : List Node × Ty}, resolveFields parent leaf ns s = .ok r s' →
    Node.untypedAll r.1 = Node.untypedAll ns
  | _, _, [], s, s', r, h => by
    unfold resolveFields at h
    rw [← (Check.pure_ok.mp h).1]
  | parent, leaf, ⟨l, children⟩ :: rest, s, s', r, h => by
    have hvisit : ∀ {t t' : Analyzer} {n' : Node}, visit ⟨l, children⟩ t = .ok n' t' →
        n'.untyped = Node.untyped ⟨l, children⟩ := fun h => visit_untyped ⟨l, children⟩ h
    unfold resolveFields at h
    cases hk : l.kind with
    | field =>
      simp only [hk] at h
      cases hf : parent.field? l.value with
      | none =>
        simp only [hf] at h
        exact absurd h Check.refuse_ok
      | some type =>
        simp only [hf, Check.bind_ok, Check.pure_ok] at h
        obtain ⟨⟨children', _⟩, _, hc, ⟨rest', _⟩, _, hr, rfl, _⟩ := h
        have ec := resolveFields_untyped _ _ children hc
        have er := resolveFields_untyped _ _ rest hr
        simp only [Node.untypedAll, Node.untyped, Label.untyped, ec, er, hk]
    | dynamicOffset =>
      simp only [hk, Check.bind_ok, Check.pure_ok] at h
      obtain ⟨⟨n', _⟩, _, hn, ⟨rest', _⟩, _, hr, rfl, _⟩ := h
      have en := resolve_untyped (fun p t => resolveFields_untyped p t children) hn
      rw [Node.untypedAll, Node.untypedAll, en, resolveFields_untyped _ _ rest hr]
    | _ =>
      simp only [hk, Check.bind_ok, Check.pure_ok] at h
      obtain ⟨n', _, hn, ⟨rest', _⟩, _, hr, rfl, _⟩ := h
      rw [Node.untypedAll, Node.untypedAll, hvisit hn, resolveFields_untyped _ _ rest hr]

end

/-! ## 3. Code generation -/

namespace Assembly

mutual

theorem calls_untyped : ∀ n : Node, calls n.untyped = calls n
  | ⟨l, children⟩ => by
    rw [Node.untyped, calls, calls, callsAll_untyped children]
    rfl

theorem callsAll_untyped : ∀ ns : List Node, callsAll (Node.untypedAll ns) = callsAll ns
  | [] => rfl
  | n :: rest => by
    rw [Node.untypedAll, callsAll, callsAll, calls_untyped n, callsAll_untyped rest]

end

theorem procedures_untyped (tree : Node) :
    procedures tree.untyped = (procedures tree).map Node.untyped := by
  rcases tree with ⟨l, children⟩
  rw [Node.untyped, untypedAll_eq_map]
  simp only [procedures, Node.childrenOf, List.filter_map, Function.comp_def, untyped_kind]

/-- **Code generation does not read type names.** -/
theorem ofTree_untyped (now : Calendar.Instant) (tree : Node) :
    ofTree now tree.untyped = ofTree now tree := by
  have hcalls : ∀ p : Node, callsAll p.untyped.children = callsAll p.children := by
    intro p
    rcases p with ⟨l, children⟩
    rw [Node.untyped]
    exact callsAll_untyped children
  simp only [ofTree, procedures_untyped, List.any_map, List.flatMap_map, Function.comp_def,
    untyped_value, hcalls]

end Assembly

/-- What a good run hands over is the tree it was given, but for type names. -/
theorem analyze_untyped {tree : Node} {s s' : Analyzer} {a : Analysis}
    (h : Check.analyze tree s = .ok a s') : a.tree.untyped = tree.untyped := by
  obtain ⟨n, t, hv, ha⟩ := Check.bind_ok.mp h
  have e : a.tree = n := by
    cases ha
    rfl
  rw [e]
  exact visit_untyped tree hv

/-- **The assembly of a checked tree is that of the tree before the check.** -/
theorem ofTree_analyze (now : Calendar.Instant) {tree : Node} {s s' : Analyzer} {a : Analysis}
    (h : Check.analyze tree s = .ok a s') :
    Assembly.ofTree now a.tree = Assembly.ofTree now tree := by
  rw [← Assembly.ofTree_untyped now a.tree, analyze_untyped h, Assembly.ofTree_untyped]

end Osclan
