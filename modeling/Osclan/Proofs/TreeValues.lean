/-
  File:      Osclan/Proofs/TreeValues.lean
  Subject:   The texts of the nodes of one kind, over a whole tree.

  Two questions about trees come up again and again: which procedures a tree declares, and which
  procedures it calls. Both ask for the texts of the nodes of one kind, so there is one function for
  them, `Node.valuesOf`. For the tree of a program it is computed here part by part.

  * `Node.valuesOf` -- the texts of one kind, those below a node before its own;
  * `Path.valuesOf_toNode`, `Value.valuesOf_procedure`, … -- the parts of a program.
-/
import Osclan.Program.Tree

namespace Osclan

/-! ## 1. Any tree -/

mutual

/-- The texts of the nodes of one kind in a tree, those below a node before its own. -/
def Node.valuesOf (kind : NodeKind) : Node → List String
  | ⟨l, children⟩ =>
    Node.valuesOfAll kind children ++ (if l.kind = kind then [l.value] else [])

/-- The texts of the nodes of one kind in some trees. -/
def Node.valuesOfAll (kind : NodeKind) : List Node → List String
  | [] => []
  | n :: rest => n.valuesOf kind ++ Node.valuesOfAll kind rest

end

theorem valuesOfAll_append (kind : NodeKind) : ∀ ns ms : List Node,
    Node.valuesOfAll kind (ns ++ ms) = Node.valuesOfAll kind ns ++ Node.valuesOfAll kind ms
  | [], _ => rfl
  | n :: ns, ms => by
    rw [List.cons_append, Node.valuesOfAll, Node.valuesOfAll, valuesOfAll_append kind ns ms,
      List.append_assoc]

theorem valuesOfAll_eq_flatMap (kind : NodeKind) : ∀ ns : List Node,
    Node.valuesOfAll kind ns = ns.flatMap (Node.valuesOf kind)
  | [] => rfl
  | n :: ns => by
    rw [Node.valuesOfAll, List.flatMap_cons, valuesOfAll_eq_flatMap kind ns]

/-- A node of another kind says of a kind what its children say. -/
theorem valuesOf_of_ne {kind : NodeKind} {l : Label} (children : List Node) (h : l.kind ≠ kind) :
    Node.valuesOf kind ⟨l, children⟩ = Node.valuesOfAll kind children := by
  rw [Node.valuesOf, if_neg h, List.append_nil]

/-- A node of the kind comes after its children. -/
theorem valuesOf_of_eq {kind : NodeKind} {l : Label} (children : List Node) (h : l.kind = kind) :
    Node.valuesOf kind ⟨l, children⟩ = Node.valuesOfAll kind children ++ [l.value] := by
  rw [Node.valuesOf, if_pos h]

theorem valuesOfAll_eq_nil {kind : NodeKind} {ns : List Node}
    (h : ∀ n ∈ ns, n.valuesOf kind = []) : Node.valuesOfAll kind ns = [] := by
  rw [valuesOfAll_eq_flatMap, List.flatMap_eq_nil_iff]
  exact h

/-! ## 2. The parts of a program -/

section Parts

variable {kind : NodeKind}

theorem typeNode_valuesOf (a : TypeExpr) (h : kind ≠ .typeExpr) : a.toNode.valuesOf kind = [] :=
  valuesOf_of_ne [] h.symm

theorem modifierNode_valuesOf (name : String) (h : kind ≠ .modifier) :
    (modifierNode name).valuesOf kind = [] :=
  valuesOf_of_ne [] h.symm

mutual

/-- A path is made of its reference, of fields and of offsets. -/
theorem Path.valuesOf_toNode (base : NodeKind) (hb : kind ≠ base) (hf : kind ≠ .field)
    (hd : kind ≠ .dynamicOffset) : ∀ p : Path, (p.toNode base).valuesOf kind = []
  | .mk name segments => by
    rw [Path.toNode, valuesOf_of_ne _ hb.symm]
    exact Segment.valuesOf_toNodes hf hd name segments

theorem Segment.valuesOf_toNodes (hf : kind ≠ .field) (hd : kind ≠ .dynamicOffset) :
    ∀ (before : String) (segments : List Segment),
    Node.valuesOfAll kind (Segment.toNodes before segments) = []
  | _, [] => rfl
  | before, .fixed name offset :: rest => by
    have ih := Segment.valuesOf_toNodes hf hd (joinPath before name) rest
    simp only [Segment.toNodes, Node.valuesOfAll, Node.valuesOf, if_neg hf.symm, ih,
      List.append_nil]
  | before, .dynamic name offset :: rest => by
    have ih := Segment.valuesOf_toNodes hf hd (joinPath before name) rest
    have ho := Path.valuesOf_toNode .dynamicOffset hd hf hd offset
    simp only [Segment.toNodes, Node.valuesOfAll, Node.valuesOf, if_neg hf.symm, ih, ho,
      List.append_nil]

end

theorem referenceNode_valuesOf {p : Path} (h : kind = .procedure ∨ kind = .call) :
    (p.toNode .reference).valuesOf kind = [] := by
  rcases h with rfl | rfl
  · exact p.valuesOf_toNode .reference (by decide) (by decide) (by decide)
  · exact p.valuesOf_toNode .reference (by decide) (by decide) (by decide)

mutual

/-- No value declares a procedure. -/
theorem Value.valuesOf_procedure : ∀ v : Value, v.toNode.valuesOf .procedure = []
  | .allocate _ => rfl
  | .number _ => rfl
  | .text _ => rfl
  | .path p => by
    rw [Value.toNode]
    exact referenceNode_valuesOf (.inl rfl)
  | .pointer _ => rfl
  | .anon members => by
    have ih := Member.valuesOf_procedure members
    simp only [Value.toNode, Node.valuesOf, ih, reduceCtorEq, if_false, List.append_nil]
  | .call name args => by
    have ih := Value.argsOf_procedure args
    simp only [Value.toNode, Node.valuesOf, ih, reduceCtorEq, if_false, List.append_nil]

theorem Member.valuesOf_procedure : ∀ members : List Member,
    Node.valuesOfAll .procedure (Member.toNodes members) = []
  | [] => rfl
  | .mk name value :: rest => by
    have ih := Member.valuesOf_procedure rest
    have hv := Value.valuesOf_procedure value
    simp only [Member.toNodes, Node.valuesOfAll, Node.valuesOf, ih, hv, reduceCtorEq, if_false,
      List.append_nil]

theorem Value.argsOf_procedure : ∀ args : List Value,
    Node.valuesOfAll .procedure (Value.argNodes args) = []
  | [] => rfl
  | value :: rest => by
    have ih := Value.argsOf_procedure rest
    have hv := Value.valuesOf_procedure value
    simp only [Value.argNodes, Node.valuesOfAll, Node.valuesOf, ih, hv, reduceCtorEq, if_false,
      List.append_nil]

end

theorem Path.kind_toNode (kind : NodeKind) (p : Path) : (p.toNode kind).kind = kind := by
  cases p
  rw [Path.toNode]
  rfl

theorem Value.kind_toNode (v : Value) :
    v.toNode.kind ∈ [.allocation, .scalar, .reference, .record, .call] := by
  cases v with
  | path p =>
    cases p
    simp only [Value.toNode, Path.toNode, Node.kind, List.mem_cons, true_or, or_true]
  | _ => simp only [Value.toNode, Label.typedAs, Node.kind, List.mem_cons, true_or, or_true]

theorem Value.kind_ne (v : Value) {kind : NodeKind} (h : kind = .typeExpr ∨ kind = .modifier) :
    v.toNode.kind ≠ kind := by
  intro e
  have hk := v.kind_toNode
  rw [e] at hk
  rcases h with rfl | rfl
  · exact absurd hk (by decide)
  · exact absurd hk (by decide)

theorem declarationNode_valuesOf (type : TypeExpr) (name : String) (value : Value)
    (hd : kind ≠ .declaration) (hr : kind ≠ .reference) :
    (declarationNode type name value).valuesOf kind = value.toNode.valuesOf kind := by
  simp only [declarationNode, Node.valuesOf, Node.valuesOfAll, Label.typedAs, if_neg hd.symm,
    if_neg hr.symm, List.append_nil, List.nil_append]

theorem Statement.valuesOf_procedure (st : Statement) : st.toNode.valuesOf .procedure = [] := by
  cases st with
  | declare type name value =>
    rw [Statement.toNode, declarationNode_valuesOf _ _ _ (by decide) (by decide)]
    exact value.valuesOf_procedure
  | assign target value =>
    have ht : (target.toNode .reference).valuesOf .procedure = [] :=
      referenceNode_valuesOf (.inl rfl)
    simp only [Statement.toNode, Node.valuesOf, Node.valuesOfAll, ht, value.valuesOf_procedure,
      reduceCtorEq, if_false, List.append_nil]
  | ret value =>
    cases value with
    | none => rfl
    | some v =>
      simp only [Statement.toNode, Option.map_some, Option.toList_some, Node.valuesOf,
        Node.valuesOfAll, v.valuesOf_procedure, reduceCtorEq, if_false, List.append_nil]
  | print value =>
    simp only [Statement.toNode, Node.valuesOf, Node.valuesOfAll, value.valuesOf_procedure,
      reduceCtorEq, if_false, List.append_nil]
  | call name args => exact (Value.call name args).valuesOf_procedure

mutual

/-- The fields of a record say nothing but their names, their types and their own fields. -/
theorem Field.valuesOf_toNode (hf : kind ≠ .field) (hr : kind ≠ .record) (ht : kind ≠ .typeExpr) :
    ∀ (parent : String) (field : Field), (field.toNode parent).valuesOf kind = []
  | parent, .plain type name => by
    simp only [Field.toNode, Node.valuesOf, Node.valuesOfAll, typeNode_valuesOf type ht,
      if_neg hf.symm, List.append_nil]
  | parent, .nested name fields => by
    have ih := Field.valuesOf_toNodes hf hr ht (joinPath parent name) fields
    simp only [Field.toNode, Node.valuesOf, ih, if_neg hr.symm, List.append_nil]

theorem Field.valuesOf_toNodes (hf : kind ≠ .field) (hr : kind ≠ .record) (ht : kind ≠ .typeExpr) :
    ∀ (parent : String) (fields : List Field),
    Node.valuesOfAll kind (Field.toNodes parent fields) = []
  | _, [] => rfl
  | parent, field :: rest => by
    rw [Field.toNodes, Node.valuesOfAll, Field.valuesOf_toNode hf hr ht parent field,
      Field.valuesOf_toNodes hf hr ht parent rest]
    rfl

end

theorem Param.valuesOf_toNode (p : Param) (ha : kind ≠ .argument) (ht : kind ≠ .typeExpr) :
    p.toNode.valuesOf kind = [] := by
  simp only [Param.toNode, Node.valuesOf, Node.valuesOfAll, Label.typedAs,
    typeNode_valuesOf p.type ht, if_neg ha.symm, List.append_nil]

theorem modifierNodes_valuesOf (modifiers : List String) (h : kind ≠ .modifier) :
    Node.valuesOfAll kind (modifiers.map modifierNode) = [] := by
  apply valuesOfAll_eq_nil
  intro m hm
  obtain ⟨name, _, rfl⟩ := List.mem_map.mp hm
  exact modifierNode_valuesOf name h

/-- Modifiers add no text of another kind. -/
theorem Item.valuesOf_declaration (modifiers : List String) (declared : Declared)
    (h : kind ≠ .modifier) :
    (Item.declaration modifiers declared).toNode.valuesOf kind =
      declared.toNode.valuesOf kind := by
  rw [Item.toNode, Node.valuesOf, valuesOfAll_append, modifierNodes_valuesOf modifiers h,
    List.append_nil]
  rcases declared.toNode with ⟨l, children⟩
  rfl

/-- A record holds neither procedures nor calls. -/
theorem Declared.valuesOf_record (name : String) (fields : List Field)
    (h : kind = .procedure ∨ kind = .call) :
    (Declared.record name fields).toNode.valuesOf kind = [] := by
  rcases h with rfl | rfl
  · rw [Declared.toNode, valuesOf_of_ne _ NodeKind.noConfusion]
    exact Field.valuesOf_toNodes (by decide) (by decide) (by decide) name fields
  · rw [Declared.toNode, valuesOf_of_ne _ NodeKind.noConfusion]
    exact Field.valuesOf_toNodes (by decide) (by decide) (by decide) name fields

theorem Declared.valuesOf_global (type : TypeExpr) (name : String) (value : Value) :
    (Declared.global type name value).toNode.valuesOf .procedure = [] := by
  rw [Declared.toNode, declarationNode_valuesOf _ _ _ (by decide) (by decide)]
  exact value.valuesOf_procedure

end Parts

end Osclan
