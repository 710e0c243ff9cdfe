/-
  File:      Osclan/Proofs/LexicalScope.lean
  Subject:   What a name in a tree means, read off the tree.

  A name in a procedure stands for a parameter or an earlier declaration of that name in the same
  procedure, else for an earlier declaration at the top. This file says so without scopes, keys and
  stacks: it lists the places of a tree where a variable is referred to, in source order, each with
  the declarations that are visible there. Names are compared as they are written.

  * `Shape` -- a type as far as paths see it;
  * `Env`, `Env.after` -- what is declared before a place, and what a node adds to it;
  * `Node.sightings` -- the references of a tree;
  * `PathTyped`, `Sighting.Resolved` -- a reference and its path carry the types they should.
-/
import Osclan.Tree

namespace Osclan

/-! ## 1. Declarations -/

/-- A type: its name, and its fields by their names. -/
structure Shape where
  name : String
  fields : List (String × Shape)

/-- The type of a field. -/
def Shape.field? (t : Shape) (name : String) : Option Shape := t.fields.lookup name

/-- What is declared before a place: the records with their fields, the variables at the top, and
    in a procedure the parameters and variables of the procedure, the latest first. -/
structure Env where
  records : List (String × List (String × Shape))
  globals : List (String × Shape)
  locals : Option (List (String × Shape))

namespace Env

/-- Before the first item of a program. -/
def fresh : Env := ⟨[], [], none⟩

/-- The type of a written name. A name that is no record's has no fields. -/
def type (e : Env) (name : String) : Shape := ⟨name, (e.records.lookup name).getD []⟩

/-- The type of the declaration that a name stands for. -/
def typeOf? (e : Env) (name : String) : Option Shape :=
  match (e.locals.getD []).lookup name with
  | some t => some t
  | none => e.globals.lookup name

/-- One more variable, of the procedure inside one and of the top else. -/
def declare (e : Env) (name type : String) : Env :=
  match e.locals with
  | none => { e with globals := (name, e.type type) :: e.globals }
  | some vars => { e with locals := some ((name, e.type type) :: vars) }

/-- At the beginning of a procedure. -/
def enter (e : Env) : Env := { e with locals := some [] }

mutual

/-- The field that a node of a record writes, if it is one. The type of a nested record is the
    record itself, that of a field the name in the first type expression below it. -/
def field? (e : Env) : Node → Option (String × Shape)
  | ⟨l, children⟩ =>
    match l.kind with
    | .record => some (l.value, ⟨l.value, e.fields children⟩)
    | .field =>
      some (l.value, e.type ((children.find? (·.kind == .typeExpr)).elim "" Node.value))
    | _ => none

/-- The fields that a record writes. -/
def fields (e : Env) : List Node → List (String × Shape)
  | [] => []
  | n :: rest => (e.field? n).toList ++ e.fields rest

end

/-- What follows a node sees what the node declares: a declaration its variable, a parameter itself,
    a record at the top its type. -/
def after (e : Env) : Node → Env
  | ⟨l, children⟩ =>
    match l.kind with
    | .declaration =>
      match children with
      | [] => e
      | target :: _ => e.declare target.value (target.label.typeName.getD "")
    | .argument =>
      match l.typeName with
      | none => e
      | some type => e.declare l.value type
    | .record =>
      if l.value = "" || l.path.isSome then e
      else { e with records := (l.value, e.fields children) :: e.records }
    | _ => e

end Env

/-! ## 2. References -/

/-- A place where a variable is referred to, with what is declared before it. -/
structure Sighting where
  env : Env
  node : Node

mutual

/-- The references of a tree, in the order in which they are looked at. The value of an assignment
    is looked at before its target, and that of a declaration before the name it declares, which
    stands for the new variable. -/
def Node.sightings (e : Env) : Node → List Sighting
  | ⟨l, children⟩ =>
    match l.kind with
    | .root => Node.sightingsFrom e children
    | .procedure => Node.sightingsFrom e.enter children
    | .reference | .dynamicOffset => ⟨e, ⟨l, children⟩⟩ :: Node.sightingsIn e children
    | .declaration =>
      match children with
      | [] => []
      | target :: rest => Node.sightingsIn e rest ++
          target.sightings (e.declare target.value (target.label.typeName.getD ""))
    | .assignment =>
      match children with
      | [] => []
      | target :: rest => Node.sightingsIn e rest ++ target.sightings e
    | _ => Node.sightingsIn e children

/-- The references of nodes to which the same declarations are visible. -/
def Node.sightingsIn (e : Env) : List Node → List Sighting
  | [] => []
  | n :: rest => n.sightings e ++ Node.sightingsIn e rest

/-- The references of nodes each of which sees what those before it declare. -/
def Node.sightingsFrom (e : Env) : List Node → List Sighting
  | [] => []
  | n :: rest => n.sightings e ++ Node.sightingsFrom (e.after n) rest

end

mutual

/-- A node and all the nodes below it. -/
def Node.nodes : Node → List Node
  | ⟨l, children⟩ => ⟨l, children⟩ :: Node.nodesOf children

/-- The nodes of some trees. -/
def Node.nodesOf : List Node → List Node
  | [] => []
  | n :: rest => n.nodes ++ Node.nodesOf rest

end

mutual

/-- **No reference of a tree is left out.** -/
theorem Node.exists_sighting : ∀ (tree : Node) (e : Env), ∀ n ∈ tree.nodes,
    n.kind = .reference ∨ n.kind = .dynamicOffset → ∃ o ∈ tree.sightings e, o.node = n
  | ⟨l, children⟩, e, n, hn, hk => by
    rw [Node.nodes] at hn
    unfold Node.sightings
    rcases List.mem_cons.mp hn with rfl | hbelow
    · refine ⟨⟨e, ⟨l, children⟩⟩, ?_, rfl⟩
      have hl : l.kind = .reference ∨ l.kind = .dynamicOffset := hk
      rcases hl with hl | hl <;> simp only [hl, List.mem_cons_self]
    · split
      · exact Node.exists_sightingFrom children e n hbelow hk
      · exact Node.exists_sightingFrom children e.enter n hbelow hk
      · obtain ⟨o, ho, hnode⟩ := Node.exists_sightingIn children e n hbelow hk
        exact ⟨o, List.mem_cons_of_mem _ ho, hnode⟩
      · obtain ⟨o, ho, hnode⟩ := Node.exists_sightingIn children e n hbelow hk
        exact ⟨o, List.mem_cons_of_mem _ ho, hnode⟩
      · exact Node.exists_sightingBehind children e _ n hbelow hk
      · exact Node.exists_sightingBehind children e (fun _ => e) n hbelow hk
      · exact Node.exists_sightingIn children e n hbelow hk

/-- Where the first node is looked at last. -/
theorem Node.exists_sightingBehind : ∀ (ns : List Node) (e : Env) (f : Node → Env),
    ∀ n ∈ Node.nodesOf ns, n.kind = .reference ∨ n.kind = .dynamicOffset →
    ∃ o : Sighting, o ∈ (match ns with
      | [] => []
      | target :: rest => Node.sightingsIn e rest ++ target.sightings (f target)) ∧ o.node = n
  | [], _, _, n, hn, _ => absurd hn List.not_mem_nil
  | m :: rest, e, f, n, hn, hk => by
    rw [Node.nodesOf] at hn
    rcases List.mem_append.mp hn with hn | hn
    · obtain ⟨o, ho, hnode⟩ := m.exists_sighting (f m) n hn hk
      exact ⟨o, List.mem_append_right _ ho, hnode⟩
    · obtain ⟨o, ho, hnode⟩ := Node.exists_sightingIn rest e n hn hk
      exact ⟨o, List.mem_append_left _ ho, hnode⟩

theorem Node.exists_sightingIn : ∀ (ns : List Node) (e : Env), ∀ n ∈ Node.nodesOf ns,
    n.kind = .reference ∨ n.kind = .dynamicOffset → ∃ o ∈ Node.sightingsIn e ns, o.node = n
  | [], _, n, hn, _ => absurd hn List.not_mem_nil
  | m :: rest, e, n, hn, hk => by
    rw [Node.nodesOf] at hn
    rw [Node.sightingsIn]
    rcases List.mem_append.mp hn with hn | hn
    · obtain ⟨o, ho, hnode⟩ := m.exists_sighting e n hn hk
      exact ⟨o, List.mem_append_left _ ho, hnode⟩
    · obtain ⟨o, ho, hnode⟩ := Node.exists_sightingIn rest e n hn hk
      exact ⟨o, List.mem_append_right _ ho, hnode⟩

theorem Node.exists_sightingFrom : ∀ (ns : List Node) (e : Env), ∀ n ∈ Node.nodesOf ns,
    n.kind = .reference ∨ n.kind = .dynamicOffset → ∃ o ∈ Node.sightingsFrom e ns, o.node = n
  | [], _, n, hn, _ => absurd hn List.not_mem_nil
  | m :: rest, e, n, hn, hk => by
    rw [Node.nodesOf] at hn
    rw [Node.sightingsFrom]
    rcases List.mem_append.mp hn with hn | hn
    · obtain ⟨o, ho, hnode⟩ := m.exists_sighting e n hn hk
      exact ⟨o, List.mem_append_left _ ho, hnode⟩
    · obtain ⟨o, ho, hnode⟩ := Node.exists_sightingFrom rest (e.after m) n hn hk
      exact ⟨o, List.mem_append_right _ ho, hnode⟩

end

/-- The fields below a place of the given type carry the types of the fields of that type. -/
inductive PathTyped : Shape → List Node → Prop where
  | nil {t : Shape} : PathTyped t []
  | field {t u : Shape} {l : Label} {children rest : List Node} : l.kind = .field →
      t.field? l.value = some u → l.typeName = some u.name → PathTyped u children →
      PathTyped t rest → PathTyped t (⟨l, children⟩ :: rest)
  | other {t : Shape} {n : Node} {rest : List Node} : n.kind ≠ .field → PathTyped t rest →
      PathTyped t (n :: rest)

/-- The reference carries the type of its declaration, and its path the types of the fields. -/
def Sighting.Resolved (o : Sighting) : Prop :=
  ∃ t, o.env.typeOf? o.node.value = some t ∧ o.node.label.typeName = some t.name ∧
    PathTyped t o.node.children

/-- Nothing that is visible has the name. -/
def Sighting.undeclared (o : Sighting) : Bool := (o.env.typeOf? o.node.value).isNone

end Osclan
