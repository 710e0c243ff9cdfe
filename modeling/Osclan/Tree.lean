/-
  File:      Osclan/Tree.lean
  Subject:   The labelled tree that checking and code generation walk.

  Every construct of a program is a node: a label and the nodes below it. The label holds the kind,
  a text, what is known of the type, the written path and the offset; checking fills in type
  names and leaves the shape alone. A tree need not come from a program, so each walk says what it
  does at every kind.
-/
namespace Osclan

/-- What construct a node stands for. -/
inductive NodeKind where
  | root | directive | argument | record | procedure | call | typeExpr | modifier | field
  | assignment | declaration | reference | allocation | scalar | dynamicOffset | print | ret
  deriving DecidableEq, Repr

/-- The name of a kind, as messages and dumps write it. -/
def NodeKind.name : NodeKind → String
  | .root => "Root"
  | .directive => "Directive"
  | .argument => "Argument"
  | .record => "Structure"
  | .procedure => "Procedure"
  | .call => "ProcedureCall"
  | .typeExpr => "Type"
  | .modifier => "Modifier"
  | .field => "Field"
  | .assignment => "Assignment"
  | .declaration => "Declaration"
  | .reference => "Variable"
  | .allocation => "Allocation"
  | .scalar => "Scalar"
  | .dynamicOffset => "DynOffset"
  | .print => "Print"
  | .ret => "Return"

/-- Every kind, in the order of declaration. -/
def NodeKind.all : List NodeKind :=
  [.root, .directive, .argument, .record, .procedure, .call, .typeExpr, .modifier, .field,
   .assignment, .declaration, .reference, .allocation, .scalar, .dynamicOffset, .print, .ret]

/-- What a node says of itself. -/
structure Label where
  kind : NodeKind
  value : String := ""
  typeName : Option String := none
  size : Option UInt64 := none
  pointer : Bool := false
  path : Option String := none
  offset : UInt64 := 0
  deriving DecidableEq, Repr

/-- A node: its label and the nodes below it, in source order. -/
structure Node where
  label : Label
  children : List Node
  deriving Repr

namespace Node

/-- The kind of a node. -/
def kind (n : Node) : NodeKind := n.label.kind

/-- The text of a node: a name, or a literal. -/
def value (n : Node) : String := n.label.value

/-- The children of one kind. -/
def childrenOf (n : Node) (kind : NodeKind) : List Node := n.children.filter (·.kind == kind)

/-- The children that are not modifiers. -/
def operands (n : Node) : List Node := n.children.filter (·.kind != .modifier)

end Node

/-- The label with the type that a type expression's label names: the name, the size and whether it
    is a pointer. -/
def Label.typedAs (l ty : Label) : Label :=
  { l with typeName := some ty.value, size := ty.size, pointer := ty.pointer }

/-- The label with a type of the given name. -/
def Label.withType (l : Label) (name : String) : Label := { l with typeName := some name }

/-! ## The tree as text -/

/-- A label as one line. A size and a pointer mark show only beside a type name, an offset only if
    it is not zero. -/
def Label.text (l : Label) : String :=
  let value := if l.value = "" then "" else " '" ++ l.value ++ "'"
  let type := match l.typeName with
    | none => ""
    | some name =>
      let size := match l.size with
        | none => ""
        | some size => "(" ++ size.toNat.repr ++ ")"
      " [" ++ name ++ size ++ (if l.pointer then "*" else "") ++ "]"
  let path := match l.path with
    | none => ""
    | some path => " @" ++ path
  let offset := if l.offset = 0 then "" else " +" ++ l.offset.toNat.repr
  l.kind.name ++ value ++ type ++ path ++ offset

/-- Two blanks for each level. -/
def indent (depth : Nat) : String := String.ofList (List.replicate (2 * depth) ' ')

mutual

/-- The lines of a tree, each indented by its depth. -/
def Node.lines (depth : Nat) : Node → List String
  | ⟨label, children⟩ => (indent depth ++ label.text) :: Node.linesAll (depth + 1) children

/-- The lines of some trees at the same depth. -/
def Node.linesAll (depth : Nat) : List Node → List String
  | [] => []
  | n :: rest => Node.lines depth n ++ Node.linesAll depth rest

end

/-- The tree as text, one line for each node. -/
def Node.text (n : Node) : String := String.join ((n.lines 0).map (· ++ "\n"))

end Osclan
