/-
  File:      Osclan/Program/Tree.lean
  Subject:   A program as a labelled tree.

  Each construct becomes one node, with three choices worth knowing:

  * the fields of a path nest: in `a::b::c` the node of `c` stands below that of `b`, after a run
    time offset of `b`, and each field carries the path up to it;
  * a nested record carries its path from the outermost record;
  * modifiers come last among the children of what they modify.
-/
import Osclan.Program
import Osclan.Tree

namespace Osclan

/-! ## 1. Types and paths -/

/-- The label of a written type. -/
def TypeExpr.label (a : TypeExpr) : Label :=
  { kind := .typeExpr, value := a.name, size := a.size, pointer := a.pointer }

/-- A written type is a leaf. -/
def TypeExpr.toNode (a : TypeExpr) : Node := ⟨a.label, []⟩

/-- The written path of a field below the path `before`. -/
def joinPath (before name : String) : String := before ++ "::" ++ name

mutual

/-- A path as a reference, or as an offset, below which its fields nest. -/
def Path.toNode (kind : NodeKind) : Path → Node
  | .mk base segments => ⟨{ kind, value := base }, Segment.toNodes base segments⟩

/-- The fields of a path as a chain: no node or one. -/
def Segment.toNodes (before : String) : List Segment → List Node
  | [] => []
  | .fixed name offset :: rest =>
    let path := joinPath before name
    [⟨{ kind := .field, value := name, path := some path, offset }, Segment.toNodes path rest⟩]
  | .dynamic name offset :: rest =>
    let path := joinPath before name
    [⟨{ kind := .field, value := name, path := some path },
      offset.toNode .dynamicOffset :: Segment.toNodes path rest⟩]

end

/-! ## 2. Values -/

/-- The size of a text in bytes. -/
def byteSize (text : String) : UInt64 := UInt64.ofNat text.utf8ByteSize

mutual

/-- A value as a tree. A literal has its type in the label. -/
def Value.toNode : Value → Node
  | .allocate type => ⟨({ kind := .allocation } : Label).typedAs type.label, []⟩
  | .number digits => ⟨{ kind := .scalar, value := digits, typeName := some "int" }, []⟩
  | .text content =>
    ⟨{ kind := .scalar, value := content, typeName := some "string",
       size := some (byteSize content) }, []⟩
  | .path path => path.toNode .reference
  | .pointer name => ⟨{ kind := .reference, value := name, pointer := true }, []⟩
  | .anon members => ⟨{ kind := .record }, Member.toNodes members⟩
  | .call name args => ⟨{ kind := .call, value := name }, Value.argNodes args⟩

/-- The members of an anonymous record, each an assignment to a field. -/
def Member.toNodes : List Member → List Node
  | [] => []
  | .mk name value :: rest =>
    ⟨{ kind := .assignment }, [⟨{ kind := .field, value := name }, []⟩, value.toNode]⟩ ::
      Member.toNodes rest

/-- The arguments of a call, each below a node of its own. -/
def Value.argNodes : List Value → List Node
  | [] => []
  | value :: rest => ⟨{ kind := .argument }, [value.toNode]⟩ :: Value.argNodes rest

end

/-- A variable of a type made from a value, in a procedure or at the top. -/
def declarationNode (type : TypeExpr) (name : String) (value : Value) : Node :=
  ⟨{ kind := .declaration },
   [⟨({ kind := .reference, value := name } : Label).typedAs type.label, []⟩, value.toNode]⟩

/-! ## 3. Statements and items -/

/-- A statement as a tree. -/
def Statement.toNode : Statement → Node
  | .declare type name value => declarationNode type name value
  | .assign target value => ⟨{ kind := .assignment }, [target.toNode .reference, value.toNode]⟩
  | .ret value => ⟨{ kind := .ret }, (value.map Value.toNode).toList⟩
  | .print value => ⟨{ kind := .print }, [value.toNode]⟩
  | .call name args => (Value.call name args).toNode

mutual

/-- A field of the record with the given path. -/
def Field.toNode (parent : String) : Field → Node
  | .plain type name => ⟨{ kind := .field, value := name }, [type.toNode]⟩
  | .nested name fields =>
    let path := joinPath parent name
    ⟨{ kind := .record, value := name, path := some path }, Field.toNodes path fields⟩

/-- The fields of the record with the given path. -/
def Field.toNodes (parent : String) : List Field → List Node
  | [] => []
  | field :: rest => field.toNode parent :: Field.toNodes parent rest

end

/-- A parameter, which has its type in the label and below it. -/
def Param.toNode (p : Param) : Node :=
  ⟨({ kind := .argument, value := p.name } : Label).typedAs p.type.label, [p.type.toNode]⟩

/-- A modifier is a leaf. -/
def modifierNode (name : String) : Node := ⟨{ kind := .modifier, value := name }, []⟩

/-- What is declared, without its modifiers. -/
def Declared.toNode : Declared → Node
  | .record name fields => ⟨{ kind := .record, value := name }, Field.toNodes name fields⟩
  | .procedure returns name params body =>
    ⟨{ kind := .procedure, value := name },
     returns.toNode :: (params.map Param.toNode ++ body.map Statement.toNode)⟩
  | .global type name value => declarationNode type name value

/-- An item as a tree. Modifiers are the last children. -/
def Item.toNode : Item → Node
  | .directive name argument =>
    ⟨{ kind := .directive, value := name }, [⟨{ kind := .argument, value := argument }, []⟩]⟩
  | .declaration modifiers declared =>
    let node := declared.toNode
    ⟨node.label, node.children ++ modifiers.map modifierNode⟩

/-- The tree of a program. -/
def Program.toNode (p : Program) : Node := ⟨{ kind := .root }, p.items.map Item.toNode⟩

end Osclan
