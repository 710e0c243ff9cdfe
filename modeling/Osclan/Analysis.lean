/-
  File:      Osclan/Analysis.lean
  Subject:   Checking a tree: names, types, stores, returns.

  The walk goes through the tree once, in source order, and writes the names of resolved types into
  the labels; it changes nothing else. It keeps, also over a failure, the scopes, the scopes closed
  so far, and the warnings raised so far. A good run hands the closed scopes and the warnings over
  and starts the next one without them.

  * `Fault`, `Warning`, `Abort` -- what may come of a run besides a tree;
  * `Analyzer`, `Check` -- the state, and steps on it that may stop;
  * `visit` and its companions -- the walk, one case for each kind of node;
  * `Check.analyze` -- one run over one tree.
-/
import Osclan.Scope
import Osclan.Text.Word

namespace Osclan

/-! ## 1. Outcomes -/

/-- Why a tree is refused. -/
inductive Fault where
  | unresolvedVariable (name : String)
  | unresolvedType (name : String)
  | unresolvedPath (path : String)
  | unresolvedProcedure (name : String)
  | redeclared (what : Redeclared)
  | illegalAssignment (dest source : String)
  | malformedParameter (name : String)
  | malformedNode (kind : NodeKind) (problem : String)
  | argumentCount (name : String) (expected got : Nat)
  | unreachableCode (name : String)
  | unexpectedReturnValue (name : String)
  | missingReturnValue (name : String)
  deriving DecidableEq, Repr

/-- The message for the user. -/
def Fault.message : Fault → String
  | .unresolvedVariable name => "Unresolved variable '" ++ name ++ "'"
  | .unresolvedType name => "Unresolved type '" ++ name ++ "'"
  | .unresolvedPath path => "Could not resolve path '" ++ path ++ "'"
  | .unresolvedProcedure name => "Unresolved procedure '" ++ name ++ "'"
  | .redeclared what => "Cannot redeclare " ++ what.entity.text ++ " '" ++ what.name ++ "'"
  | .illegalAssignment dest source => "Operation " ++ dest ++ " <- " ++ source ++ " is illegal"
  | .malformedParameter name => "Malformed parameter '" ++ name ++ "': expected a single type"
  | .malformedNode kind problem => "Malformed " ++ kind.name ++ " node: " ++ problem
  | .argumentCount name expected got =>
    "Procedure '" ++ name ++ "' expects " ++ expected.repr ++ " argument(s), got " ++ got.repr
  | .unreachableCode name => "Unreachable code after return in '" ++ name ++ "'"
  | .unexpectedReturnValue name => "Procedure '" ++ name ++ "' cannot return a value"
  | .missingReturnValue name => "Procedure '" ++ name ++ "' must return a value"

/-- A store that is let through although it may not fit. -/
structure Warning where
  dest : String
  source : String
  deriving DecidableEq, Repr

/-- The message for the user. -/
def Warning.message (w : Warning) : String :=
  "Operation " ++ w.dest ++ " <- " ++ w.source ++ " might lead to loss of information"

/-- Why a run stops: a fault of the tree, or a composite whose size leaves the word. -/
inductive Abort where
  | fault (fault : Fault)
  | sizeOverflow
  deriving DecidableEq, Repr

/-! ## 2. State and steps -/

/-- What a run knows: the scopes, the closed scopes in the order they were left, the warnings, and
    the procedure whose body is being walked. -/
structure Analyzer where
  scopes : ScopeStack
  archive : List Scope
  warnings : List Warning
  procedure : Option Procedure
  deriving Repr

/-- The state before the first run. -/
def Analyzer.fresh : Analyzer := ⟨.fresh, [], [], none⟩

/-- A step of a run. A step that stops leaves the state it has reached. -/
abbrev Check := EStateM Abort Analyzer

namespace Check

/-- Stops with a fault. -/
def refuse {α : Type} (fault : Fault) : Check α := throw (.fault fault)

/-- A result or a fault that was worked out without the state. -/
def ofExcept {α : Type} : Except Fault α → Check α
  | .ok a => pure a
  | .error fault => refuse fault

/-- The scopes at this point. -/
def scopes : Check ScopeStack := return (← get).scopes

/-- Changes the scopes by a declaration. -/
def declare (f : ScopeStack → Except Redeclared ScopeStack) : Check Unit := do
  match f (← scopes) with
  | .ok st => modify fun s => { s with scopes := st }
  | .error what => refuse (.redeclared what)

/-- What is made of a size; stops if the size leaves the word. -/
def ofSize {α : Type} : Option α → Check α
  | some a => pure a
  | none => throw .sizeOverflow

/-- A variable of a type; stops if the size of the type leaves the word. -/
def makeVariable (name : String) (type : Ty) (pointer : Bool) : Check Variable :=
  ofSize (Variable.make? name type pointer)

/-- The state after the innermost scope has been closed and put on file. -/
def leave (s : Analyzer) : Analyzer :=
  match s.scopes.pop with
  | (some closed, st) => { s with scopes := st, archive := s.archive ++ [closed] }
  | (none, _) => s

/-- Runs a step in a scope of its own, which is closed however the step ends. -/
def inScope {α : Type} (step : Check α) : Check α := fun s =>
  match step { s with scopes := s.scopes.push } with
  | .ok a s => .ok a (leave s)
  | .error e s => .error e (leave s)

/-- Runs a step as part of the body of a procedure. -/
def inBodyOf {α : Type} (p : Procedure) (step : Check α) : Check α := fun s =>
  match step { s with procedure := some p } with
  | .ok a s' => .ok a { s' with procedure := s.procedure }
  | .error e s' => .error e { s' with procedure := s.procedure }

/-- Stores a value of one type in a place of another. -/
def assign (dest source : Ty) : Check Unit := do
  match ← ofSize (dest.accepts? source) with
  | .fits => pure ()
  | .lossOfInformation =>
    let warning : Warning := ⟨← ofSize dest.text?, ← ofSize source.text?⟩
    modify fun s => { s with warnings := s.warnings ++ [warning] }
  | .illegal => refuse (.illegalAssignment (← ofSize dest.text?) (← ofSize source.text?))

/-- Stores a literal, if the value is one and the place is not a pointer. -/
def assignLiteral (dest : Ty) (pointer : Bool) (literal : Option Ty) : Check Unit :=
  match literal with
  | some source => if pointer then pure () else assign dest source
  | none => pure ()

end Check

/-! ## 3. Types of labels and records -/

/-- The type of a name, with a written size in place of its own. -/
def resolveType (st : ScopeStack) (name : String) (size : Option UInt64) : Except Fault Ty :=
  match st.lookupType? name with
  | none => .error (.unresolvedType name)
  | some type =>
    match size with
    | none => .ok type
    | some size => .ok { type with size }

/-- The type a label carries. -/
def declaredType (st : ScopeStack) (l : Label) : Except Fault Ty :=
  match l.typeName with
  | none => .error (.malformedNode l.kind ("'" ++ l.value ++ "' has no type"))
  | some name => resolveType st name l.size

/-- The type of a field, from the first type expression below it. -/
def fieldType (st : ScopeStack) (l : Label) (children : List Node) : Except Fault Ty :=
  match children.find? (·.kind == .typeExpr) with
  | none => .error (.malformedNode .field ("'" ++ l.value ++ "' has no type"))
  | some type => resolveType st type.value type.label.size

/-- One more field of a record. -/
def addField (fields : Table Ty) (name : String) (type : Ty) : Except Fault (Table Ty) :=
  let key := Name.mangle name
  if fields.contains key then .error (.redeclared ⟨.field, name⟩)
  else .ok (fields.insert key type)

mutual

/-- The composite type of a record. -/
def recordType (st : ScopeStack) : Node → Except Fault Ty
  | ⟨l, children⟩ => do
    let fields ← recordFields st [] children
    return ⟨l.value, 0, fields⟩

/-- The fields of a record after those in `fields`: fields and nested records count, any other
    child does not. -/
def recordFields (st : ScopeStack) (fields : Table Ty) : List Node → Except Fault (Table Ty)
  | [] => .ok fields
  | ⟨l, children⟩ :: rest =>
    match l.kind with
    | .field => do
      let type ← fieldType st l children
      recordFields st (← addField fields l.value type) rest
    | .record => do
      let type ← recordType st ⟨l, children⟩
      recordFields st (← addField fields l.value type) rest
    | _ => recordFields st fields rest

end

/-! ## 4. Procedures and calls -/

/-- A procedure of this type returns nothing. Case does not matter. -/
def isVoid (name : String) : Bool := Text.isAsciiWord "void" name

/-- What a procedure returns, from its first child. -/
def resultType (st : ScopeStack) (l : Label) (children : List Node) : Except Fault (Option Ty) :=
  match children.head? with
  | some type =>
    if type.kind = .typeExpr then
      if isVoid type.value then .ok none
      else (resolveType st type.value type.label.size).map some
    else
      .error (.malformedNode .procedure ("'" ++ l.value ++ "' has no return type"))
  | none => .error (.malformedNode .procedure ("'" ++ l.value ++ "' has no return type"))

/-- The variables of the parameters. -/
def paramVariables (st : ScopeStack) : List Node → Check (List Variable)
  | [] => pure []
  | n :: rest => do
    let type ← Check.ofExcept (declaredType st n.label)
    let v ← Check.makeVariable n.value type n.label.pointer
    return v :: (← paramVariables st rest)

/-- The statements of a procedure among its children. -/
def statements (children : List Node) : List Node :=
  children.filter fun n => n.kind != .modifier && n.kind != .typeExpr && n.kind != .argument

/-- Does a statement follow the first return? -/
def hasUnreachable (statements : List Node) : Bool :=
  match statements.dropWhile (·.kind != .ret) with
  | [] => false
  | _ :: rest => !rest.isEmpty

/-- The procedure that a node declares. -/
def procedureOf (l : Label) (children : List Node) : Check Procedure := do
  let st ← Check.scopes
  let returns ← Check.ofExcept (resultType st l children)
  let params ← paramVariables st (children.filter (·.kind == .argument))
  if hasUnreachable (statements children) then
    Check.refuse (.unreachableCode l.value)
  return ⟨l.value, returns, params⟩

/-- Stores the literal arguments of a call in the parameters. -/
def assignArguments : List Variable → List Node → Check Unit
  | p :: params, arg :: args => do
    Check.assignLiteral p.type p.pointer (arg.children.head?.bind literalType?)
    assignArguments params args
  | _, _ => pure ()

/-- The arguments of a call, against the procedure called. -/
def checkArguments (p : Procedure) (args : List Node) : Check Unit :=
  if args.length ≠ p.params.length then
    Check.refuse (.argumentCount p.name p.params.length args.length)
  else
    assignArguments p.params args

/-- A return, against the procedure it stands in. -/
def checkReturn (value : Option Node) : Check Unit := do
  match (← get).procedure with
  | none => pure ()
  | some p =>
    match p.returns, value with
    | none, some _ => Check.refuse (.unexpectedReturnValue p.name)
    | some _, none => Check.refuse (.missingReturnValue p.name)
    | some dest, some v => Check.assignLiteral dest false (literalType? v)
    | none, none => pure ()

/-! ## 5. Declarations -/

/-- Has the written path more than one segment? -/
def hasSegments : List Char → Bool
  | [] => false
  | c :: rest => (c == ':' && rest.head? == some ':') || hasSegments rest

/-- Declares the type of a record, unless the record has no name or is nested in another. -/
def declareRecord (n : Node) : Check Unit := do
  if n.value = "" || n.label.path.any (hasSegments ·.toList) then
    pure ()
  else
    let type ← Check.ofExcept (recordType (← Check.scopes) n)
    Check.declare (·.declareType type)

/-- Declares the variable of a label. -/
def declareTyped (l : Label) : Check Unit := do
  let type ← Check.ofExcept (declaredType (← Check.scopes) l)
  let v ← Check.makeVariable l.value type l.pointer
  Check.declare (·.declareVariable v)

/-- Declares the variable of a label with a first value. An elementary type without a bound takes
    the size of a literal. -/
def declareWith (l : Label) (literal : Option Ty) : Check Unit := do
  let type ← Check.ofExcept (declaredType (← Check.scopes) l)
  let type := match literal with
    | some source =>
      if !type.isComposite && type.size = 0 then { type with size := source.size } else type
    | none => type
  Check.assignLiteral type l.pointer literal
  let v ← Check.makeVariable l.value type l.pointer
  Check.declare (·.declareVariable v)

/-- The operands among the children of a declaration. -/
def operandsOf (children : List Node) : List Node := children.filter (·.kind != .modifier)

/-- What is wrong with an assignment or a declaration of another shape. -/
def targetAndValue : String := "expected a target and a value"

/-! ## 6. The walk -/

mutual

/-- Checks a node and everything below it. -/
def visit : Node → Check Node
  | ⟨l, children⟩ =>
    match l.kind with
    | .root | .directive | .field | .print => return ⟨l, ← visitAll children⟩
    | .record => Check.inScope do
      let children ← visitAll children
      declareRecord ⟨l, children⟩
      return ⟨l, children⟩
    | .procedure => Check.inScope do
      let p ← procedureOf l children
      Check.declare (·.declareProcedure p)
      return ⟨l, ← Check.inBodyOf p (visitAll children)⟩
    | .argument =>
      match (children.filter (·.kind == .typeExpr)).length with
      | 0 => return ⟨l, ← visitAll children⟩
      | 1 => do
        declareTyped l
        return ⟨l, children⟩
      | _ => Check.refuse (.malformedParameter l.value)
    | .call => do
      match (← Check.scopes).lookupProcedure? l.value with
      | none => Check.refuse (.unresolvedProcedure l.value)
      | some p =>
        let children ← visitAll children
        checkArguments p (children.filter (·.kind == .argument))
        return ⟨l, children⟩
    | .typeExpr => do
      if isVoid l.value || Text.isAsciiWord "struct" l.value then
        return ⟨l, children⟩
      else
        let _ ← Check.ofExcept (resolveType (← Check.scopes) l.value l.size)
        return ⟨l, children⟩
    | .modifier | .scalar => return ⟨l, children⟩
    | .assignment =>
      match children with
      | [target, value] => do
        let value ← visit value
        if target.kind = .field then
          return ⟨l, [target, value]⟩
        else
          let (target, dest) ← resolve target
          Check.assignLiteral dest target.label.pointer (literalType? value)
          return ⟨l, [target, value]⟩
      | _ => Check.refuse (.malformedNode .assignment targetAndValue)
    | .declaration =>
      match operandsOf children with
      | [target, _] => do
        let children ← visitOperand 1 children
        declareWith target.label ((operandsOf children)[1]?.bind literalType?)
        return ⟨l, children⟩
      | _ => Check.refuse (.malformedNode .declaration targetAndValue)
    | .reference | .dynamicOffset => return (← resolve ⟨l, children⟩).1
    | .allocation => do
      let _ ← Check.ofExcept (declaredType (← Check.scopes) l)
      return ⟨l, children⟩
    | .ret => do
      let children ← visitAll children
      checkReturn children.head?
      return ⟨l, children⟩

/-- Checks nodes from left to right. -/
def visitAll : List Node → Check (List Node)
  | [] => pure []
  | n :: rest => do
    let n ← visit n
    return n :: (← visitAll rest)

/-- Checks the operand that has `before` operands in front of it, and leaves the others. -/
def visitOperand (before : Nat) : List Node → Check (List Node)
  | [] => pure []
  | n :: rest =>
    if n.kind = .modifier then
      return n :: (← visitOperand before rest)
    else match before with
      | 0 => return (← visit n) :: rest
      | before + 1 => return n :: (← visitOperand before rest)

/-- Resolves a variable and the fields that lead on from it; gives the type of the last. -/
def resolve : Node → Check (Node × Ty)
  | ⟨l, children⟩ => do
    match (← Check.scopes).lookupVariable? l.value with
    | none => Check.refuse (.unresolvedVariable l.value)
    | some v =>
      let (children, leaf) ← resolveFields v.type v.type children
      return (⟨{ l with typeName := some v.type.name }, children⟩, leaf)

/-- Resolves the fields below a place of type `parent`. The last field gives the type reached;
    without one it is `leaf`. -/
def resolveFields (parent leaf : Ty) : List Node → Check (List Node × Ty)
  | [] => return ([], leaf)
  | ⟨l, children⟩ :: rest =>
    match l.kind with
    | .field => do
      match parent.field? l.value with
      | none => Check.refuse (.unresolvedPath (l.path.getD l.value))
      | some type =>
        let (children, leaf) ← resolveFields type type children
        let (rest, leaf) ← resolveFields parent leaf rest
        return (⟨{ l with typeName := some type.name }, children⟩ :: rest, leaf)
    | .dynamicOffset => do
      let (n, _) ← resolve ⟨l, children⟩
      let (rest, leaf) ← resolveFields parent leaf rest
      return (n :: rest, leaf)
    | _ => do
      let n ← visit ⟨l, children⟩
      let (rest, leaf) ← resolveFields parent leaf rest
      return (n :: rest, leaf)

end

/-! ## 7. Runs -/

/-- What a good run gives. -/
structure Analysis where
  tree : Node
  warnings : List Warning
  /-- The closed scopes, in the order they were left. -/
  scopes : List Scope
  globals : Scope
  deriving Repr

/-- Hands over the warnings and the closed scopes of a run. -/
def Check.handOver (tree : Node) : Check Analysis := fun s =>
  .ok ⟨tree, s.warnings, s.archive, s.scopes.root⟩ { s with warnings := [], archive := [] }

/-- One run over one tree. -/
def Check.analyze (tree : Node) : Check Analysis := do
  Check.handOver (← visit tree)

end Osclan
