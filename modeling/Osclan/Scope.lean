/-
  File:      Osclan/Scope.lean
  Subject:   Scopes and what is declared in them.

  A scope stack is the root scope and the scopes opened inside it, innermost first; the root is
  not on the list, so it cannot be closed. A variable is declared in the innermost scope. A type or
  a procedure declared at depth 1 belongs to the root: the scope of depth 1 is the one that the
  declaration opened for its own body.
-/
import Osclan.Ty

namespace Osclan

/-! ## 1. Entries -/

/-- A variable with its type and the size the type had when it was declared. -/
structure Variable where
  name : String
  type : Ty
  pointer : Bool
  size : UInt64
  deriving Repr

/-- A variable of a type; none if the size of the type leaves the word. -/
def Variable.make? (name : String) (type : Ty) (pointer : Bool) : Option Variable :=
  type.size?.map fun size => ⟨name, type, pointer, size⟩

/-- The key of a variable. -/
def Variable.mangled (v : Variable) : String := Name.mangle v.name

/-- A procedure. Without a result type it returns nothing. -/
structure Procedure where
  name : String
  returns : Option Ty
  params : List Variable
  deriving Repr

/-- The key of a procedure. -/
def Procedure.mangled (p : Procedure) : String := Name.mangle p.name

/-- The declarations of one scope, each keyed by the mangled name. -/
structure Scope where
  depth : Nat
  vars : Table Variable := []
  types : Table Ty := []
  procs : Table Procedure := []
  deriving Repr

/-- What a name may be declared as. -/
inductive Entity where
  | var | type | proc | field
  deriving DecidableEq, Repr

/-- The word for it in messages. -/
def Entity.text : Entity → String
  | .var => "variable"
  | .type => "type"
  | .proc => "procedure"
  | .field => "field"

/-- A name declared where it is declared already. -/
structure Redeclared where
  entity : Entity
  name : String
  deriving DecidableEq, Repr

/-! ## 2. The stack -/

/-- The root scope and the open scopes inside it, innermost first. -/
structure ScopeStack where
  root : Scope
  inner : List Scope
  deriving Repr

namespace ScopeStack

/-- The stack of a fresh program: the root scope with the types every program knows. -/
def fresh : ScopeStack :=
  { root := { depth := 0, types := Ty.builtins.map fun t => (Name.mangle t.name, t) }, inner := [] }

/-- All scopes, innermost first. -/
def scopes (st : ScopeStack) : List Scope := st.inner ++ [st.root]

/-- The number of open scopes, the root included. -/
def size (st : ScopeStack) : Nat := st.inner.length + 1

/-- The scope that was opened last; the root if none is open. -/
def innermost (st : ScopeStack) : Scope := st.inner.headD st.root

/-- The depth of the innermost scope. -/
def depth (st : ScopeStack) : Nat := st.innermost.depth

/-- Opens a scope. -/
def push (st : ScopeStack) : ScopeStack :=
  { st with inner := { depth := st.depth + 1 } :: st.inner }

/-- Closes the innermost scope and gives it back; the root stays. -/
def pop (st : ScopeStack) : Option Scope × ScopeStack :=
  match st.inner with
  | [] => (none, st)
  | s :: rest => (some s, { st with inner := rest })

/-- Changes the innermost scope. -/
def modifyInnermost (st : ScopeStack) (f : Scope → Scope) : ScopeStack :=
  match st.inner with
  | [] => { st with root := f st.root }
  | s :: rest => { st with inner := f s :: rest }

/-- The scope that a type or a procedure declared now belongs to. -/
def host (st : ScopeStack) : Scope := if st.depth = 1 then st.root else st.innermost

/-- Changes the scope that types and procedures go to. -/
def modifyHost (st : ScopeStack) (f : Scope → Scope) : ScopeStack :=
  if st.depth = 1 then { st with root := f st.root } else st.modifyInnermost f

/-! ## 3. Declaring -/

/-- Declares a variable in the innermost scope, unless its key is there. -/
def declareVariable (st : ScopeStack) (v : Variable) : Except Redeclared ScopeStack :=
  if st.innermost.vars.contains v.mangled then .error ⟨.var, v.name⟩
  else .ok (st.modifyInnermost fun s => { s with vars := s.vars.insert v.mangled v })

/-- Declares a type in the host scope, unless its key is there. -/
def declareType (st : ScopeStack) (t : Ty) : Except Redeclared ScopeStack :=
  let key := Name.mangle t.name
  if st.host.types.contains key then .error ⟨.type, t.name⟩
  else .ok (st.modifyHost fun s => { s with types := s.types.insert key t })

/-- Declares a procedure in the host scope, unless its key is there. -/
def declareProcedure (st : ScopeStack) (p : Procedure) : Except Redeclared ScopeStack :=
  if st.host.procs.contains p.mangled then .error ⟨.proc, p.name⟩
  else .ok (st.modifyHost fun s => { s with procs := s.procs.insert p.mangled p })

/-! ## 4. Resolving -/

/-- The variable of a name in the innermost scope that has one. -/
def lookupVariable? (st : ScopeStack) (name : String) : Option Variable :=
  st.scopes.findSome? fun s => s.vars.find? (Name.mangle name)

/-- The type of a name in the innermost scope that has one. -/
def lookupType? (st : ScopeStack) (name : String) : Option Ty :=
  st.scopes.findSome? fun s => s.types.find? (Name.mangle name)

/-- The procedure of a name in the innermost scope that has one. -/
def lookupProcedure? (st : ScopeStack) (name : String) : Option Procedure :=
  st.scopes.findSome? fun s => s.procs.find? (Name.mangle name)

end ScopeStack

end Osclan
