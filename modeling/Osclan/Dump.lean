/-
  File:      Osclan/Dump.lean
  Subject:   Tokens, trees and scope tables as plain data.
-/
import Osclan.Analysis
import Osclan.Data.Json
import Osclan.Data.Yaml
import Osclan.Token

namespace Osclan

/-! ## 1. Tokens and trees -/

/-- A place, with its file. -/
def Position.toData (p : Position) : Data :=
  .map [("file", .text p.file), ("line", .nat p.line), ("col", .nat p.col),
    ("offset", .nat p.offset)]

/-- A token, with its place. -/
def Token.toData (t : Token) : Data :=
  .map [("kind", .text t.kind.name), ("value", .text t.value), ("pos", t.pos.toData)]

mutual

/-- A tree, with all that its labels hold. -/
def Node.toData : Node → Data
  | ⟨l, children⟩ =>
    .map [("kind", .text l.kind.name), ("value", .text l.value),
      ("value_type", .ofOption .text l.typeName),
      ("value_size", .ofOption (fun n : UInt64 => .nat n.toNat) l.size),
      ("is_pointer", .bool l.pointer), ("path", .ofOption .text l.path),
      ("offset", .nat l.offset.toNat), ("children", .list (Node.toDataAll children))]

/-- Some trees, in their order. -/
def Node.toDataAll : List Node → List Data
  | [] => []
  | n :: rest => n.toData :: Node.toDataAll rest

end

/-! ## 2. Scope tables -/

mutual

/-- A type, with the types inside it. -/
def Ty.toData : Ty → Data
  | ⟨name, size, fields⟩ =>
    .map [("name", .text name), ("size", .nat size.toNat), ("subtypes", .map (Ty.fieldData fields))]

/-- The fields of a type under their keys. -/
def Ty.fieldData : List (String × Ty) → List (String × Data)
  | [] => []
  | (key, t) :: rest => (key, t.toData) :: Ty.fieldData rest

end

/-- A variable, with its key. -/
def Variable.toData (v : Variable) : Data :=
  .map [("name", .text v.name), ("mangled", .text v.mangled), ("ty", v.type.toData),
    ("is_pointer", .bool v.pointer), ("size", .nat v.size.toNat)]

/-- A procedure, with its key. -/
def Procedure.toData (p : Procedure) : Data :=
  .map [("name", .text p.name), ("mangled", .text p.mangled),
    ("returns", .ofOption Ty.toData p.returns), ("params", .list (p.params.map Variable.toData))]

/-- A table as a map in the order of its keys. -/
def Table.toData {α : Type} (f : α → Data) (t : Table α) : Data :=
  .map (t.map fun (key, a) => (key, f a))

/-- A scope, with its three tables. -/
def Scope.toData (s : Scope) : Data :=
  .map [("depth", .nat s.depth), ("variables", s.vars.toData Variable.toData),
    ("types", s.types.toData Ty.toData), ("procedures", s.procs.toData Procedure.toData)]

/-- The scope tables of a run. -/
def Analysis.scopeTables (a : Analysis) : Data :=
  .map [("globals", a.globals.toData), ("scopes", .list (a.scopes.map Scope.toData))]

end Osclan
