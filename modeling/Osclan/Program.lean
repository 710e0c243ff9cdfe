/-
  File:      Osclan/Program.lean
  Subject:   Programs as the grammar forms them.

  One type for each production. What the source may spell in two ways and mean the same stands
  here once: a member `x` of an anonymous record is `x : x`, and a segment without an offset has
  offset 0.
-/
namespace Osclan

/-- A type expression: `[name]`, `[name(size)]`, `[name*]`, `[name(size)*]`. -/
structure TypeExpr where
  name : String
  size : Option UInt64
  pointer : Bool
  deriving DecidableEq, Repr

mutual

/-- A variable and the fields that lead on from it: `a::b(2)::c`. -/
inductive Path where
  | mk (base : String) (segments : List Segment)

/-- One field of a path, with a constant offset or one read at run time. -/
inductive Segment where
  | fixed (name : String) (offset : UInt64)
  | dynamic (name : String) (offset : Path)

end

mutual

/-- What may be stored, passed, printed or returned. -/
inductive Value where
  | allocate (type : TypeExpr)
  | number (digits : String)
  | text (content : String)
  | path (path : Path)
  | pointer (name : String)
  | anon (members : List Member)
  | call (name : String) (args : List Value)

/-- A member of an anonymous record. -/
inductive Member where
  | mk (name : String) (value : Value)

end

/-- A statement of a procedure body. -/
inductive Statement where
  | declare (type : TypeExpr) (name : String) (value : Value)
  | assign (target : Path) (value : Value)
  | ret (value : Option Value)
  | print (value : Value)
  | call (name : String) (args : List Value)

/-- A field of a record, or a record nested in it. -/
inductive Field where
  | plain (type : TypeExpr) (name : String)
  | nested (name : String) (fields : List Field)

/-- A parameter of a procedure. -/
structure Param where
  type : TypeExpr
  name : String
  deriving DecidableEq, Repr

/-- What a declaration at the top of a program declares. -/
inductive Declared where
  | record (name : String) (fields : List Field)
  | procedure (returns : TypeExpr) (name : String) (params : List Param) (body : List Statement)
  | global (type : TypeExpr) (name : String) (value : Value)

/-- An item of a program. -/
inductive Item where
  | directive (name argument : String)
  | declaration (modifiers : List String) (declared : Declared)

/-- A program: its items in source order. -/
structure Program where
  items : List Item

end Osclan
