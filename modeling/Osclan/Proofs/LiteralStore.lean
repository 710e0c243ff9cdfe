/-
  File:      Osclan/Proofs/LiteralStore.lean
  Subject:   The literals a program stores, and where it stores them.

  A literal is stored by a declaration, by an assignment, by a return, or by a call that hands it
  over. This file lists the literals a program stores, in the order in which the program is gone
  through, each with the slot it goes to, the way it gets there, and whether the slot is that of a
  pointer. The slots are read off the declarations before the store, names compared as they are
  written; no scopes, keys or types of the check occur.

  * `Slot`, `Literal`, `Store` -- what is stored where, and what is wrong with it;
  * `Decls`, `Pointers` -- the records, procedures and variables declared before a place, and which
    of the variables are pointers;
  * `Write`, `Write.isExempt` -- a store with its way, and the ways that are free for pointers;
  * `Value.writes`, `Statement.writes`, `Item.writes` -- the literals each construct stores;
  * `Program.writes`, `Program.stores` -- all literals that a program stores, and those of them that
    are checked.

  A member of an anonymous record is no store of its own. A literal that a pointer is declared with
  or that is handed over for a pointer is stored, but not checked.
-/
import Osclan.Analysis
import Osclan.Program.Tree

namespace Osclan

/-! ## 1. Slots and literals -/

/-- What a value is stored in: the name of its type, the size in bytes that is declared for it, or 0
    if none is, and the fields of a record. -/
structure Slot where
  name : String
  size : UInt64
  fields : List (String × Slot)

/-- A literal as it is written. -/
inductive Literal where
  | number (digits : String)
  | text (content : String)

/-- A type name and a size as messages write them. -/
def sizedText (name : String) (size : UInt64) : String := name ++ "(" ++ size.toNat.repr ++ ")"

namespace Literal

/-- The literal is a text. -/
def isText : Literal → Bool
  | .number _ => false
  | .text _ => true

/-- The digits of a number, or the characters of a text. -/
def content : Literal → String
  | .number digits => digits
  | .text content => content

/-- The length in bytes, as a word. -/
def size (x : Literal) : UInt64 := byteSize x.content

/-- The name of the type a literal has. -/
def typeName : Literal → String
  | .number _ => "int"
  | .text _ => "string"

end Literal

namespace Slot

/-- The slot has no fields. -/
def isElementary (t : Slot) : Bool := t.fields.isEmpty

/-- The slot is an elementary `int` or `uint`. -/
def isNumeric (t : Slot) : Bool := t.isElementary && (t.name == "int" || t.name == "uint")

/-- The slot of a field. -/
def field? (t : Slot) (name : String) : Option Slot := t.fields.lookup name

/-- The slot that the segments of a path lead to. -/
def follow? (t : Slot) : List Segment → Option Slot
  | [] => some t
  | .fixed name _ :: rest => (t.field? name).bind (·.follow? rest)
  | .dynamic name _ :: rest => (t.field? name).bind (·.follow? rest)

/-- The slot of a variable that starts with a literal or without one: an elementary slot without a
    declared size takes that of the literal. -/
def startingWith (t : Slot) : Option Literal → Slot
  | some x => if t.isElementary && t.size == 0 then { t with size := x.size } else t
  | none => t

end Slot

/-- A literal that is stored, and the slot it goes to; none if what it is stored in is not
    declared. -/
structure Store where
  dest : Option Slot
  literal : Literal

namespace Store

/-- A text goes to an elementary `int` or `uint`. -/
def isIllegal (o : Store) : Bool := o.literal.isText && o.dest.any Slot.isNumeric

/-- The slot is elementary, has a declared size, and the literal is longer. -/
def loses (o : Store) : Bool :=
  o.dest.any fun t => t.isElementary && t.size != 0 && decide (t.size < o.literal.size)

/-- The slot as messages write it. -/
def destText (o : Store) : String := o.dest.elim "" fun t => sizedText t.name t.size

/-- The literal as messages write it. -/
def sourceText (o : Store) : String := sizedText o.literal.typeName o.literal.size

/-- The warning if something is lost. -/
def warning (o : Store) : Warning := ⟨o.destText, o.sourceText⟩

end Store

/-! ## 2. Declarations -/

/-- What a procedure returns, if anything, and its parameters, each with whether it is a pointer. -/
structure Signature where
  returns : Option Slot
  params : List (Slot × Bool)

/-- What is declared before a place, the latest first: the records with their fields, the
    procedures, the variables at the top, and in a procedure its parameters and variables and the
    slot of its result. -/
structure Decls where
  records : List (String × List (String × Slot)) := []
  procs : List (String × Signature) := []
  globals : List (String × Slot) := []
  locals : List (String × Slot) := []
  result : Option Slot := none

namespace Decls

/-- The slot of a written type. -/
def slot (d : Decls) (type : TypeExpr) : Slot :=
  ⟨type.name, type.size.getD 0, (d.records.lookup type.name).getD []⟩

/-- The slot of the variable that a name stands for. -/
def slotOf? (d : Decls) (name : String) : Option Slot := (d.locals ++ d.globals).lookup name

/-- The slot that a path leads to. -/
def slotAt? (d : Decls) : Path → Option Slot
  | .mk base segments => (d.slotOf? base).bind (·.follow? segments)

/-- The slot of a variable that is declared with a value. -/
def slotWith (d : Decls) (type : TypeExpr) (value : Option Literal) : Slot :=
  (d.slot type).startingWith value

mutual

/-- A field of a record, with its slot. -/
def field (d : Decls) : Field → String × Slot
  | .plain type name => (name, d.slot type)
  | .nested name fields => (name, ⟨name, 0, d.fields fields⟩)

/-- Some fields of a record, with their slots. -/
def fields (d : Decls) : List Field → List (String × Slot)
  | [] => []
  | f :: rest => d.field f :: d.fields rest

end

/-- What a procedure of the given type returns. -/
def result? (d : Decls) (type : TypeExpr) : Option Slot :=
  if isVoid type.name then none else some (d.slot type)

/-- The signature of a procedure as it is written. -/
def signature (d : Decls) (returns : TypeExpr) (params : List Param) : Signature :=
  ⟨d.result? returns, params.map fun p => (d.slot p.type, p.type.pointer)⟩

/-- Behind a record at the top. -/
def addRecord (d : Decls) (name : String) (fields : List (String × Slot)) : Decls :=
  { d with records := (name, fields) :: d.records }

/-- Behind the heading of a procedure. -/
def addProc (d : Decls) (name : String) (sig : Signature) : Decls :=
  { d with procs := (name, sig) :: d.procs }

/-- Behind a variable at the top. -/
def addGlobal (d : Decls) (name : String) (t : Slot) : Decls :=
  { d with globals := (name, t) :: d.globals }

/-- Behind a variable or a parameter of a procedure. -/
def addLocal (d : Decls) (name : String) (t : Slot) : Decls :=
  { d with locals := (name, t) :: d.locals }

/-- Behind the parameters of a procedure. -/
def addParams (d : Decls) (params : List Param) : Decls :=
  params.foldl (fun d p => d.addLocal p.name (d.slot p.type)) d

/-- At the beginning of a body, behind the parameters. -/
def enter (d : Decls) (returns : TypeExpr) (params : List Param) : Decls :=
  { d with result := d.result? returns }.addParams params

end Decls

/-- Which of the variables declared before a place are pointers, the latest first, and whether the
    procedure around it returns one. -/
structure Pointers where
  globals : List (String × Bool) := []
  locals : List (String × Bool) := []
  result : Bool := false

namespace Pointers

/-- Behind a variable or a parameter of a procedure. -/
def addLocal (m : Pointers) (name : String) (pointer : Bool) : Pointers :=
  { m with locals := (name, pointer) :: m.locals }

/-- The path is the bare name of a pointer. -/
def isPointer (m : Pointers) : Path → Bool
  | .mk base segments => segments.isEmpty && ((m.locals ++ m.globals).lookup base).getD false

/-- At the beginning of a body, behind the parameters. -/
def enter (m : Pointers) (returns : TypeExpr) (params : List Param) : Pointers :=
  params.foldl (fun m p => m.addLocal p.name p.type.pointer) { m with result := returns.pointer }

/-- What the statements behind a statement see. -/
def behind (m : Pointers) : Statement → Pointers
  | .declare type name _ => m.addLocal name type.pointer
  | _ => m

/-- What the items behind an item see. -/
def behindItem (m : Pointers) : Item → Pointers
  | .declaration _ (.global type name _) => { m with globals := (name, type.pointer) :: m.globals }
  | _ => m

end Pointers

/-! ## 3. Writes -/

/-- The way in which a literal is stored. -/
inductive StoreForm where
  | declared
  | assigned
  | handedOver
  | returned
  deriving DecidableEq

/-- A declaration and a call look at whether the destination is a pointer. -/
def StoreForm.sparesPointers : StoreForm → Bool
  | .declared | .handedOver => true
  | .assigned | .returned => false

/-- A literal that is stored, in which way, and whether what it is stored in was declared as a
    pointer. -/
structure Write where
  form : StoreForm
  pointer : Bool
  store : Store

namespace Write

/-- What a pointer is declared with, and what is handed over for one, is not checked. -/
def isExempt (w : Write) : Bool := w.pointer && w.form.sparesPointers

/-- The stores that are checked. -/
def checkedStores (ws : List Write) : List Store := (ws.filter (!·.isExempt)).map store

end Write

/-- The literal that a value is, if it is one. -/
def Value.literal? : Value → Option Literal
  | .number digits => some (.number digits)
  | .text content => some (.text content)
  | _ => none

/-- The write of a value itself: one if the value is a literal. -/
def Value.writeIn (form : StoreForm) (isPointer : Bool) (dest : Option Slot) (value : Value) :
    List Write :=
  value.literal?.toList.map fun x => ⟨form, isPointer, ⟨dest, x⟩⟩

/-- The writes of the arguments of a call in the parameters. -/
def Value.writesInto : List (Slot × Bool) → List Value → List Write
  | _, [] => []
  | [], value :: args => value.writeIn .handedOver false none ++ Value.writesInto [] args
  | (t, isPointer) :: params, value :: args =>
    value.writeIn .handedOver isPointer (some t) ++ Value.writesInto params args

mutual

/-- The writes inside a value. A call goes through the values of its arguments before it hands them
    over. -/
def Value.writes (d : Decls) : Value → List Write
  | .anon members => Member.writes d members
  | .call name args =>
    Value.writesAll d args ++
      Value.writesInto (((d.procs.lookup name).map Signature.params).getD []) args
  | .allocate _ | .number _ | .text _ | .path _ | .pointer _ => []

/-- The writes inside the values of members. -/
def Member.writes (d : Decls) : List Member → List Write
  | [] => []
  | .mk _ value :: rest => value.writes d ++ Member.writes d rest

/-- The writes inside some values. -/
def Value.writesAll (d : Decls) : List Value → List Write
  | [] => []
  | value :: rest => value.writes d ++ Value.writesAll d rest

end

/-- The writes of a variable declared with a value. -/
def Decls.bindingWrites (d : Decls) (type : TypeExpr) (value : Value) : List Write :=
  value.writes d ++ value.writeIn .declared type.pointer (some (d.slotWith type value.literal?))

/-- The writes of a statement. What is assigned or returned is stored behind what its value
    stores. -/
def Statement.writes (d : Decls) (m : Pointers) : Statement → List Write
  | .declare type _ value => d.bindingWrites type value
  | .assign target value =>
    value.writes d ++ value.writeIn .assigned (m.isPointer target) (d.slotAt? target)
  | .ret (some value) => value.writes d ++ value.writeIn .returned m.result d.result
  | .ret none => []
  | .print value => value.writes d
  | .call name args => (Value.call name args).writes d

/-- What the statements behind a statement see. -/
def Decls.behind (d : Decls) : Statement → Decls
  | .declare type name value => d.addLocal name (d.slotWith type value.literal?)
  | _ => d

/-- The writes of a body. -/
def Statement.writesAll (d : Decls) (m : Pointers) : List Statement → List Write
  | [] => []
  | st :: rest => st.writes d m ++ Statement.writesAll (d.behind st) (m.behind st) rest

/-- The writes of an item. A procedure can be called in its own body. -/
def Item.writes (d : Decls) (m : Pointers) : Item → List Write
  | .directive _ _ => []
  | .declaration _ (.record _ _) => []
  | .declaration _ (.procedure returns name params body) =>
    Statement.writesAll ((d.addProc name (d.signature returns params)).enter returns params)
      (m.enter returns params) body
  | .declaration _ (.global type _ value) => d.bindingWrites type value

/-- What the items behind an item see. A record without a name is not declared. -/
def Decls.behindItem (d : Decls) : Item → Decls
  | .directive _ _ => d
  | .declaration _ (.record name fields) =>
    if name = "" then d else d.addRecord name (d.fields fields)
  | .declaration _ (.procedure returns name params _) => d.addProc name (d.signature returns params)
  | .declaration _ (.global type name value) => d.addGlobal name (d.slotWith type value.literal?)

/-- The writes of some items, each with what those before it declare. -/
def Item.writesAll (d : Decls) (m : Pointers) : List Item → List Write
  | [] => []
  | item :: rest => item.writes d m ++ Item.writesAll (d.behindItem item) (m.behindItem item) rest

/-- **All literals that a program stores**, in the order in which the program is gone through. -/
def Program.writes (p : Program) : List Write := Item.writesAll {} {} p.items

/-- **The literals that a program stores under the rules for literals**: all but those that a pointer
    is declared with or that are handed over for a pointer. -/
def Program.stores (p : Program) : List Store := Write.checkedStores p.writes

end Osclan
