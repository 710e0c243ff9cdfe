/-
  File:      Osclan/Ty.lean
  Subject:   Type values: sizes, fields, and what may be stored where.

  * `Ty` -- an elementary type with a size in bytes, or a composite of fields;
  * `Ty.size?` -- the size, summed over the fields of a composite in 64-bit words; `none` where
    the sum leaves the word;
  * `Ty.accepts` -- whether a value of one type may be stored in a place of another;
  * `Ty.accepts?` -- the same with the sizes summed up as they are needed;
  * `literalType?` -- the type of a literal.
-/
import Osclan.Name
import Osclan.Table
import Osclan.Text.Numeral
import Osclan.Tree

namespace Osclan

/-- A type. It is composite if it has fields, else elementary; a composite's own size is not used.
    Size 0 of an elementary type means that no bound is declared. The fields are keyed by their
    mangled names. -/
structure Ty where
  name : String
  size : UInt64
  fields : List (String × Ty)
  deriving Repr

namespace Ty

/-! ## 1. Making and looking up -/

/-- A type without fields. -/
def elementary (name : String) (size : UInt64) : Ty := ⟨name, size, []⟩

/-- The types every program knows. -/
def builtins : List Ty := [elementary "int" 0, elementary "uint" 0, elementary "string" 0]

/-- The type has fields. -/
def isComposite (t : Ty) : Bool := !t.fields.isEmpty

/-- The type of a field. -/
def field? (t : Ty) (name : String) : Option Ty := Table.find? t.fields (Name.mangle name)

/-! ## 2. Sizes -/

/-- The sum of two words, unless it leaves the word. -/
def addWords? (a b : UInt64) : Option UInt64 :=
  if a.toNat + b.toNat < Text.wordLimit then some (a + b) else none

mutual

/-- The size of a type: that of an elementary type is its own, that of a composite the sum over
    its fields. -/
def size? : Ty → Option UInt64
  | ⟨_, size, []⟩ => some size
  | ⟨_, _, f :: fs⟩ => sumSizes 0 (f :: fs)

/-- The sizes of the fields, added to `acc` from left to right. -/
def sumSizes (acc : UInt64) : List (String × Ty) → Option UInt64
  | [] => some acc
  | (_, t) :: rest =>
    match t.size? with
    | none => none
    | some size =>
      match addWords? acc size with
      | none => none
      | some acc => sumSizes acc rest

end

/-- A type and a size as messages write them. -/
def textAs (t : Ty) (size : UInt64) : String := t.name ++ "(" ++ size.toNat.repr ++ ")"

/-- A type as text, with its size. -/
def text? (t : Ty) : Option String := t.size?.map t.textAs

/-! ## 3. Stores -/

/-- What comes of storing a value of one type in a place of another. -/
inductive Compatibility where
  | fits | lossOfInformation | illegal
  deriving DecidableEq, Repr

/-- The type is that of texts. -/
def isString (t : Ty) : Bool := !t.isComposite && t.name == "string"

/-- The type is one of the two of numbers. -/
def isNumeric (t : Ty) : Bool := !t.isComposite && (t.name == "int" || t.name == "uint")

/-- May a value of type `source` be stored in a place of type `to`? A text never fits a number. A
    composite on either side is let through. A place without a bound takes any size. -/
def accepts (dest source : Ty) : Compatibility :=
  if source.isString && dest.isNumeric then .illegal
  else if dest.isComposite || source.isComposite then .fits
  else if dest.size ≠ 0 ∧ dest.size < source.size then .lossOfInformation
  else .fits

/-- The same question with each size summed up where it is needed; `none` where a sum leaves the
    word. -/
def accepts? (dest source : Ty) : Option Compatibility :=
  if source.isString && dest.isNumeric then some .illegal
  else if dest.isComposite || source.isComposite then some .fits
  else do
    let bound ← dest.size?
    if bound = 0 then
      return .fits
    let size ← source.size?
    return if bound < size then .lossOfInformation else .fits

end Ty

/-- The type of a literal, as large as the literal's text. Other nodes have none before their names
    are resolved. -/
def literalType? (n : Node) : Option Ty :=
  if n.kind = .scalar then
    let size := UInt64.ofNat n.value.utf8ByteSize
    if n.label.typeName = some "string" then some (.elementary "string" size)
    else some (.elementary "int" size)
  else
    none

end Osclan
