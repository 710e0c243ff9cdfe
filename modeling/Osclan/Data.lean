/-
  File:      Osclan/Data.lean
  Subject:   Plain data, as the dumps hold it.

  One type for what the dumps write: the formats (JSON, YAML) are functions on it, and what is
  dumped is turned into it first. The entries of a map keep their order.
-/
namespace Osclan

/-- What can be dumped. -/
inductive Data where
  | null
  | bool (b : Bool)
  | nat (n : Nat)
  | text (s : String)
  | list (items : List Data)
  | map (entries : List (String × Data))

namespace Data

/-- A value that may be missing. -/
def ofOption {α : Type} (f : α → Data) : Option α → Data
  | some a => f a
  | none => .null

end Data

end Osclan
