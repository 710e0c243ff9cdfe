/-
  File:      Osclan/Table.lean
  Subject:   Tables that keep the order in which their keys came.
-/
namespace Osclan

/-- Keys with their values, in the order in which the keys first came. -/
abbrev Table (α : Type) := List (String × α)

namespace Table

variable {α : Type}

/-- The value of a key. -/
def find? (t : Table α) (key : String) : Option α := List.lookup key t

/-- Is there a value of the key? -/
def contains (t : Table α) (key : String) : Bool := (t.find? key).isSome

/-- A key that is there keeps its place and takes the new value, a new key goes last. -/
def insert : Table α → String → α → Table α
  | [], key, value => [(key, value)]
  | (k, v) :: rest, key, value =>
    if k = key then (key, value) :: rest else (k, v) :: insert rest key value

end Table

end Osclan
