/-
  File:      Osclan/Name.lean
  Subject:   Names as the tables and the assembler write them.

  A hyphen is legal in a source name and not in an assembler name, so both forms replace it by an
  underscore. A mangled name also carries the length of the source name.
-/
namespace Osclan.Name

/-- Every `old` character replaced by `new`. -/
def replaceChar (old new : Char) (cs : List Char) : List Char :=
  cs.map fun c => if c = old then new else c

/-- The key of a name in scope tables: `first-name` becomes `_O10first_name`. -/
def mangle (name : String) : String :=
  "_O" ++ name.length.repr ++ String.ofList (replaceChar '-' '_' name.toList)

/-- The name a mangled name may have come from. Refuses a text without the mark, without a count,
    or with a wrong count. An underscore is read as a hyphen. -/
def demangle? (mangled : String) : Option String :=
  match mangled.toList with
  | '_' :: 'O' :: rest =>
    let digits := rest.takeWhile Char.isDigit
    let name := rest.dropWhile Char.isDigit
    if digits ≠ [] ∧ Nat.ofDigitChars 10 digits 0 = name.length then
      some (String.ofList (replaceChar '_' '-' name))
    else
      none
  | _ => none

/-- The assembler label of a procedure: `print-line` becomes `_print_line`. -/
def label (name : String) : String :=
  "_" ++ String.ofList (replaceChar '-' '_' name.toList)

end Osclan.Name
