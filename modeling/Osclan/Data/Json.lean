/-
  File:      Osclan/Data/Json.lean
  Subject:   Data as JSON text, laid out over lines.

  Two blanks for each level, one item on a line, empty lists and maps closed at once, no newline
  at the end. In a text the quote, the backslash and the characters below the blank are escaped and
  no others.
-/
import Osclan.Data
import Osclan.Tree

namespace Osclan.Data

/-! ## 1. Texts -/

/-- Four hexadecimal digits. -/
def hex4 (n : Nat) : List Char :=
  let digits := Nat.toDigits 16 n
  List.replicate (4 - digits.length) '0' ++ digits

/-- A character inside a JSON text. -/
def jsonChar (c : Char) : List Char :=
  if c = '"' then ['\\', '"']
  else if c = '\\' then ['\\', '\\']
  else if c = '\x08' then ['\\', 'b']
  else if c = '\t' then ['\\', 't']
  else if c = '\n' then ['\\', 'n']
  else if c = '\x0c' then ['\\', 'f']
  else if c = '\r' then ['\\', 'r']
  else if c.toNat < 0x20 then '\\' :: 'u' :: hex4 c.toNat
  else [c]

/-- A text in quotes. -/
def jsonText (s : String) : String := "\"" ++ String.ofList (s.toList.flatMap jsonChar) ++ "\""

/-! ## 2. Values -/

mutual

/-- A value that begins on a line indented by `depth` levels. -/
def jsonAt (depth : Nat) : Data → String
  | .null => "null"
  | .bool b => if b then "true" else "false"
  | .nat n => n.repr
  | .text s => jsonText s
  | .list [] => "[]"
  | .list (item :: items) =>
    "[\n" ++ indent (depth + 1) ++ jsonAt (depth + 1) item ++ jsonItems (depth + 1) items ++
      "\n" ++ indent depth ++ "]"
  | .map [] => "\x7b\x7d"
  | .map (entry :: entries) =>
    "\x7b\n" ++ indent (depth + 1) ++ jsonEntry (depth + 1) entry ++
      jsonEntries (depth + 1) entries ++ "\n" ++ indent depth ++ "\x7d"

/-- The items of a list after the first. -/
def jsonItems (depth : Nat) : List Data → String
  | [] => ""
  | item :: items => ",\n" ++ indent depth ++ jsonAt depth item ++ jsonItems depth items

/-- An entry of a map: its key and its value. -/
def jsonEntry (depth : Nat) : String × Data → String
  | (key, value) => jsonText key ++ ": " ++ jsonAt depth value

/-- The entries of a map after the first. -/
def jsonEntries (depth : Nat) : List (String × Data) → String
  | [] => ""
  | entry :: entries => ",\n" ++ indent depth ++ jsonEntry depth entry ++ jsonEntries depth entries

end

/-- Data as JSON text. -/
def json (d : Data) : String := jsonAt 0 d

end Osclan.Data
