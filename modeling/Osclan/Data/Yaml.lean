/-
  File:      Osclan/Data/Yaml.lean
  Subject:   Data as YAML text in block style.

  A value is a list of lines, which its surroundings set in: a map below a key goes in by two
  blanks, the items of a list stay at the level of the key. A key of more than 128 bytes stands on
  a line of its own behind `? `, its value behind `: `.

  The texts that are dumped are source names and mangled names. A source name begins with a letter
  and holds letters, numbers and hyphens, and the truth values are reserved words; so only the
  words for the null value have to be quoted.
-/
import Osclan.Data

namespace Osclan.Data

/-- A text as a scalar. -/
def yamlText (s : String) : String :=
  if s = "null" ∨ s = "Null" ∨ s = "NULL" then "'" ++ s ++ "'" else s

/-- The one-line form of a scalar, an empty list or an empty map. -/
def yamlInline? : Data → Option String
  | .null => some "null"
  | .bool b => some (if b then "true" else "false")
  | .nat n => some n.repr
  | .text s => some (yamlText s)
  | .list [] => some "[]"
  | .map [] => some "\x7b\x7d"
  | _ => none

/-- Lines with one mark before the first and another before the others. -/
def hang (first others : String) : List String → List String
  | [] => []
  | line :: lines => (first ++ line) :: lines.map (others ++ ·)

/-- The longest key, in bytes, that stands on one line with its value. -/
def longestKey : Nat := 128

/-- An entry of a map, from the lines of its value. -/
def yamlEntry (key : String) (value : Data) (lines : List String) : List String :=
  if longestKey < key.utf8ByteSize then
    ("? " ++ yamlText key) :: hang ": " "  " lines
  else match value, yamlInline? value with
    | _, some short => [yamlText key ++ ": " ++ short]
    | .list _, none => (yamlText key ++ ":") :: lines
    | _, none => (yamlText key ++ ":") :: lines.map ("  " ++ ·)

mutual

/-- The lines of a value. -/
def yamlLines : Data → List String
  | .list (item :: items) => yamlItems (item :: items)
  | .map (entry :: entries) => yamlEntries (entry :: entries)
  | d => (yamlInline? d).toList

/-- The lines of a list, each item behind a dash. -/
def yamlItems : List Data → List String
  | [] => []
  | item :: items => hang "- " "  " (yamlLines item) ++ yamlItems items

/-- The lines of a map, one entry after the other. -/
def yamlEntries : List (String × Data) → List String
  | [] => []
  | (key, value) :: entries => yamlEntry key value (yamlLines value) ++ yamlEntries entries

end

/-- Data as YAML text. -/
def yaml (d : Data) : String := String.join ((yamlLines d).map (· ++ "\n"))

end Osclan.Data
