/-
  File:      Osclan/Text/Word.lean
  Subject:   Words without regard to case.

  Two rules stand side by side, because the language uses both:

  * reserved words and directive names are compared by full lower case (`lower`);
  * the type names `void` and `struct` are compared by ASCII lower case (`Char.toLower`).

  They differ at one character. Outside ASCII only the Kelvin sign has a single ASCII letter as its
  lower case; the capital I with a dot becomes two characters, and every other character stays
  outside ASCII. So a word of ASCII letters is recognised exactly by the comparisons below.
-/
namespace Osclan.Text

/-- The lower case of a character, where that is one ASCII character; else the character itself. -/
def lower (c : Char) : Char := if c = '\u212a' then 'k' else c.toLower

/-- Do the characters begin with the word, case set aside? The word is in lower case. -/
def beginsWith : (word input : List Char) → Bool
  | [], _ => true
  | _ :: _, [] => false
  | w :: word, c :: input => lower c == w && beginsWith word input

/-- Is the text the word, case set aside? The word is in lower case. -/
def isWord (word text : String) : Bool := text.toList.map lower == word.toList

/-- Is the text the word, ASCII case set aside? The word is in lower case. -/
def isAsciiWord (word text : String) : Bool := text.toList.map Char.toLower == word.toList

end Osclan.Text
