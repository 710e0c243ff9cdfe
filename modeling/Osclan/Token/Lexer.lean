/-
  File:      Osclan/Token/Lexer.lean
  Subject:   From source text to tokens.

  The source is cut at its head again and again. `headWith` says what the first characters of a
  non-empty text are, and how many characters after the first belong to it; so each cut takes at
  least one character, whatever the count, and `lexWith` ends. Both are written for any table of
  reserved texts, and Osclan has the table `reservedWords`.

  * `headWith`, `head` -- a gap (a blank, or a comment), a token, or a fault;
  * `lexWith`, `lex` -- all tokens from a place on, closed by an end token;
  * `tokenizeWith`, `tokenize` -- the tokens of a file.
-/
import Osclan.Text.Blank
import Osclan.Text.Word
import Osclan.Token

namespace Osclan

/-- Why a text cannot be cut into tokens. -/
inductive LexError where
  | unterminatedText (opened : Position)
  | unexpectedChar (c : Char) (pos : Position)
  deriving DecidableEq, Repr

/-- The message for the user. -/
def LexError.message : LexError → String
  | .unterminatedText opened => "String literal not terminated, opened at " ++ opened.text
  | .unexpectedChar c pos =>
    "Unexpected character '" ++ String.singleton c ++ "' at " ++ pos.text

/-! ## 1. The head of a text -/

/-- What a non-empty text begins with. `more` counts the characters after the first. -/
inductive Head where
  | gap (more : Nat)
  | token (kind : TokenKind) (value : String) (more : Nat)
  | openText
  | foreign
  deriving DecidableEq, Repr

/-- Does the reserved text stand at the head of the input? -/
def Reserved.standsAt (row : Reserved) (input : List Char) : Bool :=
  Text.beginsWith row.text.toList input &&
    (row.runsOn || !(input.drop row.text.length).head?.any isIdentChar)

/-- The head of `c :: cs`, where `table` holds the reserved texts in the order they are tried. The
    order of the cases is the rule: a comment is tried before the symbol `.`, a reserved text before
    an identifier or a symbol. -/
def headWith (table : List Reserved) (c : Char) (cs : List Char) : Head :=
  if Text.isBlank c then
    .gap 0
  else if c = '.' ∧ cs.head? = some '*' then
    .gap (cs.takeWhile (· ≠ '\n')).length
  else if c = '"' then
    let body := cs.takeWhile (· ≠ '"')
    if body.length < cs.length then .token .text (String.ofList body) (body.length + 1)
    else .openText
  else match table.find? (·.standsAt (c :: cs)) with
    | some row => .token row.kind row.value (row.text.length - 1)
    | none =>
      if Text.isAlphabetic c then
        let tail := cs.takeWhile isIdentChar
        .token .ident (String.ofList (c :: tail)) tail.length
      else if c.isDigit then
        let tail := cs.takeWhile Char.isDigit
        .token .number (String.ofList (c :: tail)) tail.length
      else match symbolKind? c with
        | some kind => .token kind (String.singleton c) 0
        | none => .foreign

/-- The head of `c :: cs`, with the reserved texts of Osclan. -/
def head (c : Char) (cs : List Char) : Head := headWith reservedWords c cs

/-! ## 2. The tokens of a text -/

/-- The tokens of the characters that stand at `pos`, with the reserved texts of `table`. -/
def lexWith (table : List Reserved) (pos : Position) : List Char → Except LexError (List Token)
  | [] => .ok [⟨.eof, "", pos⟩]
  | c :: cs =>
    match headWith table c cs with
    | .gap more => lexWith table (pos.after (c :: cs.take more)) (cs.drop more)
    | .token kind value more => do
      let rest ← lexWith table (pos.after (c :: cs.take more)) (cs.drop more)
      return ⟨kind, value, pos⟩ :: rest
    | .openText => .error (.unterminatedText pos)
    | .foreign => .error (.unexpectedChar c pos)
termination_by cs => cs.length
decreasing_by all_goals simp only [List.length_drop, List.length_cons]; omega

/-- The tokens of the characters that stand at `pos`. -/
def lex (pos : Position) (cs : List Char) : Except LexError (List Token) :=
  lexWith reservedWords pos cs

/-- The tokens of a source file, with the reserved texts of `table`. -/
def tokenizeWith (table : List Reserved) (file source : String) : Except LexError (List Token) :=
  lexWith table (Position.start file) source.toList

/-- The tokens of a source file. -/
def tokenize (file source : String) : Except LexError (List Token) :=
  tokenizeWith reservedWords file source

end Osclan
