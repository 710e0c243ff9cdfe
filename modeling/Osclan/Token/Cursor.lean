/-
  File:      Osclan/Token/Cursor.lean
  Subject:   Looking at and taking the tokens that are left.

  A grammar works on the list of the tokens still to be read. A reader that takes tokens hands back
  what is left with a bound on its length, so that a grammar built from such readers ends.

  A cursor also knows how many tokens it has taken. The place of a token is its number from the
  start, in a 64-bit word; looking ahead to a place that leaves the word is an overflow.

  * `Tokens` -- looking at the tokens left, and taking the next of a wanted kind;
  * `Cursor` -- the same one step after the other, with the count of the tokens taken.
-/
import Osclan.Text.Numeral
import Osclan.Token

namespace Osclan

/-- Why tokens do not form a program. -/
inductive ParseError where
  | unexpectedEnd
  | unexpectedToken (expected : String) (found : Token)
  | invalidDirective (name : String) (pos : Position)
  | invalidNumber (digits : String) (pos : Position)
  deriving DecidableEq, Repr

/-- The message for the user. -/
def ParseError.message : ParseError → String
  | .unexpectedEnd => "Unexpected end of file"
  | .unexpectedToken expected found =>
    "Unexpected token " ++ found.text ++ ", expected " ++ expected
  | .invalidDirective name pos => "Invalid directive '" ++ name ++ "' at " ++ pos.text
  | .invalidNumber digits pos => "Invalid number '" ++ digits ++ "' at " ++ pos.text

/-! ## 1. Looking -/

namespace Tokens

/-- Is there a next token, and is it of one of the kinds? -/
def check (kinds : List TokenKind) (ts : List Token) : Bool :=
  ts.head?.any fun t => kinds.contains t.kind

/-- Do the next tokens have exactly these kinds? -/
def atSequence : List TokenKind → List Token → Bool
  | [], _ => true
  | _ :: _, [] => false
  | kind :: kinds, t :: ts => t.kind == kind && atSequence kinds ts

end Tokens

/-! ## 2. Taking -/

/-- A result read from the front of some tokens, and the tokens after it: fewer than `bound`. -/
structure Parsed (α : Type) (bound : Nat) where
  value : α
  rest : List Token
  shorter : rest.length < bound

/-- A reader of a result of type `α` that takes at least one token of `ts`. -/
abbrev Reads (α : Type) (ts : List Token) := Except ParseError (Parsed α ts.length)

/-- A reader of a result of type `α` that may take no token of `ts`. -/
abbrev MayRead (α : Type) (ts : List Token) := Except ParseError (Parsed α (ts.length + 1))

/-- The kinds as a message lists them. -/
def TokenKind.listText (kinds : List TokenKind) : String :=
  " | ".intercalate (kinds.map TokenKind.name)

namespace Tokens

/-- Takes the next token, which must be of one of the kinds; `expected` names them. -/
def expectAs (expected : String) (kinds : List TokenKind) : (ts : List Token) → Reads Token ts
  | [] => .error .unexpectedEnd
  | t :: ts =>
    if kinds.contains t.kind then .ok ⟨t, ts, Nat.lt_succ_self _⟩
    else .error (.unexpectedToken expected t)

/-- Takes the next token, which must be of one of the kinds. -/
def expect (kinds : List TokenKind) (ts : List Token) : Reads Token ts :=
  expectAs (TokenKind.listText kinds) kinds ts

end Tokens

/-! ## 3. Cursors -/

/-- The number of the tokens taken so far, and the tokens left. -/
structure Cursor where
  taken : Nat
  rest : List Token

namespace Cursor

/-- In front of the first token. -/
def ofTokens (ts : List Token) : Cursor := ⟨0, ts⟩

/-- The next token, if there is one. -/
def peek (c : Cursor) : Option Token := c.rest.head?

/-- The token `n` places ahead, if there is one. The outer none is an overflow: the place leaves the
    word, whether or not a token could stand there. -/
def peekNth? (n : Nat) (c : Cursor) : Option (Option Token) :=
  if c.taken + n < Text.wordLimit then some c.rest[n]? else none

/-- The next token and the cursor after it. At the end the cursor stays. -/
def next (c : Cursor) : Option Token × Cursor :=
  match c.rest with
  | [] => (none, c)
  | t :: ts => (some t, ⟨c.taken + 1, ts⟩)

/-- The next token, taken only if it is of one of the kinds. -/
def consume (kinds : List TokenKind) (c : Cursor) : Option Token × Cursor :=
  if Tokens.check kinds c.rest then c.next else (none, c)

/-- Takes the next token, which must be of one of the kinds; `expected` names them. -/
def expectAs (expected : String) (kinds : List TokenKind) (c : Cursor) :
    Except ParseError (Token × Cursor) := do
  let ⟨t, ts, _⟩ ← Tokens.expectAs expected kinds c.rest
  return (t, ⟨c.taken + 1, ts⟩)

end Cursor

end Osclan
