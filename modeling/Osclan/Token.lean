/-
  File:      Osclan/Token.lean
  Subject:   Tokens: kinds, positions, and the fixed texts of the language.

  * `TokenKind`, `Position`, `Token` -- what the source is cut into;
  * `symbols` -- the one-character tokens; `symbolKind?` and `TokenKind.symbol?` read the table in
    the two directions;
  * `reservedWords` -- the texts that are taken for themselves before an identifier is tried.
-/
import Osclan.Text.Numeric

namespace Osclan

/-! ## 1. Kinds -/

/-- The kind of a token. -/
inductive TokenKind where
  | doubleColon | notEqual
  | dot | plus | minus | lt | gt | lparen | rparen | lbracket | rbracket
  | equal | colon | comma | asterisk | tilde
  | declare | struct | beginBlock | endBlock | anon | modifier | ret | print | call | init
  | increment | decrement | ifWord | elseWord | thenWord
  | ident | number | text | eof
  deriving DecidableEq, Repr

/-- The name of a kind, as messages and dumps write it. -/
def TokenKind.name : TokenKind → String
  | .doubleColon => "DoubleColon"
  | .notEqual => "NotEqual"
  | .dot => "Dot"
  | .plus => "Plus"
  | .minus => "Minus"
  | .lt => "Lt"
  | .gt => "Gt"
  | .lparen => "LParen"
  | .rparen => "RParen"
  | .lbracket => "LBracket"
  | .rbracket => "RBracket"
  | .equal => "Equal"
  | .colon => "Colon"
  | .comma => "Comma"
  | .asterisk => "Asterisk"
  | .tilde => "Tilde"
  | .declare => "Declare"
  | .struct => "Struct"
  | .beginBlock => "Begin"
  | .endBlock => "End"
  | .anon => "Anon"
  | .modifier => "Modifier"
  | .ret => "Ret"
  | .print => "Print"
  | .call => "Call"
  | .init => "Init"
  | .increment => "Increment"
  | .decrement => "Decrement"
  | .ifWord => "If"
  | .elseWord => "Else"
  | .thenWord => "Then"
  | .ident => "Ident"
  | .number => "Number"
  | .text => "Text"
  | .eof => "Eof"

/-- Every kind, in the order of declaration. -/
def TokenKind.all : List TokenKind :=
  [.doubleColon, .notEqual, .dot, .plus, .minus, .lt, .gt, .lparen, .rparen, .lbracket, .rbracket,
   .equal, .colon, .comma, .asterisk, .tilde, .declare, .struct, .beginBlock, .endBlock, .anon,
   .modifier, .ret, .print, .call, .init, .increment, .decrement, .ifWord, .elseWord, .thenWord,
   .ident, .number, .text, .eof]

/-! ## 2. Positions and tokens -/

/-- A place in a source file. Lines and columns count from 1, the offset from 0; columns and
    offset count characters. -/
structure Position where
  file : String
  line : Nat
  col : Nat
  offset : Nat
  deriving DecidableEq, Repr

/-- The place where a file begins. -/
def Position.start (file : String) : Position := ⟨file, 1, 1, 0⟩

/-- The place after one more character. -/
def Position.next (p : Position) (c : Char) : Position :=
  if c = '\n' then { p with line := p.line + 1, col := 1, offset := p.offset + 1 }
  else { p with col := p.col + 1, offset := p.offset + 1 }

/-- The place after some characters. -/
def Position.after (p : Position) (cs : List Char) : Position := cs.foldl Position.next p

/-- A place as messages write it. -/
def Position.text (p : Position) : String :=
  p.file ++ ":" ++ p.line.repr ++ ":" ++ p.col.repr

/-- A token with the place of its first character. The value of a reserved word is the word's
    fixed value, that of a text literal its content without the quotes. -/
structure Token where
  kind : TokenKind
  value : String
  pos : Position
  deriving DecidableEq, Repr

/-! ## 3. Fixed texts -/

/-- The one-character tokens. -/
def symbols : List (Char × TokenKind) :=
  [('.', .dot), ('+', .plus), ('-', .minus), ('<', .lt), ('>', .gt), ('(', .lparen), (')', .rparen),
   ('[', .lbracket), (']', .rbracket), ('=', .equal), (':', .colon), (',', .comma),
   ('*', .asterisk), ('~', .tilde)]

/-- The kind of a character that is a token. -/
def symbolKind? (c : Char) : Option TokenKind := symbols.lookup c

/-- The character of a one-character kind. -/
def TokenKind.symbol? (kind : TokenKind) : Option Char :=
  (symbols.find? fun row => row.2 == kind).map Prod.fst

/-- A text that is a token of its own. A reserved text other than `::` counts only where no
    identifier character follows it. -/
structure Reserved where
  text : String
  kind : TokenKind
  value : String
  runsOn : Bool := false
  deriving DecidableEq, Repr

/-- The reserved texts, in the order they are tried. Three of them stand for numbers. -/
def reservedWords : List Reserved :=
  [⟨"::", .doubleColon, "::", true⟩, ⟨"~=", .notEqual, "~=", false⟩,
   ⟨"declare", .declare, "declare", false⟩, ⟨"struct", .struct, "struct", false⟩,
   ⟨"begin", .beginBlock, "begin", false⟩, ⟨"end", .endBlock, "end", false⟩,
   ⟨"anon", .anon, "anon", false⟩,
   ⟨"public", .modifier, "public", false⟩, ⟨"private", .modifier, "private", false⟩,
   ⟨"ret", .ret, "ret", false⟩, ⟨"print", .print, "print", false⟩, ⟨"call", .call, "call", false⟩,
   ⟨"init", .init, "init", false⟩, ⟨"increment", .increment, "increment", false⟩,
   ⟨"decrement", .decrement, "decrement", false⟩, ⟨"if", .ifWord, "if", false⟩,
   ⟨"else", .elseWord, "else", false⟩, ⟨"then", .thenWord, "then", false⟩,
   ⟨"ok", .number, "0", false⟩, ⟨"true", .number, "1", false⟩, ⟨"false", .number, "0", false⟩]

/-- May the character continue an identifier? -/
def isIdentChar (c : Char) : Bool := Text.isAlphanumeric c || c == '-'

/-- A token as messages write it: a one-character kind with its character, any other with its
    value, if it has one. -/
def Token.text (t : Token) : String :=
  match t.kind.symbol? with
  | some c => t.kind.name ++ " '" ++ String.singleton c ++ "' at " ++ t.pos.text
  | none =>
    if t.value = "" then t.kind.name ++ " at " ++ t.pos.text
    else t.kind.name ++ " '" ++ t.value ++ "' at " ++ t.pos.text

end Osclan
