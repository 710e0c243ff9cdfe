/-
  File:      Osclan/Proofs/CursorScan.lean
  Subject:   The grammar as scans of a cursor, which nothing makes end.

  A reader of the grammar hands back what is left together with a bound on it, and takes the bound
  it needs for a call of itself; so it ends by the way it is written. The scans below have no
  bounds. They look at the next token, take it, go round while a test holds, and enter a production
  again from inside it. A round that takes no token is followed by the same round.

  Scans are functions all the same, since they are given a number of rounds: a loop goes round that
  often, and a production is entered from inside itself that often. A scan that would need more is
  left unfinished, and that is no answer: it is neither a result nor a refusal.

  * `Scan`, `Scanned` -- scans, and how they come out;
  * `Scan.rounds`, `Scan.listed` -- the two kinds of repetition;
  * `Scan.typeExpr`, `Scan.path`, `Scan.value`, `Scan.statement`, … -- the productions;
  * `Scan.program` -- the program of the tokens left, up to the end token.
-/
import Osclan.Program.Grammar

namespace Osclan

open Tokens

/-! ## 1. Scans -/

/-- How a scan comes out: with a result and the cursor behind it, with a refusal, or not at all. -/
inductive Scanned (α : Type) where
  | done (value : α) (cursor : Cursor)
  | refused (reason : ParseError)
  | unfinished

namespace Scanned

variable {α β : Type}

/-- Goes on from a result, and from nothing else. -/
def andThen : Scanned α → (α → Cursor → Scanned β) → Scanned β
  | .done value c, next => next value c
  | .refused reason, _ => .refused reason
  | .unfinished, _ => .unfinished

/-- What a scan says of the tokens, if it comes to an end. -/
def answer? : Scanned α → Option (Except ParseError α)
  | .done value _ => some (.ok value)
  | .refused reason => some (.error reason)
  | .unfinished => none

end Scanned

/-- A scan of the tokens left at a cursor. -/
def Scan (α : Type) := Cursor → Scanned α

namespace Scan

variable {α : Type}

/-- Scans in sequence: the second goes on where the first has ended. -/
instance : Monad Scan where
  pure value := fun c => .done value c
  bind scan next := fun c => (scan c).andThen next

/-- The scan with no rounds left. -/
def stuck : Scan α := fun _ => .unfinished

/-- Refuses whatever tokens are left. -/
def refuse (reason : ParseError) : Scan α := fun _ => .refused reason

/-- A result or a refusal that does not depend on the tokens left. -/
def ofExcept : Except ParseError α → Scan α
  | .ok value => pure value
  | .error reason => refuse reason

/-- Takes the next token, which must be of one of the kinds. -/
def take (kinds : List TokenKind) : Scan Token := fun c =>
  match c.expectAs (TokenKind.listText kinds) kinds with
  | .ok (t, c') => .done t c'
  | .error reason => .refused reason

/-- The next token, which stays where it is. -/
def peek : Scan Token := fun c =>
  match c.peek with
  | some t => .done t c
  | none => .refused .unexpectedEnd

/-- One of two scans, by a look at the tokens left. -/
def branch (test : List Token → Bool) (yes no : Scan α) : Scan α := fun c =>
  if test c.rest then yes c else no c

/-! ## 2. Repetition -/

/-- Elements, as long as the tokens left pass the test: `n` rounds, the one where it fails
    included. -/
def rounds (more : List Token → Bool) (element : Scan α) : Nat → Scan (List α)
  | 0 => stuck
  | n + 1 => branch more
    (do
      let first ← element
      let others ← rounds more element n
      return first :: others)
    (return [])

/-- Elements between commas, none if `)` comes first. -/
def listed (element : Scan α) (n : Nat) : Scan (List α) :=
  branch (check [.rparen])
    (return [])
    (do
      let first ← element
      let others ← rounds (check [.comma]) (do
        let _ ← take [.comma]
        element) n
      return first :: others)

/-- Is the block still open? -/
def inBlock (ts : List Token) : Bool := !check [.endBlock, .eof] ts

/-! ## 3. Names, numbers, types -/

/-- The name of an identifier. -/
def ident : Scan String := do
  let t ← take [.ident]
  return t.value

/-- The word of a number. -/
def number : Scan UInt64 := do
  let t ← take [.number]
  ofExcept (Grammar.numberOf t)

/-- size = [ "(" number ")" ] -/
def typeSize : Scan (Option UInt64) :=
  branch (check [.lparen])
    (do
      let _ ← take [.lparen]
      let size ← number
      let _ ← take [.rparen]
      return some size)
    (return none)

/-- star = [ "*" ] -/
def typeStar : Scan Bool :=
  branch (check [.asterisk])
    (do
      let _ ← take [.asterisk]
      return true)
    (return false)

/-- typeExpr = "[" ( ident | "struct" ) size star "]" -/
def typeExpr : Scan TypeExpr := do
  let _ ← take [.lbracket]
  let name ← take [.ident, .struct]
  let size ← typeSize
  let pointer ← typeStar
  let _ ← take [.rbracket]
  return ⟨name.value, size, pointer⟩

/-! ## 4. Paths and values -/

/-- offset = [ "(" ( number | path ) ")" ], behind the name of a segment. -/
def segmentOffset (name : String) (path : Scan Path) : Scan Segment :=
  branch (check [.lparen])
    (do
      let _ ← take [.lparen]
      branch (check [.number])
        (do
          let offset ← number
          let _ ← take [.rparen]
          return .fixed name offset)
        (branch (check [.ident])
          (do
            let offset ← path
            let _ ← take [.rparen]
            return .dynamic name offset)
          (do
            let t ← peek
            ofExcept (Grammar.unexpected [.number, .ident] t))))
    (return .fixed name 0)

/-- path = ident { "::" ident offset } -/
def path : Nat → Scan Path
  | 0 => stuck
  | n + 1 => do
    let base ← ident
    let segments ← rounds (check [.doubleColon]) (do
      let _ ← take [.doubleColon]
      let name ← ident
      segmentOffset name (path n)) n
    return .mk base segments

/-- call = "call" ident "(" [ value { "," value } ] ")" -/
def call (value : Scan Value) (n : Nat) : Scan (String × List Value) := do
  let _ ← take [.call]
  let name ← ident
  let _ ← take [.lparen]
  let args ← listed value n
  let _ ← take [.rparen]
  return (name, args)

/-- member = ident ":" value | ident -/
def member (value : Scan Value) : Scan Member :=
  branch (atSequence [.ident, .colon])
    (do
      let name ← ident
      let _ ← take [.colon]
      let v ← value
      return .mk name v)
    (do
      let name ← ident
      return .mk name (.path (.mk name [])))

/-- anon = "declare" "anon" { member } "end" -/
def anon (value : Scan Value) (n : Nat) : Scan (List Member) := do
  let _ ← take [.declare]
  let _ ← take [.anon]
  let members ← rounds inBlock (member value) n
  let _ ← take [.endBlock]
  return members

/-- value = "init" typeExpr | number | text | path | "*" ident | anon | call -/
def value : Nat → Scan Value
  | 0 => stuck
  | n + 1 => do
    let t ← peek
    match t.kind with
    | .init => do
      let _ ← take [.init]
      let type ← typeExpr
      return .allocate type
    | .number => do
      let t ← take [.number]
      let _ ← ofExcept (Grammar.numberOf t)
      return .number t.value
    | .text => do
      let t ← take [.text]
      return .text t.value
    | .ident => do
      let p ← path (n + 1)
      return .path p
    | .asterisk => do
      let _ ← take [.asterisk]
      let name ← ident
      return .pointer name
    | .declare => do
      let members ← anon (value n) n
      return .anon members
    | .call => do
      let (name, args) ← call (value n) n
      return .call name args
    | _ => ofExcept (Grammar.unexpected Grammar.valueKinds t)

/-! ## 5. Statements -/

/-- binding = typeExpr ident ":" value -/
def binding (n : Nat) : Scan (TypeExpr × String × Value) := do
  let type ← typeExpr
  let name ← ident
  let _ ← take [.colon]
  let v ← value n
  return (type, name, v)

/-- statement = "declare" binding | path ":" value | "ret" [ value ] | "print" value | call -/
def statement (n : Nat) : Scan Statement := do
  let t ← peek
  match t.kind with
  | .declare => do
    let _ ← take [.declare]
    let (type, name, v) ← binding n
    return .declare type name v
  | .ident => do
    let target ← path n
    let _ ← take [.colon]
    let v ← value n
    return .assign target v
  | .ret => do
    let _ ← take [.ret]
    branch (check [.endBlock])
      (return .ret none)
      (do
        let v ← value n
        return .ret (some v))
  | .print => do
    let _ ← take [.print]
    let v ← value n
    return .print v
  | .call => do
    let (name, args) ← call (value n) n
    return .call name args
  | _ => ofExcept (Grammar.unexpected [.declare, .ident, .ret, .print, .call] t)

/-! ## 6. Declarations -/

/-- field = typeExpr ident | "[struct]" ident "begin" { field } "end" -/
def field : Nat → Scan Field
  | 0 => stuck
  | n + 1 => do
    let type ← typeExpr
    let name ← ident
    if Text.isAsciiWord "struct" type.name then do
      let _ ← take [.beginBlock]
      let fields ← rounds inBlock (field n) n
      let _ ← take [.endBlock]
      return .nested name fields
    else
      return .plain type name

/-- record = "struct" ident { field } "end" -/
def record (n : Nat) : Scan Declared := do
  let _ ← take [.struct]
  let name ← ident
  let fields ← rounds inBlock (field n) n
  let _ ← take [.endBlock]
  return .record name fields

/-- param = typeExpr ident -/
def param : Scan Param := do
  let type ← typeExpr
  let name ← ident
  return ⟨type, name⟩

/-- procedure = "::" ident "(" [ param { "," param } ] ")" { statement } "end", after the type of
    its result. -/
def procedure (returns : TypeExpr) (n : Nat) : Scan Declared := do
  let _ ← take [.doubleColon]
  let name ← ident
  let _ ← take [.lparen]
  let params ← listed param n
  let _ ← take [.rparen]
  let body ← rounds inBlock (statement n) n
  let _ ← take [.endBlock]
  return .procedure returns name params body

/-- global = ident ":" value, after its type. -/
def global (type : TypeExpr) (n : Nat) : Scan Declared := do
  let name ← ident
  let _ ← take [.colon]
  let v ← value n
  return .global type name v

/-- The text of a modifier. -/
def modifier : Scan String := do
  let t ← take [.modifier]
  return t.value

/-- declared = record | typeExpr ( procedure | global ) -/
def declared (n : Nat) : Scan Declared := do
  let t ← peek
  match t.kind with
  | .struct => record n
  | .lbracket => do
    let type ← typeExpr
    branch (check [.doubleColon]) (procedure type n) (global type n)
  | _ => ofExcept (Grammar.unexpected [.struct, .lbracket] t)

/-- declaration = "declare" { modifier } declared -/
def declaration (n : Nat) : Scan Item := do
  let _ ← take [.declare]
  let modifiers ← rounds (fun us => !check [.struct, .lbracket, .eof] us) modifier n
  let d ← declared n
  return .declaration modifiers d

/-- directive = "." ( "module" | "import" ) text -/
def directive : Scan Item := do
  let _ ← take [.dot]
  let name ← take [.ident]
  if Text.isWord "module" name.value || Text.isWord "import" name.value then do
    let argument ← take [.text]
    return .directive name.value argument.value
  else
    refuse (.invalidDirective name.value name.pos)

/-- item = directive | declaration -/
def item (n : Nat) : Scan Item := do
  let t ← peek
  match t.kind with
  | .dot => directive
  | .declare => declaration n
  | _ => ofExcept (Grammar.unexpected [.dot, .declare, .eof] t)

/-- program = { item } end-of-file -/
def program (n : Nat) : Scan Program := do
  let items ← rounds (fun us => !check [.eof] us) (item n) n
  return ⟨items⟩

end Scan

end Osclan
