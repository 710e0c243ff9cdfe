/-
  File:      Osclan/Program/Grammar.lean
  Subject:   From tokens to a program.

  One reader for each production; the production stands above its reader. Every reader of a
  production takes at least one token. A production that contains itself (`field`, `path`, `value`)
  calls itself on fewer tokens only: the loops `repeatWhile` and `commaList` hand their element the
  bound it needs for that.

  * `repeatWhile`, `commaList` -- the two kinds of repetition;
  * `typeExpr`, `path`, `value`, `statement`, `field`, `item` -- the productions;
  * `Program.ofTokens` -- the program of a token list, up to its end token.
-/
import Osclan.Program
import Osclan.Text.Numeral
import Osclan.Text.Word
import Osclan.Token.Cursor

namespace Osclan.Grammar

open Tokens

/-! ## 1. Repetition -/

/-- Elements, as long as the tokens left pass the test. The element reader works on lists shorter
    than `bound`. -/
def repeatWhile {α : Type} (more : List Token → Bool) (bound : Nat)
    (element : (us : List Token) → us.length < bound → Reads α us)
    (ts : List Token) (h : ts.length < bound) : MayRead (List α) ts :=
  if more ts then do
    let ⟨first, us, hu⟩ ← element ts h
    let ⟨others, vs, hv⟩ ← repeatWhile more bound element us (by omega)
    return ⟨first :: others, vs, by omega⟩
  else
    return ⟨[], ts, by omega⟩
termination_by ts.length

/-- Elements between commas, none if `)` comes first. -/
def commaList {α : Type} (bound : Nat)
    (element : (us : List Token) → us.length < bound → Reads α us)
    (ts : List Token) (h : ts.length < bound) : MayRead (List α) ts :=
  if check [.rparen] ts then
    return ⟨[], ts, by omega⟩
  else do
    let ⟨first, us, hu⟩ ← element ts h
    let ⟨others, vs, hv⟩ ← repeatWhile (check [.comma]) bound (fun us hu => do
      let ⟨_, vs, hv⟩ ← expect [.comma] us
      let ⟨x, ws, hw⟩ ← element vs (by omega)
      return ⟨x, ws, by omega⟩) us (by omega)
    return ⟨first :: others, vs, by omega⟩

/-- The failure at a token that begins none of the kinds. -/
def unexpected {α : Type} (kinds : List TokenKind) (found : Token) : Except ParseError α :=
  .error (.unexpectedToken (TokenKind.listText kinds) found)

/-! ## 2. Names, numbers, types -/

/-- The name of an identifier. -/
def ident (ts : List Token) : Reads String ts := do
  let ⟨t, us, h⟩ ← expect [.ident] ts
  return ⟨t.value, us, h⟩

/-- The word a number token denotes. -/
def numberOf (t : Token) : Except ParseError UInt64 :=
  match Text.readWord? t.value with
  | some n => .ok n
  | none => .error (.invalidNumber t.value t.pos)

/-- The word of a number. -/
def number (ts : List Token) : Reads UInt64 ts := do
  let ⟨t, us, h⟩ ← expect [.number] ts
  return ⟨← numberOf t, us, h⟩

/-- size = [ "(" number ")" ] -/
def typeSize (ts : List Token) : MayRead (Option UInt64) ts :=
  if check [.lparen] ts then do
    let ⟨_, us, hu⟩ ← expect [.lparen] ts
    let ⟨size, vs, hv⟩ ← number us
    let ⟨_, ws, hw⟩ ← expect [.rparen] vs
    return ⟨some size, ws, by omega⟩
  else
    return ⟨none, ts, by omega⟩

/-- star = [ "*" ] -/
def typeStar (ts : List Token) : MayRead Bool ts :=
  if check [.asterisk] ts then do
    let ⟨_, us, hu⟩ ← expect [.asterisk] ts
    return ⟨true, us, by omega⟩
  else
    return ⟨false, ts, by omega⟩

/-- typeExpr = "[" ( ident | "struct" ) size star "]" -/
def typeExpr (ts : List Token) : Reads TypeExpr ts := do
  let ⟨_, us, hu⟩ ← expect [.lbracket] ts
  let ⟨name, vs, hv⟩ ← expect [.ident, .struct] us
  let ⟨size, ws, hw⟩ ← typeSize vs
  let ⟨pointer, xs, hx⟩ ← typeStar ws
  let ⟨_, ys, hy⟩ ← expect [.rbracket] xs
  return ⟨⟨name.value, size, pointer⟩, ys, by omega⟩

/-! ## 3. Paths and values -/

/-- offset = [ "(" ( number | path ) ")" ]. What stands in the brackets decides how the segment
    `name` goes on; `inner` reads a path. -/
def segmentOffset (name : String) (ts : List Token)
    (inner : (us : List Token) → us.length < ts.length → Reads Path us) : MayRead Segment ts :=
  if check [.lparen] ts then do
    let ⟨_, us, hu⟩ ← expect [.lparen] ts
    if check [.number] us then
      let ⟨offset, vs, hv⟩ ← number us
      let ⟨_, ws, hw⟩ ← expect [.rparen] vs
      return ⟨.fixed name offset, ws, by omega⟩
    else if check [.ident] us then
      let ⟨offset, vs, hv⟩ ← inner us hu
      let ⟨_, ws, hw⟩ ← expect [.rparen] vs
      return ⟨.dynamic name offset, ws, by omega⟩
    else match us with
      | [] => .error .unexpectedEnd
      | t :: _ => unexpected [.number, .ident] t
  else
    return ⟨.fixed name 0, ts, by omega⟩

/-- path = ident { "::" ident offset } -/
def path (ts : List Token) : Reads Path ts := do
  let ⟨base, us, hu⟩ ← ident ts
  let ⟨segments, vs, hv⟩ ← repeatWhile (check [.doubleColon]) ts.length (fun vs hv => do
    let ⟨_, ws, hw⟩ ← expect [.doubleColon] vs
    let ⟨name, xs, hx⟩ ← ident ws
    let ⟨segment, ys, hy⟩ ← segmentOffset name xs (fun zs hz => path zs)
    return ⟨segment, ys, by omega⟩) us hu
  return ⟨.mk base segments, vs, by omega⟩
termination_by ts.length
decreasing_by omega

/-- call = "call" ident "(" [ value { "," value } ] ")" -/
def call (ts : List Token)
    (value : (us : List Token) → us.length < ts.length → Reads Value us) :
    Reads (String × List Value) ts := do
  let ⟨_, us, hu⟩ ← expect [.call] ts
  let ⟨name, vs, hv⟩ ← ident us
  let ⟨_, ws, hw⟩ ← expect [.lparen] vs
  let ⟨args, xs, hx⟩ ← commaList ts.length value ws (by omega)
  let ⟨_, ys, hy⟩ ← expect [.rparen] xs
  return ⟨(name, args), ys, by omega⟩

/-- member = ident ":" value | ident -/
def member (ts : List Token)
    (value : (us : List Token) → us.length < ts.length → Reads Value us) : Reads Member ts :=
  if atSequence [.ident, .colon] ts then do
    let ⟨name, us, hu⟩ ← ident ts
    let ⟨_, vs, hv⟩ ← expect [.colon] us
    let ⟨value, ws, hw⟩ ← value vs (by omega)
    return ⟨.mk name value, ws, by omega⟩
  else do
    let ⟨name, us, hu⟩ ← ident ts
    return ⟨.mk name (.path (.mk name [])), us, hu⟩

/-- anon = "declare" "anon" { member } "end" -/
def anon (ts : List Token)
    (value : (us : List Token) → us.length < ts.length → Reads Value us) :
    Reads (List Member) ts := do
  let ⟨_, us, hu⟩ ← expect [.declare] ts
  let ⟨_, vs, hv⟩ ← expect [.anon] us
  let ⟨members, ws, hw⟩ ← repeatWhile (fun us => !check [.endBlock, .eof] us) ts.length
    (fun us hu => member us (fun vs hv => value vs (by omega))) vs (by omega)
  let ⟨_, xs, hx⟩ ← expect [.endBlock] ws
  return ⟨members, xs, by omega⟩

/-- The kinds a value begins with. -/
def valueKinds : List TokenKind := [.init, .number, .text, .ident, .asterisk, .declare, .call]

/-- value = "init" typeExpr | number | text | path | "*" ident | anon | call -/
def value (ts : List Token) : Reads Value ts :=
  match ts with
  | [] => .error .unexpectedEnd
  | t :: us =>
    match t.kind with
    | .init => do
      let ⟨type, vs, hv⟩ ← typeExpr us
      return ⟨.allocate type, vs, by simp only [List.length_cons]; omega⟩
    | .number => do
      let _ ← numberOf t
      return ⟨.number t.value, us, by simp⟩
    | .text => return ⟨.text t.value, us, by simp⟩
    | .ident => do
      let ⟨p, vs, hv⟩ ← path (t :: us)
      return ⟨.path p, vs, hv⟩
    | .asterisk => do
      let ⟨name, vs, hv⟩ ← ident us
      return ⟨.pointer name, vs, by simp only [List.length_cons]; omega⟩
    | .declare => do
      let ⟨members, vs, hv⟩ ← anon (t :: us) (fun ws hw => value ws)
      return ⟨.anon members, vs, hv⟩
    | .call => do
      let ⟨(name, args), vs, hv⟩ ← call (t :: us) (fun ws hw => value ws)
      return ⟨.call name args, vs, hv⟩
    | _ => unexpected valueKinds t
termination_by ts.length
decreasing_by all_goals assumption

/-! ## 4. Statements -/

/-- binding = typeExpr ident ":" value -/
def binding (ts : List Token) : Reads (TypeExpr × String × Value) ts := do
  let ⟨type, us, hu⟩ ← typeExpr ts
  let ⟨name, vs, hv⟩ ← ident us
  let ⟨_, ws, hw⟩ ← expect [.colon] vs
  let ⟨v, xs, hx⟩ ← value ws
  return ⟨(type, name, v), xs, by omega⟩

/-- statement = "declare" binding | path ":" value | "ret" [ value ] | "print" value | call -/
def statement (ts : List Token) : Reads Statement ts :=
  match ts with
  | [] => .error .unexpectedEnd
  | t :: us =>
    match t.kind with
    | .declare => do
      let ⟨(type, name, v), vs, hv⟩ ← binding us
      return ⟨.declare type name v, vs, by simp only [List.length_cons]; omega⟩
    | .ident => do
      let ⟨target, vs, hv⟩ ← path (t :: us)
      let ⟨_, ws, hw⟩ ← expect [.colon] vs
      let ⟨v, xs, hx⟩ ← value ws
      return ⟨.assign target v, xs, by omega⟩
    | .ret =>
      if check [.endBlock] us then
        return ⟨.ret none, us, by simp⟩
      else do
        let ⟨v, vs, hv⟩ ← value us
        return ⟨.ret (some v), vs, by simp only [List.length_cons]; omega⟩
    | .print => do
      let ⟨v, vs, hv⟩ ← value us
      return ⟨.print v, vs, by simp only [List.length_cons]; omega⟩
    | .call => do
      let ⟨(name, args), vs, hv⟩ ← call (t :: us) (fun ws _ => value ws)
      return ⟨.call name args, vs, hv⟩
    | _ => unexpected [.declare, .ident, .ret, .print, .call] t

/-! ## 5. Declarations -/

/-- field = typeExpr ident | "[struct]" ident "begin" { field } "end" -/
def field (ts : List Token) : Reads Field ts := do
  let ⟨type, us, hu⟩ ← typeExpr ts
  let ⟨name, vs, hv⟩ ← ident us
  if Text.isAsciiWord "struct" type.name then
    let ⟨_, ws, hw⟩ ← expect [.beginBlock] vs
    let ⟨fields, xs, hx⟩ ← repeatWhile (fun us => !check [.endBlock, .eof] us) ts.length
      (fun us hu => field us) ws (by omega)
    let ⟨_, ys, hy⟩ ← expect [.endBlock] xs
    return ⟨.nested name fields, ys, by omega⟩
  else
    return ⟨.plain type name, vs, by omega⟩
termination_by ts.length
decreasing_by assumption

/-- record = "struct" ident { field } "end" -/
def record (ts : List Token) : Reads Declared ts := do
  let ⟨_, us, hu⟩ ← expect [.struct] ts
  let ⟨name, vs, hv⟩ ← ident us
  let ⟨fields, ws, hw⟩ ← repeatWhile (fun us => !check [.endBlock, .eof] us) ts.length
    (fun us _ => field us) vs (by omega)
  let ⟨_, xs, hx⟩ ← expect [.endBlock] ws
  return ⟨.record name fields, xs, by omega⟩

/-- param = typeExpr ident -/
def param (ts : List Token) : Reads Param ts := do
  let ⟨type, us, hu⟩ ← typeExpr ts
  let ⟨name, vs, hv⟩ ← ident us
  return ⟨⟨type, name⟩, vs, by omega⟩

/-- procedure = "::" ident "(" [ param { "," param } ] ")" { statement } "end", after the type of
    its result. -/
def procedure (returns : TypeExpr) (ts : List Token) : Reads Declared ts := do
  let ⟨_, us, hu⟩ ← expect [.doubleColon] ts
  let ⟨name, vs, hv⟩ ← ident us
  let ⟨_, ws, hw⟩ ← expect [.lparen] vs
  let ⟨params, xs, hx⟩ ← commaList ts.length (fun us _ => param us) ws (by omega)
  let ⟨_, ys, hy⟩ ← expect [.rparen] xs
  let ⟨body, zs, hz⟩ ← repeatWhile (fun us => !check [.endBlock, .eof] us) ts.length
    (fun us _ => statement us) ys (by omega)
  let ⟨_, rest, hr⟩ ← expect [.endBlock] zs
  return ⟨.procedure returns name params body, rest, by omega⟩

/-- global = ident ":" value, after its type. -/
def global (type : TypeExpr) (ts : List Token) : Reads Declared ts := do
  let ⟨name, us, hu⟩ ← ident ts
  let ⟨_, vs, hv⟩ ← expect [.colon] us
  let ⟨v, ws, hw⟩ ← value vs
  return ⟨.global type name v, ws, by omega⟩

/-- The text of a modifier. -/
def modifier (ts : List Token) : Reads String ts := do
  let ⟨t, us, hu⟩ ← expect [.modifier] ts
  return ⟨t.value, us, hu⟩

/-- declared = record | typeExpr ( procedure | global ) -/
def declared (ts : List Token) : Reads Declared ts :=
  match ts with
  | [] => .error .unexpectedEnd
  | t :: us =>
    match t.kind with
    | .struct => record (t :: us)
    | .lbracket => do
      let ⟨type, vs, hv⟩ ← typeExpr (t :: us)
      if check [.doubleColon] vs then
        let ⟨d, ws, hw⟩ ← procedure type vs
        return ⟨d, ws, by omega⟩
      else
        let ⟨d, ws, hw⟩ ← global type vs
        return ⟨d, ws, by omega⟩
    | _ => unexpected [.struct, .lbracket] t

/-- declaration = "declare" { modifier } declared -/
def declaration (ts : List Token) : Reads Item ts := do
  let ⟨_, us, hu⟩ ← expect [.declare] ts
  let ⟨modifiers, vs, hv⟩ ← repeatWhile (fun us => !check [.struct, .lbracket, .eof] us) ts.length
    (fun us _ => modifier us) us hu
  let ⟨d, ws, hw⟩ ← declared vs
  return ⟨.declaration modifiers d, ws, by omega⟩

/-- directive = "." ( "module" | "import" ) text -/
def directive (ts : List Token) : Reads Item ts := do
  let ⟨_, us, hu⟩ ← expect [.dot] ts
  let ⟨name, vs, hv⟩ ← expect [.ident] us
  if Text.isWord "module" name.value || Text.isWord "import" name.value then
    let ⟨argument, ws, hw⟩ ← expect [.text] vs
    return ⟨.directive name.value argument.value, ws, by omega⟩
  else
    .error (.invalidDirective name.value name.pos)

/-- item = directive | declaration -/
def item (ts : List Token) : Reads Item ts :=
  match ts with
  | [] => .error .unexpectedEnd
  | t :: us =>
    match t.kind with
    | .dot => directive (t :: us)
    | .declare => declaration (t :: us)
    | _ => unexpected [.dot, .declare, .eof] t

end Grammar

/-! ## 6. Programs -/

theorem length_lt_succ (ts : List Token) : ts.length < ts.length + 1 := Nat.lt_succ_self _

/-- program = { item } end-of-file. What stands after the end token is not looked at. -/
def Program.ofTokens (ts : List Token) : Except ParseError Program := do
  let ⟨items, _, _⟩ ← Grammar.repeatWhile (fun us => !Tokens.check [.eof] us) (ts.length + 1)
    (fun us _ => Grammar.item us) ts (length_lt_succ ts)
  return ⟨items⟩

end Osclan
