/-
  File:      Osclan/Proofs/Derivation.lean
  Subject:   The grammar as a relation: which tokens form which tree.

  One relation for each production, and one constructor for each of its alternatives. A constructor
  says how the tokens of the whole are put together from those of the parts, and which node it
  prescribes. Nothing here reads tokens: no order of trial, no look ahead, no rest.

  A production that is used inside a production it contains takes that one as a parameter
  (`FormsSegment`, `FormsMember`, `FormsCall`), so that repetition is stated once for all of them.

  A number in the source is any text of digits here; its word is 0 where the text denotes none. That
  all numbers denote words is a condition on the tokens alone, and `Derives` adds it.

  * `Many`, `Listed` -- repetition, and repetition between commas;
  * `FormsType`, `FormsPath`, `FormsValue`, `FormsStatement`, `FormsField`, … -- the productions;
  * `FormsProgram`, `Derives` -- the trees of token lists;
  * `StartsIn` -- the first tokens of each production;
  * `FormsSegment.imp`, `FormsCall.imp`, `FormsMember.imp` -- exchange of a parameter;
  * `OfTokens` -- properties of parts that rest on a property of their tokens;
  * `Field.toNodes_eq_node`, … -- programs have their trees in the shape of the productions.
-/
import Osclan.Program.Tree
import Osclan.Text.Numeral
import Osclan.Text.Word
import Osclan.Token

namespace Osclan

/-! ## 1. Numbers and repetition -/

/-- The word a number denotes. -/
def Token.word (t : Token) : UInt64 := (Text.readWord? t.value).getD 0

/-- A number that denotes no word. -/
def Token.unreadable (t : Token) : Bool :=
  t.kind == .number && (Text.readWord? t.value).isNone

section

variable {β : Type}

/-- many = { part } -/
inductive Many (P : List Token → β → Prop) : List Token → List β → Prop where
  | nil : Many P [] []
  | cons {pre more : List Token} {b : β} {bs : List β} : P pre b → Many P more bs →
      Many P (pre ++ more) (b :: bs)

/-- next = "," part -/
inductive AfterComma (P : List Token → β → Prop) : List Token → β → Prop where
  | mk {c : Token} {pre : List Token} {b : β} : c.kind = .comma → P pre b →
      AfterComma P (c :: pre) b

/-- listed = [ part { "," part } ] -/
inductive Listed (P : List Token → β → Prop) : List Token → List β → Prop where
  | nil : Listed P [] []
  | cons {pre more : List Token} {b : β} {bs : List β} : P pre b →
      Many (AfterComma P) more bs → Listed P (pre ++ more) (b :: bs)

end

/-! ## 2. Types and paths -/

/-- size = [ "(" number ")" ] -/
inductive FormsSize : List Token → Option UInt64 → Prop where
  | none : FormsSize [] none
  | some {l t r : Token} : l.kind = .lparen → t.kind = .number → r.kind = .rparen →
      FormsSize [l, t, r] (some t.word)

/-- star = [ "*" ] -/
inductive FormsStar : List Token → Bool → Prop where
  | none : FormsStar [] false
  | some {t : Token} : t.kind = .asterisk → FormsStar [t] true

/-- type = "[" ( ident | "struct" ) size star "]" -/
inductive FormsType : List Token → Label → Prop where
  | mk {l name r : Token} {size star : List Token} {n : Option UInt64} {pointer : Bool} :
      l.kind = .lbracket → name.kind = .ident ∨ name.kind = .struct → FormsSize size n →
      FormsStar star pointer → r.kind = .rbracket →
      FormsType (l :: name :: (size ++ (star ++ [r])))
        { kind := .typeExpr, value := name.value, size := n, pointer }

/-- One step of a path: a field, its constant offset, and the node of an offset read at run time
    where there is one. -/
structure PathStep where
  name : String
  offset : UInt64
  inner : List Node

/-- segment = "::" ident [ "(" ( number | path ) ")" ] -/
inductive FormsSegment (P : List Token → Node → Prop) : List Token → PathStep → Prop where
  | plain {c name : Token} : c.kind = .doubleColon → name.kind = .ident →
      FormsSegment P [c, name] ⟨name.value, 0, []⟩
  | fixed {c name l t r : Token} : c.kind = .doubleColon → name.kind = .ident →
      l.kind = .lparen → t.kind = .number → r.kind = .rparen →
      FormsSegment P [c, name, l, t, r] ⟨name.value, t.word, []⟩
  | dynamic {c name l r : Token} {pre : List Token} {offset : Node} : c.kind = .doubleColon →
      name.kind = .ident → l.kind = .lparen → P pre offset → r.kind = .rparen →
      FormsSegment P (c :: name :: l :: (pre ++ [r])) ⟨name.value, 0, [offset]⟩

/-- The steps after the path `before`, each below the one before it: no node or one. -/
def chain (before : String) : List PathStep → List Node
  | [] => []
  | step :: rest =>
    let path := before ++ "::" ++ step.name
    [⟨{ kind := .field, value := step.name, path := some path, offset := step.offset },
      step.inner ++ chain path rest⟩]

/-- path = ident { segment }. As an offset it has a kind of its own. -/
inductive FormsPath : NodeKind → List Token → Node → Prop where
  | mk {kind : NodeKind} {base : Token} {pre : List Token} {steps : List PathStep} :
      base.kind = .ident → Many (FormsSegment (FormsPath .dynamicOffset)) pre steps →
      FormsPath kind (base :: pre) ⟨{ kind, value := base.value }, chain base.value steps⟩

/-! ## 3. Values -/

/-- call = "call" ident "(" listed values ")" -/
inductive FormsCall (V : List Token → Node → Prop) : List Token → Node → Prop where
  | mk {c name l r : Token} {args : List Token} {ns : List Node} : c.kind = .call →
      name.kind = .ident → l.kind = .lparen → Listed V args ns → r.kind = .rparen →
      FormsCall V (c :: name :: l :: (args ++ [r]))
        ⟨{ kind := .call, value := name.value }, ns.map fun n => ⟨{ kind := .argument }, [n]⟩⟩

/-- member = ident ":" value | ident, where the name alone is also the value -/
inductive FormsMember (V : List Token → Node → Prop) : List Token → Node → Prop where
  | named {x c : Token} {pre : List Token} {n : Node} : x.kind = .ident → c.kind = .colon →
      V pre n → FormsMember V (x :: c :: pre)
        ⟨{ kind := .assignment }, [⟨{ kind := .field, value := x.value }, []⟩, n]⟩
  | short {x : Token} : x.kind = .ident → FormsMember V [x]
      ⟨{ kind := .assignment }, [⟨{ kind := .field, value := x.value }, []⟩,
        ⟨{ kind := .reference, value := x.value }, []⟩]⟩

/-- value = "init" type | number | text | path | "*" ident | "declare" "anon" { member } "end"
    | call -/
inductive FormsValue : List Token → Node → Prop where
  | allocate {t : Token} {pre : List Token} {ty : Label} : t.kind = .init → FormsType pre ty →
      FormsValue (t :: pre) ⟨({ kind := .allocation } : Label).typedAs ty, []⟩
  | number {t : Token} : t.kind = .number →
      FormsValue [t] ⟨{ kind := .scalar, value := t.value, typeName := some "int" }, []⟩
  | text {t : Token} : t.kind = .text →
      FormsValue [t]
        ⟨{ kind := .scalar, value := t.value, typeName := some "string",
           size := some (byteSize t.value) }, []⟩
  | path {pre : List Token} {n : Node} : FormsPath .reference pre n → FormsValue pre n
  | pointer {s name : Token} : s.kind = .asterisk → name.kind = .ident →
      FormsValue [s, name] ⟨{ kind := .reference, value := name.value, pointer := true }, []⟩
  | anon {d a e : Token} {pre : List Token} {ns : List Node} : d.kind = .declare →
      a.kind = .anon → Many (FormsMember FormsValue) pre ns → e.kind = .endBlock →
      FormsValue (d :: a :: (pre ++ [e])) ⟨{ kind := .record }, ns⟩
  | call {pre : List Token} {n : Node} : FormsCall FormsValue pre n → FormsValue pre n

/-- binding = type ident ":" value -/
inductive FormsBinding : List Token → Node → Prop where
  | mk {pre post : List Token} {ty : Label} {name c : Token} {n : Node} : FormsType pre ty →
      name.kind = .ident → c.kind = .colon → FormsValue post n →
      FormsBinding (pre ++ name :: c :: post) ⟨{ kind := .declaration },
        [⟨({ kind := .reference, value := name.value } : Label).typedAs ty, []⟩, n]⟩

/-! ## 4. Statements -/

/-- statement = "declare" binding | path ":" value | "ret" value | "print" value | call -/
inductive FormsStatement : List Token → Node → Prop where
  | declare {d : Token} {pre : List Token} {n : Node} : d.kind = .declare →
      FormsBinding pre n → FormsStatement (d :: pre) n
  | assign {pre post : List Token} {c : Token} {target n : Node} :
      FormsPath .reference pre target → c.kind = .colon → FormsValue post n →
      FormsStatement (pre ++ c :: post) ⟨{ kind := .assignment }, [target, n]⟩
  | ret {r : Token} {pre : List Token} {n : Node} : r.kind = .ret → FormsValue pre n →
      FormsStatement (r :: pre) ⟨{ kind := .ret }, [n]⟩
  | print {p : Token} {pre : List Token} {n : Node} : p.kind = .print → FormsValue pre n →
      FormsStatement (p :: pre) ⟨{ kind := .print }, [n]⟩
  | call {pre : List Token} {n : Node} : FormsCall FormsValue pre n → FormsStatement pre n

/-- body = { statement } [ "ret" ]. A return without a value is the last statement. -/
inductive FormsBody : List Token → List Node → Prop where
  | plain {pre : List Token} {ns : List Node} : Many FormsStatement pre ns → FormsBody pre ns
  | bareRet {pre : List Token} {ns : List Node} {r : Token} : Many FormsStatement pre ns →
      r.kind = .ret → FormsBody (pre ++ [r]) (ns ++ [⟨{ kind := .ret }, []⟩])

/-! ## 5. Declarations -/

/-- A record nested in another, from its name and its fields; a field's node depends on the path of
    the record it is in. -/
def nestedRecord (name : String) (fields : List (String → Node)) (parent : String) : Node :=
  let path := parent ++ "::" ++ name
  ⟨{ kind := .record, value := name, path := some path }, fields.map (· path)⟩

/-- field = type ident | "[struct]" ident "begin" { field } "end". The name of the type decides,
    ASCII case set aside. -/
inductive FormsField : List Token → (String → Node) → Prop where
  | plain {pre : List Token} {ty : Label} {name : Token} : FormsType pre ty →
      Text.isAsciiWord "struct" ty.value = false → name.kind = .ident →
      FormsField (pre ++ [name]) fun _ => ⟨{ kind := .field, value := name.value }, [⟨ty, []⟩]⟩
  | nested {pre fields : List Token} {ty : Label} {name b e : Token}
      {fs : List (String → Node)} : FormsType pre ty →
      Text.isAsciiWord "struct" ty.value = true → name.kind = .ident → b.kind = .beginBlock →
      Many FormsField fields fs → e.kind = .endBlock →
      FormsField (pre ++ name :: b :: (fields ++ [e])) (nestedRecord name.value fs)

/-- param = type ident -/
inductive FormsParam : List Token → Node → Prop where
  | mk {pre : List Token} {ty : Label} {name : Token} : FormsType pre ty → name.kind = .ident →
      FormsParam (pre ++ [name])
        ⟨({ kind := .argument, value := name.value } : Label).typedAs ty, [⟨ty, []⟩]⟩

/-- declared = "struct" ident { field } "end"
    | type "::" ident "(" listed params ")" body "end" | binding -/
inductive FormsDeclared : List Token → Node → Prop where
  | record {s name e : Token} {fields : List Token} {fs : List (String → Node)} :
      s.kind = .struct → name.kind = .ident → Many FormsField fields fs → e.kind = .endBlock →
      FormsDeclared (s :: name :: (fields ++ [e]))
        ⟨{ kind := .record, value := name.value }, fs.map (· name.value)⟩
  | procedure {pre params body : List Token} {ty : Label} {c name l r e : Token}
      {ps ns : List Node} : FormsType pre ty → c.kind = .doubleColon → name.kind = .ident →
      l.kind = .lparen → Listed FormsParam params ps → r.kind = .rparen → FormsBody body ns →
      e.kind = .endBlock →
      FormsDeclared (pre ++ c :: name :: l :: (params ++ r :: (body ++ [e])))
        ⟨{ kind := .procedure, value := name.value }, ⟨ty, []⟩ :: (ps ++ ns)⟩
  | global {pre : List Token} {n : Node} : FormsBinding pre n → FormsDeclared pre n

/-- modifier = one token of that kind. -/
inductive FormsModifier : List Token → Node → Prop where
  | mk {m : Token} : m.kind = .modifier →
      FormsModifier [m] ⟨{ kind := .modifier, value := m.value }, []⟩

/-- item = "." ( "module" | "import" ) text | "declare" { modifier } declared. Case does not matter
    in the name of a directive, and modifiers become the last children. -/
inductive FormsItem : List Token → Node → Prop where
  | directive {d name a : Token} : d.kind = .dot → name.kind = .ident →
      Text.isWord "module" name.value = true ∨ Text.isWord "import" name.value = true →
      a.kind = .text → FormsItem [d, name, a] ⟨{ kind := .directive, value := name.value },
        [⟨{ kind := .argument, value := a.value }, []⟩]⟩
  | declaration {d : Token} {ms pre : List Token} {mods : List Node} {n : Node} :
      d.kind = .declare → Many FormsModifier ms mods → FormsDeclared pre n →
      FormsItem (d :: (ms ++ pre)) ⟨n.label, n.children ++ mods⟩

/-! ## 6. Programs -/

/-- program = { item } -/
inductive FormsProgram : List Token → Node → Prop where
  | mk {pre : List Token} {ns : List Node} : Many FormsItem pre ns →
      FormsProgram pre ⟨{ kind := .root }, ns⟩

/-- The tokens form a program with the given tree, and all its numbers denote words. -/
structure Derives (ts : List Token) (tree : Node) : Prop where
  forms : FormsProgram ts tree
  readable : ∀ t ∈ ts, t.unreadable = false

/-! ## 7. First tokens -/

/-- The tokens begin with one of the given kinds. -/
def StartsIn (kinds : List TokenKind) (ts : List Token) : Prop :=
  ∃ t us, ts = t :: us ∧ t.kind ∈ kinds

theorem StartsIn.cons {kinds : List TokenKind} {t : Token} (us : List Token)
    (h : t.kind ∈ kinds) : StartsIn kinds (t :: us) :=
  ⟨t, us, rfl, h⟩

theorem StartsIn.append {kinds : List TokenKind} {ts : List Token} (us : List Token)
    (h : StartsIn kinds ts) : StartsIn kinds (ts ++ us) := by
  obtain ⟨t, rest, rfl, hk⟩ := h
  exact ⟨t, rest ++ us, rfl, hk⟩

theorem StartsIn.mono {kinds more : List TokenKind} {ts : List Token} (h : StartsIn kinds ts)
    (hs : kinds ⊆ more) : StartsIn more ts := by
  obtain ⟨t, us, rfl, hk⟩ := h
  exact ⟨t, us, rfl, hs hk⟩

theorem FormsType.starts {pre : List Token} {ty : Label} (h : FormsType pre ty) :
    StartsIn [.lbracket] pre := by
  cases h with
  | mk hl => exact .cons _ (List.mem_singleton.mpr hl)

theorem FormsPath.starts {kind : NodeKind} {pre : List Token} {n : Node}
    (h : FormsPath kind pre n) : StartsIn [.ident] pre := by
  cases h with
  | mk hb => exact .cons _ (List.mem_singleton.mpr hb)

theorem FormsMember.starts {V : List Token → Node → Prop} {pre : List Token} {n : Node}
    (h : FormsMember V pre n) : StartsIn [.ident] pre := by
  cases h with
  | named hx => exact .cons _ (List.mem_singleton.mpr hx)
  | short hx => exact .cons _ (List.mem_singleton.mpr hx)

theorem FormsCall.starts {V : List Token → Node → Prop} {pre : List Token} {n : Node}
    (h : FormsCall V pre n) : StartsIn [.call] pre := by
  cases h with
  | mk hc => exact .cons _ (List.mem_singleton.mpr hc)

theorem FormsValue.starts {pre : List Token} {n : Node} (h : FormsValue pre n) :
    StartsIn [.init, .number, .text, .ident, .asterisk, .declare, .call] pre := by
  cases h with
  | allocate ht => exact .cons _ (by simp [ht])
  | number ht => exact .cons _ (by simp [ht])
  | text ht => exact .cons _ (by simp [ht])
  | path hp => exact hp.starts.mono (by decide)
  | pointer hs => exact .cons _ (by simp [hs])
  | anon hd => exact .cons _ (by simp [hd])
  | call hc => exact hc.starts.mono (by decide)

theorem FormsBinding.starts {pre : List Token} {n : Node} (h : FormsBinding pre n) :
    StartsIn [.lbracket] pre := by
  cases h with
  | mk ht => exact ht.starts.append _

/-- The kinds a statement begins with. -/
def statementKinds : List TokenKind := [.declare, .ident, .ret, .print, .call]

theorem FormsStatement.starts {pre : List Token} {n : Node} (h : FormsStatement pre n) :
    StartsIn statementKinds pre := by
  cases h with
  | declare hd => exact .cons _ (by simp [statementKinds, hd])
  | assign hp => exact (hp.starts.mono (by decide)).append _
  | ret hr => exact .cons _ (by simp [statementKinds, hr])
  | print hp => exact .cons _ (by simp [statementKinds, hp])
  | call hc => exact hc.starts.mono (by decide)

theorem FormsBody.nil_or_starts {pre : List Token} {ns : List Node} (h : FormsBody pre ns) :
    (pre = [] ∧ ns = []) ∨ StartsIn statementKinds pre := by
  cases h with
  | plain hm =>
    cases hm with
    | nil => exact .inl ⟨rfl, rfl⟩
    | cons hs => exact .inr (hs.starts.append _)
  | bareRet hm hr =>
    cases hm with
    | nil => exact .inr (.cons _ (by simp [statementKinds, hr]))
    | cons hs => exact .inr ((hs.starts.append _).append _)

theorem FormsField.starts {pre : List Token} {f : String → Node} (h : FormsField pre f) :
    StartsIn [.lbracket] pre := by
  cases h with
  | plain ht => exact ht.starts.append _
  | nested ht => exact ht.starts.append _

theorem FormsParam.starts {pre : List Token} {n : Node} (h : FormsParam pre n) :
    StartsIn [.lbracket] pre := by
  cases h with
  | mk ht => exact ht.starts.append _

theorem FormsDeclared.starts {pre : List Token} {n : Node} (h : FormsDeclared pre n) :
    StartsIn [.struct, .lbracket] pre := by
  cases h with
  | record hs => exact .cons _ (by simp [hs])
  | procedure ht => exact (ht.starts.mono (by decide)).append _
  | «global» hb => exact hb.starts.mono (by decide)

theorem FormsItem.starts {pre : List Token} {n : Node} (h : FormsItem pre n) :
    StartsIn [.dot, .declare] pre := by
  cases h with
  | directive hd => exact .cons _ (by simp [hd])
  | declaration hd => exact .cons _ (by simp [hd])

/-- A statement in front of a body makes a body. -/
theorem FormsBody.cons {pre post : List Token} {n : Node} {ns : List Node}
    (hs : FormsStatement pre n) (hb : FormsBody post ns) : FormsBody (pre ++ post) (n :: ns) := by
  cases hb with
  | plain hm => exact .plain (.cons hs hm)
  | bareRet hm hr =>
    rw [← List.append_assoc, ← List.cons_append]
    exact .bareRet (.cons hs hm) hr

/-! ## 8. Kinds of nodes -/

/-- The kinds of the nodes of values. -/
def valueKinds : List NodeKind := [.allocation, .scalar, .reference, .record, .call]

/-- The kinds of the nodes of statements. -/
def statementNodeKinds : List NodeKind := [.declaration, .assignment, .ret, .print, .call]

section

variable {pre : List Token} {n : Node}

theorem FormsType.kind {ty : Label} (h : FormsType pre ty) : ty.kind = .typeExpr := by
  cases h
  rfl

theorem FormsValue.kind_mem (h : FormsValue pre n) : n.kind ∈ valueKinds := by
  cases h with
  | path hp =>
    cases hp
    simp [Node.kind, valueKinds]
  | call hc =>
    cases hc
    simp [Node.kind, valueKinds]
  | _ => simp [Node.kind, Label.typedAs, valueKinds]

theorem FormsValue.kind_ne (h : FormsValue pre n) {kind : NodeKind} (hk : kind ∉ valueKinds) :
    n.kind ≠ kind := by
  intro e
  have hm := h.kind_mem
  rw [e] at hm
  exact hk hm

theorem FormsStatement.kind_mem (h : FormsStatement pre n) : n.kind ∈ statementNodeKinds := by
  cases h with
  | declare hd hb =>
    cases hb
    simp [Node.kind, statementNodeKinds]
  | call hc =>
    cases hc
    simp [Node.kind, statementNodeKinds]
  | _ => simp [Node.kind, statementNodeKinds]

theorem FormsParam.kind (h : FormsParam pre n) : n.kind = .argument := by
  cases h
  rfl

theorem FormsModifier.kind (h : FormsModifier pre n) : n.kind = .modifier := by
  cases h
  rfl

end

/-! ## 9. Other relations for the parts

A part of some tokens is no longer than they are. The recursive proofs over derivations rest on
that: they put what is known of shorter derivations in the place of the parts. -/

section

variable {β : Type} {P P' : List Token → β → Prop} {V V' : List Token → Node → Prop}
  {pre : List Token}

theorem Many.imp {bs : List β} (h : Many P pre bs)
    (hi : ∀ p b, p.length ≤ pre.length → P p b → P' p b) : Many P' pre bs := by
  induction h with
  | nil => exact .nil
  | @cons p more b bs hb _ ih =>
    have hp : p.length ≤ (p ++ more).length := by
      rw [List.length_append]
      omega
    refine .cons (hi p b hp hb) (ih fun q c hq hc => hi q c ?_ hc)
    rw [List.length_append]
    omega

theorem Listed.imp {bs : List β} (h : Listed P pre bs)
    (hi : ∀ p b, p.length ≤ pre.length → P p b → P' p b) : Listed P' pre bs := by
  cases h with
  | nil => exact .nil
  | @cons p more b bs hb hm =>
    have hp : p.length ≤ (p ++ more).length := by
      rw [List.length_append]
      omega
    refine .cons (hi p b hp hb) (hm.imp fun q c hq hc => ?_)
    cases hc with
    | @mk k r c hk hc =>
      refine .mk hk (hi r c ?_ hc)
      rw [List.length_cons] at hq
      rw [List.length_append]
      omega

theorem Many.forall_mem {q : β → Prop} {bs : List β} (h : Many P pre bs)
    (hq : ∀ p b, P p b → q b) : ∀ b ∈ bs, q b := by
  induction h with
  | nil => exact fun b hb => absurd hb List.not_mem_nil
  | cons hb _ ih => exact List.forall_mem_cons.mpr ⟨hq _ _ hb, ih⟩

theorem Listed.forall_mem {q : β → Prop} {bs : List β} (h : Listed P pre bs)
    (hq : ∀ p b, P p b → q b) : ∀ b ∈ bs, q b := by
  cases h with
  | nil => exact fun b hb => absurd hb List.not_mem_nil
  | cons hb hm =>
    refine List.forall_mem_cons.mpr ⟨hq _ _ hb, hm.forall_mem fun p c hc => ?_⟩
    cases hc with
    | mk _ hc => exact hq _ _ hc

/-- What holds of a part if all its tokens have a property. -/
def OfTokens (T : Token → Prop) (q : β → Prop) (pre : List Token) (b : β) : Prop :=
  (∀ t ∈ pre, T t) → q b

theorem Many.ofTokens {T : Token → Prop} {q : β → Prop} {bs : List β}
    (h : Many (OfTokens T q) pre bs) (ht : ∀ t ∈ pre, T t) : ∀ b ∈ bs, q b := by
  induction h with
  | nil => exact fun b hb => absurd hb List.not_mem_nil
  | cons hb _ ih =>
    obtain ⟨hfirst, hrest⟩ := List.forall_mem_append.mp ht
    exact List.forall_mem_cons.mpr ⟨hb hfirst, ih hrest⟩

theorem Listed.ofTokens {T : Token → Prop} {q : β → Prop} {bs : List β}
    (h : Listed (OfTokens T q) pre bs) (ht : ∀ t ∈ pre, T t) : ∀ b ∈ bs, q b := by
  cases h with
  | nil => exact fun b hb => absurd hb List.not_mem_nil
  | cons hb hm =>
    obtain ⟨hfirst, hrest⟩ := List.forall_mem_append.mp ht
    have hmany : Many (OfTokens T q) _ _ := hm.imp fun p b _ hc hp => by
      cases hc with
      | mk _ hb => exact hb (List.forall_mem_cons.mp hp).2
    exact List.forall_mem_cons.mpr ⟨hb hfirst, hmany.ofTokens hrest⟩

theorem FormsSegment.imp {step : PathStep} (h : FormsSegment V pre step)
    (hi : ∀ p n, p.length ≤ pre.length → V p n → V' p n) : FormsSegment V' pre step := by
  cases h with
  | plain hc hname => exact .plain hc hname
  | fixed hc hname hl ht hr => exact .fixed hc hname hl ht hr
  | dynamic hc hname hl hp hr =>
    refine .dynamic hc hname hl (hi _ _ ?_ hp) hr
    simp only [List.length_cons, List.length_append]
    omega

theorem FormsCall.imp {n : Node} (h : FormsCall V pre n)
    (hi : ∀ p n, p.length < pre.length → V p n → V' p n) : FormsCall V' pre n := by
  cases h with
  | @mk _ _ _ _ args _ hc hname hl ha hr =>
    refine .mk hc hname hl (ha.imp fun p m hp hm => hi p m ?_ hm) hr
    simp only [List.length_cons, List.length_append]
    omega

theorem FormsMember.imp {n : Node} (h : FormsMember V pre n)
    (hi : ∀ p n, p.length ≤ pre.length → V p n → V' p n) : FormsMember V' pre n := by
  cases h with
  | named hx hc hv =>
    refine .named hx hc (hi _ _ ?_ hv)
    simp only [List.length_cons]
    omega
  | short hx => exact .short hx

end

theorem FormsBody.kind_mem {pre : List Token} {ns : List Node} (h : FormsBody pre ns) :
    ∀ s ∈ ns, s.kind ∈ statementNodeKinds := by
  cases h with
  | plain hm => exact hm.forall_mem fun _ _ hs => hs.kind_mem
  | bareRet hm =>
    refine List.forall_mem_append.mpr ⟨hm.forall_mem fun _ _ hs => hs.kind_mem, ?_⟩
    exact List.forall_mem_singleton.mpr (by simp [Node.kind, statementNodeKinds])

/-! ## 10. The trees of programs

The nodes of a program, in the forms that the productions prescribe. -/

/-- The step a segment stands for. -/
def Segment.step : Segment → PathStep
  | .fixed name offset => ⟨name, offset, []⟩
  | .dynamic name offset => ⟨name, 0, [offset.toNode .dynamicOffset]⟩

theorem Segment.toNodes_eq_chain : ∀ (before : String) (segments : List Segment),
    Segment.toNodes before segments = chain before (segments.map Segment.step)
  | _, [] => by
    rw [Segment.toNodes]
    rfl
  | before, .fixed name offset :: rest => by
    rw [Segment.toNodes, Segment.toNodes_eq_chain]
    rfl
  | before, .dynamic name offset :: rest => by
    rw [Segment.toNodes, Segment.toNodes_eq_chain]
    rfl

theorem Value.argNodes_eq_map : ∀ args : List Value,
    Value.argNodes args = (args.map Value.toNode).map fun n => ⟨{ kind := .argument }, [n]⟩
  | [] => by
    rw [Value.argNodes]
    rfl
  | v :: rest => by
    rw [Value.argNodes, Value.argNodes_eq_map rest]
    rfl

/-- The node of one member. -/
def Member.toNode : Member → Node
  | .mk name value =>
    ⟨{ kind := .assignment }, [⟨{ kind := .field, value := name }, []⟩, value.toNode]⟩

theorem Member.toNodes_eq_map : ∀ members : List Member,
    Member.toNodes members = members.map Member.toNode
  | [] => by
    rw [Member.toNodes]
    rfl
  | .mk name value :: rest => by
    rw [Member.toNodes, Member.toNodes_eq_map rest]
    rfl

theorem Field.toNodes_eq_map (parent : String) : ∀ fields : List Field,
    Field.toNodes parent fields = fields.map (Field.toNode parent)
  | [] => by
    rw [Field.toNodes]
    rfl
  | field :: rest => by
    rw [Field.toNodes, Field.toNodes_eq_map parent rest]
    rfl

/-- The node of a field, still waiting for the path of its record. -/
def Field.node (d : Field) (parent : String) : Node := d.toNode parent

theorem Field.node_plain (type : TypeExpr) (name : String) :
    (Field.plain type name).node = fun _ =>
      ⟨{ kind := .field, value := name }, [⟨type.label, []⟩]⟩ := by
  funext parent
  rw [Field.node, Field.toNode]
  rfl

theorem Field.node_nested (name : String) (fields : List Field) :
    (Field.nested name fields).node = nestedRecord name (fields.map Field.node) := by
  funext parent
  rw [Field.node, Field.toNode, Field.toNodes_eq_map, nestedRecord, List.map_map]
  rfl

theorem Field.toNodes_eq_node (parent : String) (fields : List Field) :
    Field.toNodes parent fields = (fields.map Field.node).map (· parent) := by
  rw [Field.toNodes_eq_map, List.map_map]
  rfl

end Osclan
