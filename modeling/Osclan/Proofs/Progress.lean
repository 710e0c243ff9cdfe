/-
  File:      Osclan/Proofs/Progress.lean
  Subject:   Every production takes tokens, so reading ends on all tokens.

  A production that is read leaves the cursor further on, within the tokens, and in front of the
  first end token that it comes to. So the tokens left become fewer in every round of a loop and at
  every entry of a production into itself. As many rounds as there are tokens left, and one more,
  bring every scan to its end, also where tokens are missing, the end token among them.

  * `Production` -- the productions with their readers and their scans;
  * `Production.follows`, `Production.avoids_end` -- the end of a scan, and what it has gone over;
  * `GoesOn` -- from one place to another, past tokens that do not end the file;
  * `rounds_unmoved` -- a loop that takes no tokens;
  * `productions_progress` -- the main result.
-/
import Osclan.Proofs.Parsing
import Osclan.Proofs.ScanEnds

namespace Osclan

open Tokens

variable {α : Type} {b : Nat}

/-! ## 1. Productions -/

/-- The productions that a loop repeats, or that stand inside several others. -/
inductive Production where
  | modifier | typeExpr | field | param | statement | value | call | member | path | directive
  | declaration

namespace Production

/-- What a production is read as. -/
def Result : Production → Type
  | modifier => String
  | typeExpr => TypeExpr
  | field => Field
  | param => Param
  | statement => Statement
  | value => Value
  | call => String × List Value
  | member => Member
  | path => Path
  | directive => Item
  | declaration => Item

/-- The reader of a production. -/
def read : (p : Production) → (ts : List Token) → Reads p.Result ts
  | modifier, ts => Grammar.modifier ts
  | typeExpr, ts => Grammar.typeExpr ts
  | field, ts => Grammar.field ts
  | param, ts => Grammar.param ts
  | statement, ts => Grammar.statement ts
  | value, ts => Grammar.value ts
  | call, ts => Grammar.call ts fun us _ => Grammar.value us
  | member, ts => Grammar.member ts fun us _ => Grammar.value us
  | path, ts => Grammar.path ts
  | directive, ts => Grammar.directive ts
  | declaration, ts => Grammar.declaration ts

/-- The scan of a production, with `n` rounds. -/
def scan : (p : Production) → (n : Nat) → Scan p.Result
  | modifier, _ => Scan.modifier
  | typeExpr, _ => Scan.typeExpr
  | field, n => Scan.field n
  | param, _ => Scan.param
  | statement, n => Scan.statement n
  | value, n => Scan.value n
  | call, n => Scan.call (Scan.value n) n
  | member, n => Scan.member (Scan.value n)
  | path, n => Scan.path n
  | directive, _ => Scan.directive
  | declaration, n => Scan.declaration n

/-- **Every production comes to the end of its reader** with more rounds than there are tokens
    left. -/
theorem follows (p : Production) {n : Nat} {c : Cursor} (hn : c.rest.length < n) :
    Follows (p.scan n) c (p.read c.rest) := by
  cases p with
  | modifier => exact modifier_follows c
  | typeExpr => exact typeExpr_follows c
  | field => exact field_follows hn
  | param => exact param_follows c
  | statement => exact statement_follows hn
  | value => exact value_follows hn
  | call => exact valueCall_follows hn
  | member =>
    exact @member_follows c _ (fun us _ => Grammar.value us) fun _ h =>
      value_follows (Nat.lt_trans h hn)
  | path => exact path_follows hn
  | directive => exact directive_follows c
  | declaration => exact declaration_follows hn

end Production

/-- What a reader takes does not end the file. -/
theorem Yields.avoids_end {ts : List Token} {P : α → List Token → List Token → Prop}
    {r : Except ParseError (Parsed α b)} (hy : Yields ts P r) {v : α} {rest : List Token}
    {h : rest.length < b} (e : r = .ok ⟨v, rest, h⟩) :
    ∃ pre, ts = pre ++ rest ∧ ∀ t ∈ pre, t.kind ≠ .eof := by
  obtain ⟨pre, hcut, _, hgood⟩ := hy v rest h e
  exact ⟨pre, hcut, fun t ht => (hgood t ht).2⟩

theorem Production.avoids_end (p : Production) {ts : List Token} {v : p.Result}
    {rest : List Token} {h : rest.length < ts.length} (e : p.read ts = .ok ⟨v, rest, h⟩) :
    ∃ pre, ts = pre ++ rest ∧ ∀ t ∈ pre, t.kind ≠ .eof := by
  cases p with
  | modifier => exact modifier_yields.avoids_end e
  | typeExpr => exact typeExpr_yields.avoids_end e
  | field => exact (field_yields ts).avoids_end e
  | param => exact param_yields.avoids_end e
  | statement => exact statement_yields.avoids_end e
  | value => exact (value_yields ts).avoids_end e
  | call => exact (call_yields fun us _ => value_yields us).avoids_end e
  | member => exact (member_yields fun us _ => value_yields us).avoids_end e
  | path => exact (path_yields ts).avoids_end e
  | directive => exact directive_yields.avoids_end e
  | declaration => exact declaration_yields.avoids_end e

/-! ## 2. Progress -/

/-- The cursor in front of token number `i`. -/
def cursorAt (tokens : List Token) (i : Nat) : Cursor := ⟨i, tokens.drop i⟩

/-- **The cursor has gone on** from place `i` to place `j`: by a token at least, not behind the last
    token, and not over an end token. -/
structure GoesOn (tokens : List Token) (i j : Nat) : Prop where
  forward : i < j
  within : j ≤ tokens.length
  noEnd : ∀ k t, i ≤ k → k < j → tokens[k]? = some t → t.kind ≠ .eof

section

variable {tokens pre rest : List Token} {i : Nat} (hcut : tokens.drop i = pre ++ rest)

include hcut

theorem drop_of_append : tokens.drop (i + pre.length) = rest := by
  rw [← List.drop_drop, hcut, List.drop_left]

/-- A cursor that has taken some tokens, none of which ends the file, has gone on. -/
theorem goesOn_of_append (hlt : rest.length < (tokens.drop i).length)
    (hne : ∀ t ∈ pre, t.kind ≠ .eof) : GoesOn tokens i (i + pre.length) := by
  have hlen : tokens.length - i = pre.length + rest.length := by
    rw [← List.length_drop, hcut, List.length_append]
  rw [List.length_drop] at hlt
  refine ⟨by omega, by omega, fun k t hik hkj ht => hne t ?_⟩
  have hget : pre[k - i]? = some t := by
    rw [← List.getElem?_append_left (by omega : k - i < pre.length), ← hcut, List.getElem?_drop,
      Nat.add_sub_cancel' hik, ht]
  exact List.mem_of_getElem? hget

end

/-- A round that takes no token is followed by the same round, however many there are. -/
theorem rounds_unmoved {more : List Token → Bool} {element : Scan α} {c : Cursor} {v : α}
    (hm : more c.rest = true) (he : element c = .done v c) (n : Nat) :
    Scan.rounds more element n c = .unfinished := by
  induction n with
  | zero => rfl
  | succ n ih =>
    rw [Scan.rounds]
    unfold Scan.branch
    rw [if_pos hm, Scan.bind_done he]
    show (Scan.rounds more element n c).andThen _ = _
    rw [ih]
    rfl

theorem program_answers {tokens : List Token} {n : Nat} (hn : tokens.length < n) :
    (Scan.program n (cursorAt tokens 0)).answer? = some (Program.ofTokens tokens) := by
  have hitem : ∀ (c : Cursor) (_ : c.rest.length < tokens.length + 1),
      Follows (Scan.item n) c (Grammar.item c.rest) := fun c h =>
    item_follows (Nat.lt_of_lt_of_le h hn)
  have hf := @rounds_follow _ (fun us => !check [.eof] us) _ (fun us _ => Grammar.item us) _ hitem
    n (cursorAt tokens 0) (length_lt_succ tokens) hn
  exact hf.answer

/-- **Every production makes progress, and every scan ends.** Wherever the cursor stands in whatever
    tokens, a production with more rounds than there are tokens left comes to an end, the one its
    reader comes to: it is refused, or the cursor goes on. So the program of any tokens is read
    within one more round than there are tokens. A loop whose element leaves the cursor where it is
    would not end within any number of rounds. -/
theorem productions_progress :
    (∀ (p : Production) (tokens : List Token) (i n : Nat), tokens.length - i < n →
      (∃ e, p.scan n (cursorAt tokens i) = .refused e ∧ p.read (tokens.drop i) = .error e) ∨
      ∃ v j h, p.scan n (cursorAt tokens i) = .done v (cursorAt tokens j) ∧
        p.read (tokens.drop i) = .ok ⟨v, tokens.drop j, h⟩ ∧ GoesOn tokens i j) ∧
    (∀ (tokens : List Token) (n : Nat), tokens.length < n →
      (Scan.program n (cursorAt tokens 0)).answer? = some (Program.ofTokens tokens)) ∧
    (∀ (α : Type) (more : List Token → Bool) (element : Scan α) (c : Cursor) (v : α),
      more c.rest = true → element c = .done v c →
        ∀ n, Scan.rounds more element n c = .unfinished) := by
  refine ⟨fun p tokens i n hn => ?_, fun tokens n hn => program_answers hn,
    fun α more element c v hm he n => rounds_unmoved hm he n⟩
  have hlen : (cursorAt tokens i).rest.length < n := by
    rwa [cursorAt, List.length_drop]
  have hf := p.follows hlen
  cases hr : p.read (cursorAt tokens i).rest with
  | error e =>
    rw [hr] at hf
    cases hf with
    | refused hs => exact .inl ⟨e, hs, hr⟩
  | ok parsed =>
    rw [hr] at hf
    cases hf with
    | @done v pre rest h hcut hs =>
      obtain ⟨pre', hcut', hne⟩ := p.avoids_end hr
      obtain rfl : pre' = pre := List.append_cancel_right (hcut'.symm.trans hcut)
      have hdrop := drop_of_append hcut
      subst hdrop
      exact .inr ⟨v, _, h, hs, hr, goesOn_of_append hcut h hne⟩

/-- A path with an offset, read with as few rounds as are enough, and the tokens of a procedure that
    break off in its body. -/
theorem progress_of_offsetSample :
    Production.path.scan 11 (cursorAt (offsetSample "2") 8) =
      .done (.mk "a" [.fixed "b" 2]) (cursorAt (offsetSample "2") 14) ∧
    GoesOn (offsetSample "2") 8 14 ∧
    Program.ofTokens ((offsetSample "2").take 16) = .error .unexpectedEnd ∧
    ∀ n, Scan.rounds (fun _ => true) (pure ()) n (cursorAt (offsetSample "2") 8) = .unfinished := by
  obtain ⟨hproductions, hprogram, hloop⟩ := productions_progress
  have hscan : Production.path.scan 11 (cursorAt (offsetSample "2") 8) =
      .done (.mk "a" [.fixed "b" 2]) (cursorAt (offsetSample "2") 14) := by rfl
  have hanswer : (Scan.program 17 (cursorAt ((offsetSample "2").take 16) 0)).answer? =
      some (.error .unexpectedEnd) := by rfl
  refine ⟨hscan, ?_, ?_, hloop _ _ _ _ () rfl rfl⟩
  · have hpath := hproductions .path (offsetSample "2") 8 11 (by decide)
    rcases hpath with ⟨e, hs, _⟩ | ⟨v, j, h, hs, _, hgo⟩
    · rw [hscan] at hs
      cases hs
    · rw [hscan] at hs
      injection hs with _ hc
      injection hc with hj
      rwa [← hj] at hgo
  · rw [hprogram _ 17 (by decide)] at hanswer
    exact Option.some.inj hanswer

end Osclan
