/-
  File:      Osclan/Proofs/Parsing.lean
  Subject:   Reading accepts exactly the programs of the grammar.

  The two sides meet here. What is read has been derived (`ofTokens_sound`), and what can be derived
  is read, or stops at a number that denotes no word (`ofTokens_complete`). Since reading is a
  function, no tokens have two trees.

  * `beforeEnd` -- the tokens before the first end token;
  * `ofTokens_iff_derives` -- the main result.
-/
import Osclan.Proofs.Acceptance
import Osclan.Proofs.ReaderComplete
import Osclan.Proofs.ReaderSound
import Osclan.Token.Lexer

namespace Osclan

open Tokens

/-! ## 1. The first end token -/

/-- The tokens before the first end token. -/
def beforeEnd (ts : List Token) : List Token := ts.takeWhile (·.kind != .eof)

theorem beforeEnd_append {pre rest : List Token} {e : Token} (he : e.kind = .eof)
    (hp : ∀ t ∈ pre, t.kind ≠ .eof) : beforeEnd (pre ++ e :: rest) = pre := by
  unfold beforeEnd
  rw [List.takeWhile_append_of_pos]
  · rw [List.takeWhile_cons_of_neg, List.append_nil]
    simp [he]
  · intro t ht
    simp [hp t ht]

/-- A list with an end token is cut at the first one. -/
theorem eq_beforeEnd_append : ∀ {ts : List Token}, (∃ t ∈ ts, t.kind = .eof) →
    ∃ e rest, ts = beforeEnd ts ++ e :: rest ∧ e.kind = .eof
  | [], h => by
    obtain ⟨t, ht, _⟩ := h
    exact absurd ht List.not_mem_nil
  | t :: us, h => by
    by_cases ht : t.kind = .eof
    · refine ⟨t, us, ?_, ht⟩
      rw [beforeEnd, List.takeWhile_cons_of_neg (by simp [ht])]
      rfl
    · have hus : ∃ u ∈ us, u.kind = .eof := by
        obtain ⟨u, hu, hk⟩ := h
        rcases List.mem_cons.mp hu with rfl | hu
        · exact absurd hk ht
        · exact ⟨u, hu, hk⟩
      obtain ⟨e, rest, hcut, he⟩ := eq_beforeEnd_append hus
      refine ⟨e, rest, ?_, he⟩
      rw [beforeEnd, List.takeWhile_cons_of_pos (by simp [ht]), List.cons_append]
      exact congrArg (t :: ·) hcut

/-! ## 2. The two directions -/

/-- What is read has been derived. -/
theorem ofTokens_sound {ts : List Token} {p : Program} (h : Program.ofTokens ts = .ok p) :
    ∃ pre e rest, ts = pre ++ e :: rest ∧ e.kind = .eof ∧ FormsProgram pre p.toNode ∧
      ∀ t ∈ pre, t.unreadable = false ∧ t.kind ≠ .eof := by
  have hy : Yields ts (fun items pre rest => Many FormsItem pre (items.map Item.toNode) ∧
      check [.eof] rest = true)
      (Grammar.repeatWhile (fun us => !check [.eof] us) (ts.length + 1)
        (fun us _ => Grammar.item us) ts (length_lt_succ ts)) := by
    refine repeatWhile_yields (fun us _ => item_yields) ?_ ?_ ts _
    · intro rest hr
      exact ⟨.nil, by simpa using hr⟩
    · rintro i items pre post rest hi ⟨hitems, hr⟩
      exact ⟨.cons hi hitems, hr⟩
  unfold Program.ofTokens at h
  cases hr : Grammar.repeatWhile (fun us => !check [.eof] us) (ts.length + 1)
      (fun us _ => Grammar.item us) ts (length_lt_succ ts) with
  | error e =>
    rw [hr] at h
    cases h
  | ok parsed =>
    obtain ⟨items, rest, hlt⟩ := parsed
    rw [hr] at h
    cases h
    obtain ⟨pre, rfl, ⟨hitems, hend⟩, hgood⟩ := hy items rest hlt hr
    cases rest with
    | nil => cases hend
    | cons e rest =>
      have he : e.kind = .eof := by simpa [check] using hend
      exact ⟨pre, e, rest, rfl, he, .mk hitems, hgood⟩

/-- What can be derived is read, or stops at the first number that denotes no word. -/
theorem ofTokens_complete {pre rest : List Token} {e : Token} {tree : Node}
    (h : FormsProgram pre tree) (he : e.kind = .eof) :
    match pre.find? Token.unreadable with
    | some t => Program.ofTokens (pre ++ e :: rest) = .error (.invalidNumber t.value t.pos)
    | none => (Program.ofTokens (pre ++ e :: rest)).map Program.toNode = .ok tree := by
  cases h with
  | @mk ns hitems =>
    have hends : PathEnds (e :: rest) := by simp [PathEnds, check, he]
    have hstop : (!check [.eof] (e :: rest)) = false := by simp [check, he]
    have hp : Passes pre (e :: rest) (fun items => items.map Item.toNode = ns)
        (Grammar.repeatWhile (fun us => !check [.eof] us) ((pre ++ e :: rest).length + 1)
          (fun us _ => Grammar.item us) (pre ++ e :: rest) (length_lt_succ _)) := by
      refine repeatWhile_passes (F := PathEnds) ?_ ?_ hends hstop hitems _ _ rfl
      · intro p n hi us _ vs hus hv
        exact hi.passes hv hus
      · intro p n hi us
        have hstart := hi.starts.append us
        exact ⟨hstart.not_check' (by decide), hstart.not_check (by decide)⟩
    unfold Passes at hp
    unfold Program.ofTokens
    split
    · rename_i t ht
      rw [ht] at hp
      rw [hp]
      rfl
    · rename_i hn
      rw [hn] at hp
      obtain ⟨items, hlt, hr, e⟩ := hp
      rw [hr]
      show Except.ok (Program.toNode ⟨items⟩) = _
      rw [Program.toNode, e]

theorem find?_unreadable_eq_none {ts : List Token} :
    ts.find? Token.unreadable = none ↔ ∀ t ∈ ts, t.unreadable = false := by
  rw [List.find?_eq_none]
  exact ⟨fun h t ht => eq_false_of_ne_true (h t ht), fun h t ht => ne_true_of_eq_false (h t ht)⟩

theorem Derives.read {pre rest : List Token} {e : Token} {tree : Node} (h : Derives pre tree)
    (he : e.kind = .eof) :
    (Program.ofTokens (pre ++ e :: rest)).map Program.toNode = .ok tree := by
  have hc := @ofTokens_complete pre rest e tree h.forms he
  rwa [find?_unreadable_eq_none.mpr h.readable] at hc

/-- What can be computed of the program of a source shows that there is one. -/
theorem exists_program {α : Type} {file source : String} {g : Program → α} {a : α}
    (h : ((tokenize file source).toOption.bind fun ts => (Program.ofTokens ts).toOption.map g) =
      some a) :
    ∃ ts p, tokenize file source = .ok ts ∧ Program.ofTokens ts = .ok p ∧ g p = a := by
  cases ht : tokenize file source with
  | error e =>
    rw [ht] at h
    cases h
  | ok ts =>
    rw [ht] at h
    cases hp : Program.ofTokens ts with
    | error e =>
      simp only [Except.toOption, Option.bind_some, hp] at h
      cases h
    | ok p =>
      simp only [Except.toOption, Option.bind_some, hp, Option.map_some, Option.some.injEq] at h
      exact ⟨ts, p, rfl, hp, h⟩

/-! ## 3. The grammar and its reader -/

/-- **Reading accepts exactly the programs of the grammar.** Tokens are read as a tree exactly if
    there is an end token and the tokens before the first one derive that tree. No tokens derive two
    trees. Tokens that form a program but for numbers that denote no word are refused for the first
    of these. -/
theorem ofTokens_iff_derives :
    (∀ ts tree, (Program.ofTokens ts).map Program.toNode = .ok tree ↔
      (∃ t ∈ ts, t.kind = .eof) ∧ Derives (beforeEnd ts) tree) ∧
    (∀ ts tree tree', Derives ts tree → Derives ts tree' → tree = tree') ∧
    (∀ ts tree t, (∃ t ∈ ts, t.kind = .eof) → FormsProgram (beforeEnd ts) tree →
      (beforeEnd ts).find? Token.unreadable = some t →
      Program.ofTokens ts = .error (.invalidNumber t.value t.pos)) := by
  refine ⟨fun ts tree => ⟨?_, ?_⟩, ?_, ?_⟩
  · intro h
    cases hp : Program.ofTokens ts with
    | error err =>
      rw [hp] at h
      cases h
    | ok p =>
      rw [hp] at h
      cases h
      obtain ⟨pre, e, rest, rfl, he, hforms, hgood⟩ := ofTokens_sound hp
      rw [beforeEnd_append he fun t ht => (hgood t ht).2]
      have hmem : e ∈ pre ++ e :: rest := List.mem_append_right _ List.mem_cons_self
      exact ⟨⟨e, hmem, he⟩, hforms, fun t ht => (hgood t ht).1⟩
  · rintro ⟨hend, hd⟩
    obtain ⟨e, rest, hcut, he⟩ := eq_beforeEnd_append hend
    rw [hcut]
    exact hd.read he
  · intro ts tree tree' h h'
    have e : (Token.mk .eof "" ⟨"", 0, 0, 0⟩).kind = .eof := rfl
    have hr := @Derives.read ts [] _ tree h e
    rw [@Derives.read ts [] _ tree' h' e] at hr
    exact (Except.ok.inj hr).symm
  · intro ts tree t hend hforms ht
    obtain ⟨e, rest, hcut, he⟩ := eq_beforeEnd_append hend
    have hc := @ofTokens_complete _ rest e tree hforms he
    rw [ht, ← hcut] at hc
    exact hc

/-- The procedure `declare [void] :: f() a::b(…) : x ret end`, with an offset of the given
    digits. -/
def offsetSample (digits : String) : List Token :=
  [tokenOf .declare "declare", tokenOf .lbracket "[", tokenOf .ident "void",
   tokenOf .rbracket "]", tokenOf .doubleColon "::", tokenOf .ident "f", tokenOf .lparen "(",
   tokenOf .rparen ")", tokenOf .ident "a", tokenOf .doubleColon "::", tokenOf .ident "b",
   tokenOf .lparen "(", tokenOf .number digits, tokenOf .rparen ")", tokenOf .colon ":",
   tokenOf .ident "x", tokenOf .ret "ret", tokenOf .endBlock "end"]

/-- Its tree, with the offset as a word. -/
def offsetProcedure (offset : UInt64) : Node :=
  ⟨{ kind := .procedure, value := "f" },
   [⟨{ kind := .typeExpr, value := "void" }, []⟩,
    ⟨{ kind := .assignment }, [⟨{ kind := .reference, value := "a" },
      [⟨{ kind := .field, value := "b", path := some "a::b", offset }, []⟩]⟩,
      ⟨{ kind := .reference, value := "x" }, []⟩]⟩,
    ⟨{ kind := .ret }, []⟩]⟩

theorem offsetSample_forms (digits : String) :
    FormsProgram (offsetSample digits)
      ⟨{ kind := .root }, [offsetProcedure (tokenOf .number digits).word]⟩ := by
  have htype : FormsType [tokenOf .lbracket "[", tokenOf .ident "void", tokenOf .rbracket "]"]
      { kind := .typeExpr, value := "void" } := .mk rfl (.inl rfl) .none .none rfl
  have hpath : FormsPath .reference
      [tokenOf .ident "a", tokenOf .doubleColon "::", tokenOf .ident "b", tokenOf .lparen "(",
       tokenOf .number digits, tokenOf .rparen ")"]
      ⟨{ kind := .reference, value := "a" },
       [⟨{ kind := .field, value := "b", path := some "a::b",
           offset := (tokenOf .number digits).word }, []⟩]⟩ :=
    .mk rfl (.cons (.fixed rfl rfl rfl rfl rfl) .nil)
  have hvalue : FormsValue [tokenOf .ident "x"] ⟨{ kind := .reference, value := "x" }, []⟩ :=
    .path (.mk rfl .nil)
  have hret : (tokenOf .ret "ret").kind = .ret := rfl
  have hcolon : (tokenOf .colon ":").kind = .colon := rfl
  have hbody := FormsBody.bareRet (.cons (.assign hpath hcolon hvalue) .nil) hret
  have hproc : FormsDeclared (offsetSample digits).tail (offsetProcedure _) :=
    .procedure htype rfl rfl rfl .nil rfl hbody rfl
  have hitem : FormsItem (offsetSample digits) (offsetProcedure _) := .declaration rfl .nil hproc
  have hall : Many FormsItem (offsetSample digits ++ []) [offsetProcedure _] := .cons hitem .nil
  rw [List.append_nil] at hall
  exact .mk hall

/-- The sample is read with an offset that is a word, as the one tree it derives. With an offset one
    above the largest word it is refused. -/
theorem ofTokens_of_offsets :
    (Program.ofTokens (offsetSample "2" ++ [tokenOf .eof ""])).map Program.toNode =
      .ok ⟨{ kind := .root }, [offsetProcedure 2]⟩ ∧
    (∀ tree, Derives (offsetSample "2") tree →
      tree = ⟨{ kind := .root }, [offsetProcedure 2]⟩) ∧
    Program.ofTokens (offsetSample "18446744073709551616" ++ [tokenOf .eof ""]) =
      .error (.invalidNumber "18446744073709551616" ⟨"sample", 1, 1, 0⟩) := by
  have hcut : ∀ digits, beforeEnd (offsetSample digits ++ [tokenOf .eof ""]) =
      offsetSample digits := fun digits =>
    beforeEnd_append rfl (by simp [offsetSample, tokenOf, sampleToken])
  have hend : ∀ digits, ∃ t ∈ offsetSample digits ++ [tokenOf .eof ""], t.kind = .eof :=
    fun digits => ⟨tokenOf .eof "", List.mem_append_right _ List.mem_cons_self, rfl⟩
  have hword : (tokenOf .number "2").word = 2 := by decide +kernel
  have hd : Derives (offsetSample "2") ⟨{ kind := .root }, [offsetProcedure 2]⟩ :=
    ⟨hword ▸ offsetSample_forms "2", by decide +kernel⟩
  obtain ⟨hread, hone, hnumber⟩ := ofTokens_iff_derives
  refine ⟨(hread _ _).mpr ⟨hend _, ?_⟩, fun tree ht => hone _ _ _ ht hd, ?_⟩
  · rw [hcut]
    exact hd
  · have hforms := offsetSample_forms "18446744073709551616"
    rw [← hcut] at hforms
    refine hnumber _ _ (tokenOf .number "18446744073709551616") (hend _) hforms ?_
    rw [hcut]
    decide +kernel

end Osclan
