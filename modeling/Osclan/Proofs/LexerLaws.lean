/-
  File:      Osclan/Proofs/LexerLaws.lean
  Subject:   Sources written back from their tokens, and sources one below the other.

  Two laws of the lexer. The tokens of a source, written as words with one blank between neighbours,
  are cut into the same tokens again: what the source had in its gaps, and in which case it wrote its
  reserved words, is not in the tokens. And a source below another one is cut as if it stood alone,
  a line end and all the characters above it further on; a fault in the second is the same fault at
  its new place, and a foreign character in the first is found before the second is looked at.

  * `Token.content`, `respelled` -- what a token says, and the words of tokens;
  * `tokenize_respelled` -- the tokens of a source written back;
  * `Move.below`, `lex_append_newline_foreign` -- the place below a text, and faults above it;
  * `tokenize_stacked` -- the tokens of two sources, one below the other.
-/
import Osclan.Proofs.LineEnd
import Osclan.Proofs.Segmentation

namespace Osclan

/-! ## 1. Sources written back -/

/-- What a token says, wherever it stands. -/
def Token.content (t : Token) : TokenKind × String := (t.kind, t.value)

/-- The words of the tokens, with one blank between neighbours. -/
def respelled (ts : List Token) : String := spaced (ts.map fun t => spelling t.kind t.value)

theorem tokensOf_spelling {ts : List Token} (h : ∀ t ∈ ts, t.Spelled) :
    TokensOf (ts.map fun t => spelling t.kind t.value) ts := by
  unfold TokensOf
  rw [List.forall₂_map_right_iff, List.forall₂_same]
  exact h

/-- Words have one list of tokens, but for the places. -/
theorem TokensOf.content_eq {words : List String} {ts us : List Token} (ht : TokensOf words ts)
    (hu : TokensOf words us) : us.map Token.content = ts.map Token.content := by
  induction ht generalizing us with
  | nil =>
    cases hu
    rfl
  | @cons t w ts words hr _ ih =>
    cases hu with
    | @cons u _ us _ hr' hu =>
      obtain ⟨hk, hv⟩ := hr.unique hr'
      rw [List.map_cons, List.map_cons, ih hu, Token.content, Token.content, hk, hv]

/-- The tokens of a source end with its one end token. -/
theorem tokenize_ends {file source : String} {ts : List Token} (h : tokenize file source = .ok ts) :
    ∃ pre, ts = pre ++ [⟨.eof, "", .counted file source.toList⟩] ∧ ∀ t ∈ pre, t.kind ≠ .eof :=
  (@lex_segments file [] source.toList ts h).ends

/-- **A source written back from its tokens has the same tokens.** The words of all its tokens but
    the end token are cut into tokens of the same kinds and values in the same order, and one end
    token. -/
theorem tokenize_respelled {file source : String} {ts : List Token}
    (h : tokenize file source = .ok ts) (name : String) :
    ∃ pre e, ts = pre ++ [e] ∧ e.kind = .eof ∧ (∀ t ∈ pre, t.kind ≠ .eof) ∧
      ∃ us, tokenize name (respelled pre) = .ok us ∧
        us.map Token.content = ts.map Token.content := by
  obtain ⟨pre, rfl, hne⟩ := tokenize_ends h
  have hspelled : ∀ t ∈ pre, t.Spelled := fun t ht =>
    lex_spelled h t (List.mem_append_left _ ht) (hne t ht)
  have hwords : ∀ w ∈ pre.map (fun t => spelling t.kind t.value), IsWord w := by
    intro w hw
    obtain ⟨t, ht, rfl⟩ := List.mem_map.mp hw
    exact ⟨t.kind, t.value, hspelled t ht⟩
  obtain ⟨us, last, hlex, _, hus⟩ := lex_spaced hwords (.start name)
  -- the end token of the words is the one that every source has
  obtain ⟨us', hcut, _⟩ := tokenize_ends hlex
  obtain ⟨rfl, hlast⟩ := List.append_inj' hcut rfl
  refine ⟨pre, _, rfl, rfl, hne, us ++ [last], hlex, ?_⟩
  rw [List.map_append, List.map_append, (tokensOf_spelling hspelled).content_eq hus, hlast]
  rfl

/-- A reserved word in capitals, a reserved word for a number, a text over two lines, a dot that must
    not meet the star, and a comment. -/
def scatteredSample : String := "END(ok)\"x\ny\".\t*~=.* c"

/-- What its tokens are. -/
def scatteredContents : List (TokenKind × String) :=
  [(.endBlock, "end"), (.lparen, "("), (.number, "0"), (.rparen, ")"), (.text, "x\ny"),
   (.dot, "."), (.asterisk, "*"), (.notEqual, "~=")]

theorem respelled_of_scatteredSample : ∃ ts, tokenize "sample" scatteredSample = .ok ts ∧
    ts.map Token.content = scatteredContents ++ [(.eof, "")] ∧
    ∃ us, tokenize "other" "end ( 0 ) \"x\ny\" . * ~=" = .ok us ∧
      us.map Token.content = ts.map Token.content := by
  have hsome : ((tokenize "sample" scatteredSample).toOption.map (List.map Token.content)) =
      some (scatteredContents ++ [(.eof, "")]) := by decide +kernel
  cases ht : tokenize "sample" scatteredSample with
  | error e =>
    rw [ht] at hsome
    cases hsome
  | ok ts =>
    rw [ht] at hsome
    have hts : ts.map Token.content = scatteredContents ++ [(.eof, "")] := Option.some.inj hsome
    obtain ⟨pre, e, rfl, _, _, us, hus, hsame⟩ := tokenize_respelled ht "other"
    have hpre : pre.map Token.content = scatteredContents := by
      rw [List.map_append] at hts
      exact (List.append_inj' hts rfl).1
    have hwords : pre.map (fun t => spelling t.kind t.value) =
        (pre.map Token.content).map fun c => spelling c.1 c.2 := by
      rw [List.map_map]
      rfl
    have htext : respelled pre = "end ( 0 ) \"x\ny\" . * ~=" := by
      rw [respelled, hwords, hpre]
      decide +kernel
    rw [htext] at hus
    exact ⟨_, rfl, hts, us, hus, hsame⟩

/-! ## 2. Sources one below the other -/

/-- The move to the line below a text. -/
def Move.below (file : String) (text : List Char) : Move :=
  ⟨file, text.count '\n' + 1, text.length + 1⟩

theorem Position.next_after_start (file : String) (text : List Char) :
    ((Position.start file).after text).next '\n' =
      (Position.start file).moved (.below file text) := by
  have hstart : Position.start file = .counted file [] := rfl
  rw [hstart, counted_after, List.nil_append]
  simp only [Position.next, Position.counted, Position.moved, Move.below, if_true,
    List.count_nil, List.length_nil, Position.mk.injEq, true_and]
  exact ⟨by omega, by simp, by omega⟩

/-- **A foreign character is found before anything below it.** -/
theorem lex_append_newline_foreign {pos : Position} {cs : List Char} {c : Char} {p : Position}
    (h : lex pos cs = .error (.unexpectedChar c p)) (ds : List Char) :
    lex pos (cs ++ '\n' :: ds) = .error (.unexpectedChar c p) := by
  induction cs using cut_induction generalizing pos with
  | nil =>
    rw [lex_nil] at h
    cases h
  | stop d cs hh =>
    rcases Head.stops hh with ho | hf
    · rw [lex_openText ho] at h
      cases h
    · have hhead : head d (cs ++ '\n' :: ds) = .foreign := by
        rw [head_append_newline (by rw [hf]; exact Head.noConfusion), hf]
      rw [lex_foreign hf] at h
      rw [List.cons_append, lex_foreign hhead, h]
  | cut d lexeme tail hh ih =>
    rw [lex_cut_newline hh, ih ((lex_cut_error hh).mp h)]
    rfl

/-- **Two sources, one below the other.** Where the first is cut into tokens, the whole is cut into
    these without the end token and then into those of the second, moved by the lines and characters
    of the first and the line end; columns stay. A fault in the second is the fault of the whole,
    moved alike. Where the first has a foreign character, the whole has the same fault at the same
    place. -/
theorem tokenize_stacked (file source₁ source₂ : String) :
    (∀ ts, tokenize file source₁ = .ok ts → ∃ pre e, ts = pre ++ [e] ∧ e.kind = .eof ∧
      (∀ us, tokenize file source₂ = .ok us → tokenize file (source₁ ++ "\n" ++ source₂) =
        .ok (pre ++ us.map (Token.moved (.below file source₁.toList)))) ∧
      (∀ fault, tokenize file source₂ = .error fault → tokenize file (source₁ ++ "\n" ++ source₂) =
        .error (fault.moved (.below file source₁.toList)))) ∧
    (∀ c pos, tokenize file source₁ = .error (.unexpectedChar c pos) →
      tokenize file (source₁ ++ "\n" ++ source₂) = .error (.unexpectedChar c pos)) := by
  simp only [tokenize_eq_lex]
  rw [toList_stacked]
  refine ⟨fun ts h => ?_, fun c pos h => lex_append_newline_foreign h _⟩
  obtain ⟨pre, rfl, hboth⟩ := lex_append_newline h
  refine ⟨pre, _, rfl, rfl, ?_, ?_⟩
  · intro us hus
    rw [hboth, Position.next_after_start, lex_moved, hus]
    rfl
  · intro fault hf
    rw [hboth, Position.next_after_start, lex_moved, hf]
    rfl

/-- The upper source ends in a comment. The lower one has its text open in one case, and not in the
    other; in the last case the upper source is at fault, in front of the open text. -/
theorem stacked_of_samples :
    tokenize "sample" "a\n.* b\nend \"c\"" =
      .ok [⟨.ident, "a", ⟨"sample", 1, 1, 0⟩⟩, ⟨.endBlock, "end", ⟨"sample", 3, 1, 7⟩⟩,
        ⟨.text, "c", ⟨"sample", 3, 5, 11⟩⟩, ⟨.eof, "", ⟨"sample", 3, 8, 14⟩⟩] ∧
    tokenize "sample" "a\n.* b\nend \"c" = .error (.unterminatedText ⟨"sample", 3, 5, 11⟩) ∧
    tokenize "sample" "a\n ?\nend \"c" = .error (.unexpectedChar '?' ⟨"sample", 2, 2, 3⟩) := by
  have hupper : tokenize "sample" "a\n.* b" =
      .ok [⟨.ident, "a", ⟨"sample", 1, 1, 0⟩⟩, ⟨.eof, "", ⟨"sample", 2, 5, 6⟩⟩] := by
    decide +kernel
  have hlower : tokenize "sample" "end \"c\"" =
      .ok [⟨.endBlock, "end", ⟨"sample", 1, 1, 0⟩⟩, ⟨.text, "c", ⟨"sample", 1, 5, 4⟩⟩,
        ⟨.eof, "", ⟨"sample", 1, 8, 7⟩⟩] := by
    decide +kernel
  have hopen : tokenize "sample" "end \"c" = .error (.unterminatedText ⟨"sample", 1, 5, 4⟩) := by
    decide +kernel
  have hforeign : tokenize "sample" "a\n ?" =
      .error (.unexpectedChar '?' ⟨"sample", 2, 2, 3⟩) := by
    decide +kernel
  refine ⟨?_, ?_, (tokenize_stacked "sample" "a\n ?" "end \"c").2 _ _ hforeign⟩
  · obtain ⟨pre, e, hcut, _, hgood, _⟩ :=
      (tokenize_stacked "sample" "a\n.* b" "end \"c\"").1 _ hupper
    obtain ⟨rfl, _⟩ := List.append_inj' (show [_] ++ [_] = pre ++ [e] from hcut) rfl
    exact hgood _ hlower
  · obtain ⟨_, _, _, _, _, hfault⟩ := (tokenize_stacked "sample" "a\n.* b" "end \"c").1 _ hupper
    exact hfault _ hopen

end Osclan
