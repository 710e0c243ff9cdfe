/-
  File:      Osclan/Proofs/Segmentation.lean
  Subject:   A source is its gaps and lexemes, and every token is where its lexeme begins.

  The lexer moves a position along with the characters it takes. Here the position of a token is
  counted from the characters in front of it instead: the line by the line ends among them, the
  column by those after the last line end, the offset by all. The two agree, so no branch of the
  lexer can lose or gain a character unseen.

  * `Position.counted`, `counted_after` -- positions by counting;
  * `Segments` -- a text as gaps and lexemes with their tokens;
  * `lex_segments` -- the tokens of a text segment it;
  * `tokenize_segments` -- the statement for whole sources.
-/
import Osclan.Proofs.CutPlaces

namespace Osclan

/-! ## 1. Positions by counting -/

/-- The place after the characters `cs` of a file: one line more than line ends, one column more
    than characters since the last line end. -/
def Position.counted (file : String) (cs : List Char) : Position :=
  { file
    line := 1 + cs.count '\n'
    col := 1 + (cs.reverse.takeWhile (· ≠ '\n')).length
    offset := cs.length }

theorem counted_next (file : String) (cs : List Char) (c : Char) :
    (Position.counted file cs).next c = .counted file (cs ++ [c]) := by
  unfold Position.next Position.counted
  by_cases hc : c = '\n'
  · subst hc
    simp [List.count_append, Nat.add_assoc]
  · have hcount : [c].count '\n' = 0 := by simp [hc]
    simp [List.count_append, hc, Nat.add_comm]

/-- **The lexer's positions are counted ones.** -/
theorem counted_after (file : String) (before cs : List Char) :
    (Position.counted file before).after cs = .counted file (before ++ cs) := by
  induction cs generalizing before with
  | nil => rw [List.append_nil]; rfl
  | cons c cs ih =>
    have hstep : (Position.counted file before).after (c :: cs) =
        ((Position.counted file before).next c).after cs := rfl
    rw [hstep, counted_next, ih, List.append_assoc]
    rfl

theorem start_after (file : String) (cs : List Char) :
    (Position.start file).after cs = .counted file cs :=
  counted_after file [] cs

/-! ## 2. Segments -/

/-- **A text as gaps and lexemes.** The characters `before` stand in front of the text; each token
    has the place where its lexeme begins, and the end token that where the last gap ends. -/
inductive Segments (file : String) : List Char → List Char → List Token → Prop where
  | done {before gap : List Char} : Gap gap [] →
      Segments file before gap [⟨.eof, "", .counted file (before ++ gap)⟩]
  | token {before gap lexeme rest : List Char} {kind : TokenKind} {value : String}
      {ts : List Token} : Gap gap (lexeme ++ rest) → Spells lexeme kind value →
      Segments file (before ++ gap ++ lexeme) rest ts →
      Segments file before (gap ++ (lexeme ++ rest))
        (⟨kind, value, .counted file (before ++ gap)⟩ :: ts)

section

variable {file : String} {before cs : List Char} {ts : List Token}

/-- What extends every gap in front of a text can be put in front of its first gap. -/
theorem Segments.extend {more : List Char} (h : Segments file (before ++ more) cs ts)
    (hgap : ∀ gap rest, cs = gap ++ rest → Gap gap rest → Gap (more ++ gap) rest) :
    Segments file before (more ++ cs) ts := by
  cases h with
  | done hg =>
    rw [List.append_assoc]
    exact .done (hgap cs [] (List.append_nil cs).symm hg)
  | @token _ gap lexeme rest _ _ _ hg hs hr =>
    rw [List.append_assoc before] at hr ⊢
    rw [← List.append_assoc more]
    exact .token (hgap gap _ rfl hg) hs hr

/-- **The tokens of a text segment it.** -/
theorem lex_segments (h : lex (.counted file before) cs = .ok ts) : Segments file before cs ts := by
  induction cs using cut_induction generalizing before ts with
  | nil =>
    rw [lex_nil] at h
    obtain rfl := Except.ok.inj h
    have hd := @Segments.done file before [] .nil
    rwa [List.append_nil] at hd
  | stop c cs hh => exact absurd h (lex_stop_ne_ok hh)
  | cut c lexeme tail hh ih =>
    obtain ⟨us, hus, rfl⟩ := (lex_cut_ok hh).mp h
    rw [counted_after] at hus
    have hsegs := ih hus
    cases he : head c (lexeme ++ tail) with
    | gap more =>
      rw [he] at hh
      obtain rfl := Option.some.inj hh
      refine hsegs.extend fun gap rest hc hg => ?_
      have hgap := head_gap he (List.drop_left.trans hc) hg
      rwa [List.take_left] at hgap
    | token kind value more =>
      rw [he] at hh
      obtain rfl := Option.some.inj hh
      have hs := head_spells he
      rw [List.take_left] at hs
      have ht := @Segments.token file before [] _ tail _ _ us .nil hs (by rwa [List.append_nil])
      rwa [List.append_nil] at ht
    | openText =>
      rw [he] at hh
      cases hh
    | foreign =>
      rw [he] at hh
      cases hh

/-- Tokens do not begin before the text they segment. -/
theorem Segments.le_offset (h : Segments file before cs ts) :
    ∀ t ∈ ts, before.length ≤ t.pos.offset := by
  induction h with
  | done hg =>
    intro t ht
    rw [List.mem_singleton.mp ht]
    simp [Position.counted]
  | token hg hs hr ih =>
    intro t ht
    rcases List.mem_cons.mp ht with rfl | ht
    · simp [Position.counted]
    · have := ih t ht
      simp only [List.length_append] at this
      omega

/-- Each token begins after all tokens before it. -/
theorem Segments.pairwise (h : Segments file before cs ts) :
    ts.Pairwise fun t u => t.pos.offset < u.pos.offset := by
  induction h with
  | done hg => exact List.pairwise_singleton _ _
  | @token before gap lexeme rest kind value ts hg hs hr ih =>
    refine List.pairwise_cons.mpr ⟨fun u hu => ?_, ih⟩
    have hle := hr.le_offset u hu
    have hpos := List.length_pos_iff.mpr hs.ne_nil
    simp only [List.length_append] at hle
    simp only [Position.counted, List.length_append]
    omega

/-- The last token is the only end token, and stands after all characters. -/
theorem Segments.ends (h : Segments file before cs ts) :
    ∃ us, ts = us ++ [⟨.eof, "", .counted file (before ++ cs)⟩] ∧ ∀ t ∈ us, t.kind ≠ .eof := by
  induction h with
  | done hg => exact ⟨[], rfl, fun _ ht => absurd ht List.not_mem_nil⟩
  | @token before gap lexeme rest kind value ts hg hs hr ih =>
    obtain ⟨us, rfl, hne⟩ := ih
    refine ⟨⟨kind, value, .counted file (before ++ gap)⟩ :: us, ?_, ?_⟩
    · simp only [List.append_assoc, List.cons_append]
    · intro t ht
      rcases List.mem_cons.mp ht with rfl | ht
      · exact hs.kind_ne_eof
      · exact hne t ht

end

/-! ## 3. Sources -/

/-- **A source is its gaps and lexemes, in order and without loss.** Each token has the place of its
    lexeme, counted from the characters in front of it; the places increase; and the list ends with
    the one end token, which stands after all characters. -/
theorem tokenize_segments {file source : String} {ts : List Token}
    (h : tokenize file source = .ok ts) :
    Segments file [] source.toList ts ∧
      (ts.Pairwise fun t u => t.pos.offset < u.pos.offset) ∧
      ∃ us, ts = us ++ [⟨.eof, "", .counted file source.toList⟩] ∧ ∀ t ∈ us, t.kind ≠ .eof := by
  have hstart : Position.start file = .counted file [] := rfl
  rw [tokenize_eq_lex, hstart] at h
  have hs := lex_segments h
  exact ⟨hs, hs.pairwise, hs.ends⟩

/-- A source with a comment, a text over two lines, and a reserved word in capitals. -/
def linesSample : String := "a .* b\n\"x\ny\" END"

theorem segments_of_linesSample : ∃ ts, tokenize "sample" linesSample = .ok ts ∧
    ts = [⟨.ident, "a", ⟨"sample", 1, 1, 0⟩⟩, ⟨.text, "x\ny", ⟨"sample", 2, 1, 7⟩⟩,
      ⟨.endBlock, "end", ⟨"sample", 3, 4, 13⟩⟩, ⟨.eof, "", ⟨"sample", 3, 7, 16⟩⟩] ∧
    Segments "sample" [] linesSample.toList ts := by
  have hsome : (tokenize "sample" linesSample).toOption =
      some [⟨.ident, "a", ⟨"sample", 1, 1, 0⟩⟩, ⟨.text, "x\ny", ⟨"sample", 2, 1, 7⟩⟩,
        ⟨.endBlock, "end", ⟨"sample", 3, 4, 13⟩⟩, ⟨.eof, "", ⟨"sample", 3, 7, 16⟩⟩] := by
    decide +kernel
  cases ht : tokenize "sample" linesSample with
  | error e =>
    rw [ht] at hsome
    cases hsome
  | ok ts =>
    rw [ht] at hsome
    exact ⟨ts, rfl, Option.some.inj hsome, (tokenize_segments ht).1⟩

end Osclan
