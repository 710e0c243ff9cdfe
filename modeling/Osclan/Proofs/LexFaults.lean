/-
  File:      Osclan/Proofs/LexFaults.lean
  Subject:   Where a source can not be cut into tokens, and why.

  A source is at fault at one place: behind characters that are cut into tokens on their own, at a
  quote that is never closed or at a character that begins nothing. The other way round such a
  character is a fault wherever the lexer comes to it, whatever follows: it ends the token before it
  as a blank would, so only a text literal or a comment can hide it.

  * `BeginsNothing` -- the characters that begin nothing;
  * `EndsInComment`, `cutAt_of_lex` -- a separator behind characters that are cut into tokens;
  * `lex_append_foreign` -- a foreign character behind such characters;
  * `tokenize_faults` -- the faults of a source.
-/
import Osclan.Proofs.CutFronts
import Osclan.Proofs.Segmentation

namespace Osclan

/-! ## 1. Foreign characters -/

/-- The character begins no gap and no token. -/
structure BeginsNothing (c : Char) : Prop where
  notBlank : Text.isBlank c = false
  notQuote : c ≠ '"'
  notLetter : Text.isAlphabetic c = false
  notDigit : c.isDigit = false
  notSymbol : c ∉ symbols.map Prod.fst

theorem symbolKind?_eq_none_iff {c : Char} : symbolKind? c = none ↔ c ∉ symbols.map Prod.fst := by
  unfold symbolKind?
  rw [List.lookup_eq_none_iff, List.mem_map]
  constructor
  · rintro h ⟨row, hrow, rfl⟩
    exact absurd (h row hrow) (by simp)
  · intro h row hrow
    rw [bne_iff_ne]
    exact fun hc => h ⟨row, hrow, hc.symm⟩

/-- The head that can not be taken without a quote is foreign. -/
theorem beginsNothing_of_head {c : Char} {cs : List Char} (h : head c cs = .foreign) :
    BeginsNothing c := by
  have hi := head_is c cs
  rw [h] at hi
  cases hi with
  | foreign ho hr ha hd hs =>
    exact ⟨ho.notBlank, ho.notQuote, ha, hd, symbolKind?_eq_none_iff.mp hs⟩

/-- A text is open where no quote closes it. -/
theorem quote_of_head {c : Char} {cs : List Char} (h : head c cs = .openText) :
    c = '"' ∧ '"' ∉ cs := by
  have hi := head_is c cs
  rw [h] at hi
  cases hi with
  | openText hq => exact ⟨rfl, hq⟩

section

variable {c : Char}

/-- A foreign character that does not continue a name ends whatever token stands before it. -/
theorem BeginsNothing.separates (h : BeginsNothing c) (hi : isIdentChar c = false) :
    Separates c := by
  have hall : ∀ r ∈ reservedWords, r.text.toList.all
      (fun d => Text.isAlphabetic d || (symbols.map Prod.fst).contains d) = true := by
    decide +kernel
  refine ⟨hi, h.notDigit, ?_, lower_of_notLetter h.notLetter, fun r hr hd => ?_⟩
  · rintro rfl
    exact h.notSymbol (by decide)
  · have hc := List.all_eq_true.mp (hall r hr) c hd
    rw [h.notLetter, Bool.false_or, List.contains_iff_mem] at hc
    exact h.notSymbol hc

theorem Separates.reserved?_eq_none (h : Separates c) (cs : List Char) :
    reserved? (c :: cs) = none :=
  reserved?_append_sep h [] cs

/-- **A foreign character that does not continue a name is one before any text.** -/
theorem BeginsNothing.head_eq (h : BeginsNothing c) (hi : isIdentChar c = false) (cs : List Char) :
    head c cs = .foreign := by
  have ho : Opens c cs := by
    refine ⟨h.notBlank, ?_, h.notQuote⟩
    rintro ⟨rfl, _⟩
    exact h.notSymbol (by decide)
  exact Osclan.head_eq (.foreign ho ((h.separates hi).reserved?_eq_none cs) h.notLetter h.notDigit
    (symbolKind?_eq_none_iff.mpr h.notSymbol))

end

/-! ## 2. Separators behind a text -/

/-- The text ends inside a comment: the lexer comes to the two characters that open one, and no line
    end stands behind them. -/
def EndsInComment (cs : List Char) : Prop :=
  ∃ front body, cs = front ++ '.' :: '*' :: body ∧ CutAt front ('.' :: '*' :: body) ∧ '\n' ∉ body

example : EndsInComment "a.* b".toList :=
  ⟨['a'], " b".toList, by decide, @CutAt.behind 'a' [] [] _ (by decide) .here, by decide⟩

/-- A line end closes a comment. -/
theorem not_endsInComment_newline (cs : List Char) : ¬ EndsInComment (cs ++ ['\n']) := by
  rintro ⟨front, body, hcut, _, hn⟩
  have hlast : ('*' :: body).getLast (List.cons_ne_nil _ _) = '\n' := by
    have := congrArg List.getLast? hcut
    simpa [List.getLast?_append, List.getLast?_eq_some_getLast] using this.symm
  rcases List.mem_cons.mp (hlast ▸ List.getLast_mem (List.cons_ne_nil '*' body)) with he | hm
  · exact absurd he (by decide)
  · exact hn hm

theorem EndsInComment.behind {c : Char} {lexeme tail : List Char} (h : EndsInComment tail)
    (hh : (head c (lexeme ++ tail)).taken? = some lexeme.length) :
    EndsInComment (c :: (lexeme ++ tail)) := by
  obtain ⟨front, body, rfl, hcut, hn⟩ := h
  refine ⟨c :: (lexeme ++ front), body, ?_, .behind hh hcut, hn⟩
  rw [List.cons_append, List.append_assoc]

/-- A head that is taken stays as it is before a separator, unless it is a comment to the end of the
    text. -/
theorem head_append_sep_or {d : Char} (hd : Separates d) {c : Char} {cs : List Char} {n : Nat}
    (h : (head c cs).taken? = some n) (rest : List Char) :
    head c (cs ++ d :: rest) = head c cs ∨ EndsInComment (c :: cs) := by
  cases hh : head c cs with
  | token kind value more => exact .inl (head_append_sep hd hh rest)
  | gap more =>
    have hi := head_is c cs
    rw [hh] at hi
    cases hi with
    | blank hb => exact .inl (head_eq (.blank hb))
    | @comment body after hrun =>
      -- a comment that a line end closes does not see the separator
      cases after with
      | nil =>
        refine .inr ⟨[], body ++ [], rfl, .here, fun hn => ?_⟩
        rw [List.append_nil] at hn
        simpa using hrun.all '\n' hn
      | cons e after =>
        have hrun' : Run (· ≠ '\n') body (e :: (after ++ d :: rest)) := ⟨hrun.all, hrun.ends⟩
        rw [List.cons_append, List.append_assoc]
        exact .inl (head_eq (.comment hrun'))
  | openText =>
    rw [hh] at h
    cases h
  | foreign =>
    rw [hh] at h
    cases h

/-- **The lexer comes to a separator behind characters that are cut into tokens**, unless they end
    inside a comment. -/
theorem cutAt_of_lex {d : Char} (hd : Separates d) {pos : Position} {cs : List Char}
    {ts : List Token} (h : lex pos cs = .ok ts) (hc : ¬ EndsInComment cs) (rest : List Char) :
    CutAt cs (d :: rest) := by
  induction cs using cut_induction generalizing pos ts with
  | nil => exact .here
  | stop c cs hh => exact absurd h (lex_stop_ne_ok hh)
  | cut c lexeme tail hh ih =>
    obtain ⟨us, hus, _⟩ := (lex_cut_ok hh).mp h
    have htail : CutAt tail (d :: rest) := ih hus fun ht => hc (ht.behind hh)
    rcases head_append_sep_or hd hh rest with hsame | hend
    · refine .behind ?_ htail
      rw [← List.append_assoc, hsame, hh]
    · exact absurd hend hc

/-- **A foreign character is found behind characters that are cut into tokens**, whatever follows
    it. -/
theorem lex_append_foreign {c : Char} (hf : BeginsNothing c) (hi : isIdentChar c = false)
    {pos : Position} {front : List Char} {ts : List Token} (h : lex pos front = .ok ts)
    (hc : ¬ EndsInComment front) (rest : List Char) :
    lex pos (front ++ c :: rest) = .error (.unexpectedChar c (pos.after front)) := by
  obtain ⟨pre, hpre⟩ := (cutAt_of_lex (hf.separates hi) h hc rest).lex_eq pos
  rw [hpre, lex_foreign (hf.head_eq hi rest)]
  rfl

/-! ## 3. Sources -/

/-- **The faults of a source.** A source at fault has in front of the fault characters that are cut
    into tokens on their own; the place of the fault is counted from them; and the character behind
    them is a quote with no quote after it, or begins nothing. The other way round, behind
    characters that are cut into tokens and do not end inside a comment, a character that begins
    nothing and does not continue a name is the fault of the source, whatever follows. -/
theorem tokenize_faults (file source : String) :
    (∀ fault, tokenize file source = .error fault →
      ∃ (front : String) (c : Char) (rest : List Char),
        source.toList = front.toList ++ c :: rest ∧ (∃ ts, tokenize file front = .ok ts) ∧
        (fault = .unterminatedText (.counted file front.toList) ∧ c = '"' ∧ '"' ∉ rest ∨
          fault = .unexpectedChar c (.counted file front.toList) ∧ BeginsNothing c)) ∧
    (∀ (front : String) (c : Char) (rest : List Char),
      source.toList = front.toList ++ c :: rest → (∃ ts, tokenize file front = .ok ts) →
      ¬ EndsInComment front.toList → BeginsNothing c → isIdentChar c = false →
      tokenize file source = .error (.unexpectedChar c (.counted file front.toList))) := by
  simp only [tokenize_eq_lex]
  constructor
  · intro fault h
    obtain ⟨front, c, rest, hcut, hplace, hfault⟩ := lex_fault h
    rw [start_after] at hfault
    refine ⟨String.ofList front, c, rest, ?_, ?_, ?_⟩
    · rw [hcut, String.toList_ofList]
    · rw [String.toList_ofList]
      exact hplace.lexes _
    · rw [String.toList_ofList]
      rcases hfault with ⟨hh, he⟩ | ⟨hh, he⟩
      · exact .inl ⟨he, quote_of_head hh⟩
      · exact .inr ⟨he, beginsNothing_of_head hh⟩
  · rintro front c rest hcut ⟨ts, hts⟩ hc hf hi
    rw [hcut, lex_append_foreign hf hi hts hc, start_after]

/-- Characters in front of a place are told by their number. -/
theorem front_unique {front front' : String} {rest rest' : List Char}
    (h : front.toList ++ rest = front'.toList ++ rest')
    (hlen : front.toList.length = front'.toList.length) : front = front' := by
  rw [← String.toList_inj]
  exact (List.append_inj h hlen).1

/-- In the first source a superscript keeps the two characters before it from being one token, and
    is the fault itself; without it they are one token. In the second one a text is open. In the
    third one a comment hides a foreign character, and the next one is the fault. -/
theorem faults_of_samples :
    (tokenize "sample" "x ~=\u00b2" = .error (.unexpectedChar '\u00b2' ⟨"sample", 1, 5, 4⟩) ∧
      (∃ ts, tokenize "sample" "x ~=" = .ok ts) ∧ BeginsNothing '\u00b2') ∧
    (tokenize "sample" "print \"abc" = .error (.unterminatedText ⟨"sample", 1, 7, 6⟩) ∧
      ∃ ts, tokenize "sample" "print " = .ok ts) ∧
    tokenize "sample" "a .* ?\n?end \"" = .error (.unexpectedChar '?' ⟨"sample", 2, 1, 7⟩) := by
  refine ⟨?_, ?_, ?_⟩
  · have h : tokenize "sample" "x ~=\u00b2" =
        .error (.unexpectedChar '\u00b2' ⟨"sample", 1, 5, 4⟩) := by decide +kernel
    obtain ⟨front, c, rest, hcut, hts, ⟨he, _⟩ | ⟨he, hf⟩⟩ := (tokenize_faults "sample" _).1 _ h
    · cases he
    · obtain ⟨rfl, hp⟩ := LexError.unexpectedChar.inj he
      have hfront : "x ~=" = front := front_unique hcut (congrArg Position.offset hp)
      rw [← hfront] at hts
      exact ⟨h, hts, hf⟩
  · have h : tokenize "sample" "print \"abc" =
        .error (.unterminatedText ⟨"sample", 1, 7, 6⟩) := by decide +kernel
    obtain ⟨front, c, rest, hcut, hts, ⟨he, _⟩ | ⟨he, _⟩⟩ := (tokenize_faults "sample" _).1 _ h
    · have hp := LexError.unterminatedText.inj he
      have hfront : "print " = front := front_unique hcut (congrArg Position.offset hp)
      rw [← hfront] at hts
      exact ⟨h, hts⟩
    · cases he
  · have hfront : ∃ ts, tokenize "sample" "a .* ?\n" = .ok ts :=
      ⟨[⟨.ident, "a", ⟨"sample", 1, 1, 0⟩⟩, ⟨.eof, "", ⟨"sample", 2, 1, 7⟩⟩], by decide +kernel⟩
    have hforeign : BeginsNothing '?' := by constructor <;> decide +kernel
    exact (tokenize_faults "sample" "a .* ?\n?end \"").2 "a .* ?\n" '?' "end \"".toList (by decide)
      hfront (not_endsInComment_newline "a .* ?".toList) hforeign (by decide +kernel)

end Osclan
