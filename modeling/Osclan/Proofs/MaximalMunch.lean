/-
  File:      Osclan/Proofs/MaximalMunch.lean
  Subject:   No token could have gone on.

  A name is all the characters that may continue it, so a reserved word at the beginning of a longer
  name is not taken for itself, and a name is never a reserved word in another case. A number is all
  its digits. Reserved texts end where no name goes on, which holds of `~=` too: before a name its
  two characters are two tokens, and only there.

  * `standsAt_of_map_lower` -- a reserved text in any case stands where no name goes on;
  * `head_name`, `head_word`, `head_digits`, `head_tilde` -- the tokens by their kind;
  * `Munched`, `head_munched` -- a token with the characters behind it;
  * `tokenize_munched` -- the tokens of a source.
-/
import Osclan.Proofs.CutFronts
import Osclan.Proofs.Segmentation

namespace Osclan

/-! ## 1. Reserved texts in any case -/

/-- The reserved text is made of letters. -/
def Reserved.Alphabetic (row : Reserved) : Prop := row.text.toList.all Text.isAlphabetic = true

section

variable {lexeme rest : List Char} {row : Reserved}

theorem isIdentChar_of_isAlphabetic {c : Char} (h : Text.isAlphabetic c = true) :
    isIdentChar c = true := by
  unfold isIdentChar Text.isAlphanumeric
  rw [h]
  rfl

theorem beginsWith_of_map_lower (rest : List Char) : ∀ {lexeme : List Char},
    Text.beginsWith (lexeme.map Text.lower) (lexeme ++ rest) = true
  | [] => rfl
  | c :: lexeme => by
    rw [List.map_cons, List.cons_append, Text.beginsWith, beginsWith_of_map_lower rest,
      beq_self_eq_true]
    rfl

/-- **A reserved text in any case stands where no name goes on behind it.** -/
theorem standsAt_of_map_lower (h : lexeme.map Text.lower = row.text.toList)
    (hr : rest.head?.any isIdentChar = false) : row.standsAt (lexeme ++ rest) = true := by
  have hlen : row.text.length = lexeme.length := by
    rw [← String.length_toList, ← h, List.length_map]
  unfold Reserved.standsAt
  rw [← h, beginsWith_of_map_lower, hlen, List.drop_left, hr, Bool.true_and]
  exact Bool.or_true _

/-- Where no reserved text stands, none is spelled in front of what no name goes on with. -/
theorem map_lower_ne (hr : reserved? (lexeme ++ rest) = none)
    (hend : rest.head?.any isIdentChar = false) (hrow : row ∈ reservedWords) :
    lexeme.map Text.lower ≠ row.text.toList := by
  intro he
  have hs := reserved?_eq_some_iff.mpr ⟨hrow, standsAt_of_map_lower he hend⟩
  rw [hr] at hs
  cases hs

/-- A reserved text other than `::` is not followed by a name. -/
theorem notContinued_of_standsAt (hrow : row ∈ reservedWords) (hne : row.text ≠ "::")
    (h : lexeme.map Text.lower = row.text.toList) (hs : row.standsAt (lexeme ++ rest) = true) :
    rest.head?.any isIdentChar = false := by
  have hall : ∀ r ∈ reservedWords, r.text ≠ "::" → r.runsOn = false := by decide
  have hlen : row.text.length = lexeme.length := by
    rw [← String.length_toList, ← h, List.length_map]
  have hnext := ((Bool.and_eq_true _ _).mp hs).2
  rw [hall row hrow hne, Bool.false_or, hlen, List.drop_left] at hnext
  exact (Bool.not_eq_true' _).mp hnext

end

/-! ## 2. Tokens by their kind -/

section

variable {c : Char} {cs : List Char} {kind : TokenKind} {value : String} {more : Nat}

/-- **A name is all that may continue it, and no reserved text.** -/
theorem head_name (h : head c cs = .token .ident value more) :
    Text.isAlphabetic c = true ∧ (∀ d ∈ cs.take more, isIdentChar d = true) ∧
      value = String.ofList (c :: cs.take more) ∧ (cs.drop more).head?.any isIdentChar = false ∧
      ∀ row ∈ reservedWords, (c :: cs.take more).map Text.lower ≠ row.text.toList := by
  have hi := head_is c cs
  rw [h] at hi
  generalize hk : TokenKind.ident = kind at hi
  cases hi with
  | text => cases hk
  | @reserved _ _ row _ hr =>
    have hall : ∀ r ∈ reservedWords, r.kind ≠ .ident := by decide
    exact absurd hk.symm (hall row (reserved?_eq_some hr).1)
  | @ident _ tail rest ho hr ha hrun =>
    rw [List.take_left, List.drop_left]
    exact ⟨ha, hrun.all, rfl, hrun.ends, fun row hrow => map_lower_ne hr hrun.ends hrow⟩
  | number => cases hk
  | @symbol _ _ _ ho hr ha hd hs =>
    have hall : ∀ r ∈ symbols, r.2 ≠ .ident := by decide
    exact absurd hk.symm (hall _ (mem_symbols_of_symbolKind? hs))

/-- **A token spelled as a reserved text other than `::` is not followed by a name.** -/
theorem head_word (h : head c cs = .token kind value more) {row : Reserved}
    (hrow : row ∈ reservedWords) (hne : row.text ≠ "::")
    (he : (c :: cs.take more).map Text.lower = row.text.toList) :
    (cs.drop more).head?.any isIdentChar = false := by
  have hfirst : row.text.toList.head? = some (Text.lower c) := by
    rw [← he]
    rfl
  have hi := head_is c cs
  rw [h] at hi
  cases hi with
  | text =>
    have hall : ∀ r ∈ reservedWords, r.text.toList.head? ≠ some (Text.lower '"') := by decide
    exact absurd hfirst (hall row hrow)
  | @reserved _ _ row' ho hr =>
    have hs := (reserved?_eq_some hr).2
    -- the row found and the row spelled are both the characters in lower case
    have htext : row'.text = row.text := by
      rw [← String.toList_inj, ← he, map_lower_of_reserved? hr]
    have hcut : c :: cs =
        (c :: cs.take (row'.text.length - 1)) ++ cs.drop (row'.text.length - 1) := by
      rw [List.cons_append, List.take_append_drop]
    rw [hcut] at hs
    exact notContinued_of_standsAt (reserved?_eq_some hr).1 (htext ▸ hne)
      (map_lower_of_reserved? hr) hs
  | @ident _ tail rest ho hr ha hrun =>
    rw [List.drop_left]
    exact hrun.ends
  | @number _ tail rest ho hr ha hd hrun =>
    have hall : ∀ r ∈ reservedWords, r.text.toList.head?.any Char.isDigit = false := by decide
    have hno := hall row hrow
    rw [hfirst, lower_of_isDigit hd, Option.any_some, hd] at hno
    cases hno
  | symbol =>
    have hall : ∀ r ∈ reservedWords, r.text.toList.length ≠ 1 := by decide
    exact absurd (congrArg List.length he).symm (hall row hrow)

/-- **A number of digits is all its digits.** -/
theorem head_digits (h : head c cs = .token .number value more) (hc : c.isDigit = true) :
    (cs.drop more).head?.any Char.isDigit = false := by
  have hi := head_is c cs
  rw [h] at hi
  generalize hk : TokenKind.number = kind at hi
  cases hi with
  | text => cases hk
  | reserved _ hr =>
    rw [reserved?_digit hc] at hr
    cases hr
  | ident => cases hk
  | @number _ tail rest ho hr ha hd hrun =>
    rw [List.drop_left]
    exact hrun.ends
  | @symbol _ _ _ ho hr ha hd hs =>
    rw [hc] at hd
    cases hd

/-- A token of a one-character kind is that character, and no reserved text. -/
theorem head_symbol (h : head c cs = .token kind value more) (hk : kind ∈ symbols.map Prod.snd) :
    (c, kind) ∈ symbols ∧ more = 0 ∧ reserved? (c :: cs) = none := by
  have hi := head_is c cs
  rw [h] at hi
  cases hi with
  | text => exact absurd hk (by decide)
  | @reserved _ _ row _ hr =>
    have hall : ∀ r ∈ reservedWords, r.kind ∉ symbols.map Prod.snd := by decide
    exact absurd hk (hall row (reserved?_eq_some hr).1)
  | ident => exact absurd hk (by decide)
  | number => exact absurd hk (by decide)
  | symbol ho hr ha hd hs => exact ⟨mem_symbols_of_symbolKind? hs, rfl, hr⟩

/-- The character of a one-character kind. -/
theorem symbol_unique : ∀ r ∈ symbols, ∀ r' ∈ symbols, r.2 = r'.2 → r.1 = r'.1 := by
  decide

/-- **A tilde stands before `=` only where a name goes on behind that.** -/
theorem head_tilde (h : head c cs = .token .tilde value more) {rest : List Char}
    (he : cs = '=' :: rest) : rest.head?.any isIdentChar = true := by
  obtain ⟨hc, _, hr⟩ := head_symbol h (by decide)
  have htilde : c = '~' := symbol_unique _ hc ('~', .tilde) (by decide) rfl
  refine eq_true_of_ne_false fun hend => ?_
  have hmem : (⟨"~=", .notEqual, "~=", false⟩ : Reserved) ∈ reservedWords := by decide
  rw [htilde, he] at hr
  exact @map_lower_ne ['~', '='] rest _ hr hend hmem (by decide)

end

/-! ## 3. Sources -/

/-- **No token could have gone on**: the token of the given kind and value is spelled as `lexeme`,
    and `rest` stands behind it. -/
structure Munched (lexeme rest : List Char) (kind : TokenKind) (value : String) : Prop where
  spells : Spells lexeme kind value
  /-- A name begins with a letter, has only characters that may continue it, stands for itself, is
      not followed by one more, and is no reserved word in whatever case. -/
  name : kind = .ident → lexeme.head?.any Text.isAlphabetic = true ∧
    (∀ d ∈ lexeme, isIdentChar d = true) ∧ value = String.ofList lexeme ∧
    rest.head?.any isIdentChar = false ∧
    ∀ row ∈ reservedWords, row.Alphabetic → lexeme.map Text.lower ≠ row.text.toList
  /-- A reserved word, and `~=`, is not followed by a character that continues a name. -/
  reserved : ∀ row ∈ reservedWords, row.Alphabetic ∨ row.text = "~=" →
    lexeme.map Text.lower = row.text.toList → rest.head?.any isIdentChar = false
  /-- A number written in digits is not followed by a digit. -/
  number : kind = .number → (∀ d ∈ lexeme, d.isDigit = true) → rest.head?.any Char.isDigit = false

/-- **The head of a text could not have gone on.** -/
theorem head_munched {c : Char} {cs : List Char} {kind : TokenKind} {value : String} {more : Nat}
    (h : head c cs = .token kind value more) :
    Munched (c :: cs.take more) (cs.drop more) kind value := by
  refine ⟨head_spells h, ?_, ?_, ?_⟩
  · rintro rfl
    obtain ⟨hc, htail, hvalue, hend, hne⟩ := head_name h
    refine ⟨hc, ?_, hvalue, hend, fun row hrow _ => hne row hrow⟩
    intro d hd
    rcases List.mem_cons.mp hd with rfl | hd
    · exact isIdentChar_of_isAlphabetic hc
    · exact htail d hd
  · intro row hrow hword he
    have hcolons : ¬ (⟨"::", .doubleColon, "::", true⟩ : Reserved).Alphabetic := by
      unfold Reserved.Alphabetic
      decide
    refine head_word h hrow ?_ he
    intro hc
    rcases hword with ha | ht
    · unfold Reserved.Alphabetic at ha hcolons
      rw [hc] at ha
      exact hcolons ha
    · rw [hc] at ht
      exact absurd ht (by decide)
  · rintro rfl hd
    exact head_digits h (hd c List.mem_cons_self)

/-- **The tokens of a source could not have gone on.** Each token but the last is spelled at its
    place, and what stands behind it does not continue it; and where `=` is a token right behind the
    token `~`, a character that continues a name stands behind that `=`. -/
theorem tokenize_munched {file source : String} {ts : List Token}
    (h : tokenize file source = .ok ts) :
    (∀ t ∈ ts, t.kind ≠ .eof → ∃ front lexeme rest,
      source.toList = front ++ (lexeme ++ rest) ∧ t.pos = .counted file front ∧
      Munched lexeme rest t.kind t.value) ∧
    (∀ t ∈ ts, ∀ u ∈ ts, t.kind = .tilde → u.kind = .equal → u.pos.offset = t.pos.offset + 1 →
      ∃ front d rest, source.toList = front ++ '~' :: '=' :: d :: rest ∧
        t.pos = .counted file front ∧ isIdentChar d = true) := by
  rw [tokenize_eq_lex] at h
  constructor
  · intro t ht hk
    obtain ⟨front, c, cs, more, hcut, hpos, hh⟩ := lex_token h ht hk
    refine ⟨front, c :: cs.take more, cs.drop more, ?_, ?_, head_munched hh⟩
    · rw [List.cons_append, List.take_append_drop, hcut]
    · rw [hpos, start_after]
  · intro t ht u hu hkt hku hnext
    obtain ⟨front, c, cs, more, hcut, hpos, hh⟩ := lex_token h ht (by rw [hkt]; decide)
    obtain ⟨front', d, cs', more', hcut', hpos', hh'⟩ := lex_token h hu (by rw [hku]; decide)
    rw [hkt] at hh
    rw [hku] at hh'
    rw [start_after] at hpos hpos'
    -- the second token begins one character behind the first
    have hlen : (front ++ [c]).length = front'.length := by
      rw [hpos, hpos'] at hnext
      rw [List.length_append]
      exact hnext.symm
    rw [hcut, List.append_cons] at hcut'
    obtain ⟨_, hcs⟩ := List.append_inj hcut' hlen
    have hc : c = '~' :=
      symbol_unique _ (head_symbol hh (by decide)).1 ('~', .tilde) (by decide) rfl
    have hd : d = '=' :=
      symbol_unique _ (head_symbol hh' (by decide)).1 ('=', .equal) (by decide) rfl
    rw [hd] at hcs
    have hident := head_tilde hh hcs
    cases cs' with
    | nil => cases hident
    | cons e rest => exact ⟨front, e, rest, by rw [hcut, hc, hcs], hpos, hident⟩

/-- A name that begins as a reserved word, that word in capitals, and `~=` before a name. -/
def wordsSample : String := "End-1 END~=x"

theorem munched_of_wordsSample :
    tokenize "sample" wordsSample =
      .ok [⟨.ident, "End-1", ⟨"sample", 1, 1, 0⟩⟩, ⟨.endBlock, "end", ⟨"sample", 1, 7, 6⟩⟩,
        ⟨.tilde, "~", ⟨"sample", 1, 10, 9⟩⟩, ⟨.equal, "=", ⟨"sample", 1, 11, 10⟩⟩,
        ⟨.ident, "x", ⟨"sample", 1, 12, 11⟩⟩, ⟨.eof, "", ⟨"sample", 1, 13, 12⟩⟩] ∧
    (∃ front lexeme rest, wordsSample.toList = front ++ (lexeme ++ rest) ∧
      ⟨"sample", 1, 1, 0⟩ = Position.counted "sample" front ∧ Munched lexeme rest .ident "End-1") ∧
    (∃ front lexeme rest, wordsSample.toList = front ++ (lexeme ++ rest) ∧
      ⟨"sample", 1, 7, 6⟩ = Position.counted "sample" front ∧ Munched lexeme rest .endBlock "end") ∧
    ∃ front d rest, wordsSample.toList = front ++ '~' :: '=' :: d :: rest ∧
      ⟨"sample", 1, 10, 9⟩ = Position.counted "sample" front ∧ isIdentChar d = true := by
  have h : tokenize "sample" wordsSample =
      .ok [⟨.ident, "End-1", ⟨"sample", 1, 1, 0⟩⟩, ⟨.endBlock, "end", ⟨"sample", 1, 7, 6⟩⟩,
        ⟨.tilde, "~", ⟨"sample", 1, 10, 9⟩⟩, ⟨.equal, "=", ⟨"sample", 1, 11, 10⟩⟩,
        ⟨.ident, "x", ⟨"sample", 1, 12, 11⟩⟩, ⟨.eof, "", ⟨"sample", 1, 13, 12⟩⟩] := by
    decide +kernel
  obtain ⟨hall, htilde⟩ := tokenize_munched h
  refine ⟨h, ?_, ?_, ?_⟩
  · exact hall ⟨.ident, "End-1", ⟨"sample", 1, 1, 0⟩⟩ (by simp) (by decide)
  · exact hall ⟨.endBlock, "end", ⟨"sample", 1, 7, 6⟩⟩ (by simp) (by decide)
  · exact htilde ⟨.tilde, "~", ⟨"sample", 1, 10, 9⟩⟩ (by simp)
      ⟨.equal, "=", ⟨"sample", 1, 11, 10⟩⟩ (by simp) rfl rfl rfl

end Osclan
