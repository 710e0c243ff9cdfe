/-
  File:      Osclan/Proofs/Lexeme.lean
  Subject:   Gaps and lexemes: what the head of a text may be.

  The lexer looks at the head of a text and says what it is and how many characters belong to it.
  `HeadIs` says which texts have which head, guards included, so that no later proof opens `head`
  again. From it follow the two facts that a cut of the whole text rests on: what is passed over is
  a gap, and what is taken for a token spells that token.

  * `Run` -- characters of a class, up to the first that is not of it;
  * `HeadIs`, `head_is` -- the cases of the head of a text;
  * `Spells`, `head_spells` -- the characters of a token of a given kind and value;
  * `Gap`, `head_gap` -- blanks and comments in front of a text.
-/
import Osclan.Token.Lexer

namespace Osclan

/-! ## 1. Runs of characters -/

/-- The characters of `run` are of the class, and `rest` does not begin with one. -/
structure Run (p : Char → Bool) (run rest : List Char) : Prop where
  all : ∀ d ∈ run, p d = true
  ends : rest.head?.any p = false

theorem takeWhile_run (p : Char → Bool) : ∀ cs : List Char, Run p (cs.takeWhile p) (cs.dropWhile p)
  | [] => ⟨fun _ hd => absurd hd List.not_mem_nil, rfl⟩
  | c :: cs => by
    by_cases hc : p c = true
    · rw [List.takeWhile_cons_of_pos hc, List.dropWhile_cons_of_pos hc]
      have ih := takeWhile_run p cs
      refine ⟨fun d hd => ?_, ih.ends⟩
      rcases List.mem_cons.mp hd with rfl | hd
      · exact hc
      · exact ih.all d hd
    · rw [List.takeWhile_cons_of_neg hc, List.dropWhile_cons_of_neg hc]
      refine ⟨fun _ hd => absurd hd List.not_mem_nil, ?_⟩
      simpa using hc

/-- A text is cut at the end of the run it begins with. -/
theorem eq_append_run (p : Char → Bool) (cs : List Char) :
    ∃ run rest, cs = run ++ rest ∧ cs.takeWhile p = run ∧ Run p run rest :=
  ⟨_, _, List.takeWhile_append_dropWhile.symm, rfl, takeWhile_run p cs⟩

/-- The run is what the text begins with. -/
theorem Run.takeWhile_eq {p : Char → Bool} {run rest : List Char} (h : Run p run rest) :
    (run ++ rest).takeWhile p = run := by
  rw [List.takeWhile_append_of_pos h.all]
  have hr : rest.takeWhile p = [] := by
    cases rest with
    | nil => rfl
    | cons d rest =>
      have hd : p d = false := h.ends
      exact List.takeWhile_cons_of_neg (ne_true_of_eq_false hd)
  rw [hr, List.append_nil]

/-- What follows the run is left of the text. -/
theorem Run.dropWhile_eq {p : Char → Bool} {run rest : List Char} (h : Run p run rest) :
    (run ++ rest).dropWhile p = rest := by
  have hcut : (run ++ rest).takeWhile p ++ (run ++ rest).dropWhile p = run ++ rest :=
    List.takeWhile_append_dropWhile
  rw [h.takeWhile_eq] at hcut
  exact List.append_cancel_left hcut

/-! ## 2. The cases of the head -/

/-- The text begins with neither a blank, nor a comment, nor a quote. -/
structure Opens (c : Char) (cs : List Char) : Prop where
  notBlank : Text.isBlank c = false
  notComment : ¬ (c = '.' ∧ cs.head? = some '*')
  notQuote : c ≠ '"'

/-- The reserved text that stands at the head of the characters. -/
def reserved? (cs : List Char) : Option Reserved := reservedWords.find? (·.standsAt cs)

/-- **Which texts have which head.** -/
inductive HeadIs : Char → List Char → Head → Prop where
  | blank {c : Char} {cs : List Char} : Text.isBlank c = true → HeadIs c cs (.gap 0)
  | comment {body rest : List Char} : Run (· ≠ '\n') body rest →
      HeadIs '.' ('*' :: (body ++ rest)) (.gap (body.length + 1))
  | text {body rest : List Char} : '"' ∉ body →
      HeadIs '"' (body ++ '"' :: rest) (.token .text (String.ofList body) (body.length + 1))
  | openText {cs : List Char} : '"' ∉ cs → HeadIs '"' cs .openText
  | reserved {c : Char} {cs : List Char} {row : Reserved} : Opens c cs →
      reserved? (c :: cs) = some row →
      HeadIs c cs (.token row.kind row.value (row.text.length - 1))
  | ident {c : Char} {tail rest : List Char} : Opens c (tail ++ rest) →
      reserved? (c :: (tail ++ rest)) = none → Text.isAlphabetic c = true →
      Run isIdentChar tail rest →
      HeadIs c (tail ++ rest) (.token .ident (String.ofList (c :: tail)) tail.length)
  | number {c : Char} {tail rest : List Char} : Opens c (tail ++ rest) →
      reserved? (c :: (tail ++ rest)) = none → Text.isAlphabetic c = false → c.isDigit = true →
      Run Char.isDigit tail rest →
      HeadIs c (tail ++ rest) (.token .number (String.ofList (c :: tail)) tail.length)
  | symbol {c : Char} {cs : List Char} {kind : TokenKind} : Opens c cs →
      reserved? (c :: cs) = none → Text.isAlphabetic c = false → c.isDigit = false →
      symbolKind? c = some kind → HeadIs c cs (.token kind (String.singleton c) 0)
  | foreign {c : Char} {cs : List Char} : Opens c cs → reserved? (c :: cs) = none →
      Text.isAlphabetic c = false → c.isDigit = false → symbolKind? c = none →
      HeadIs c cs .foreign

theorem head_is_comment {cs : List Char} (h : cs.head? = some '*') :
    HeadIs '.' cs (.gap (cs.takeWhile (· ≠ '\n')).length) := by
  cases cs with
  | nil => cases h
  | cons d cs =>
    obtain rfl := Option.some.inj h
    obtain ⟨body, rest, rfl, hb, hrun⟩ := eq_append_run (· ≠ '\n') cs
    rw [List.takeWhile_cons_of_pos (by decide), hb, List.length_cons]
    exact .comment hrun

theorem head_is_text (cs : List Char) :
    HeadIs '"' cs (if (cs.takeWhile (· ≠ '"')).length < cs.length then
      .token .text (String.ofList (cs.takeWhile (· ≠ '"'))) ((cs.takeWhile (· ≠ '"')).length + 1)
      else .openText) := by
  obtain ⟨body, rest, rfl, hb, hrun⟩ := eq_append_run (· ≠ '"') cs
  have hq : '"' ∉ body := fun hm => by simpa using hrun.all '"' hm
  rw [hb]
  cases rest with
  | nil =>
    rw [List.append_nil, if_neg (Nat.lt_irrefl _)]
    exact .openText hq
  | cons d rest =>
    have hd : d = '"' := by simpa using hrun.ends
    have hlt : body.length < (body ++ d :: rest).length := by
      rw [List.length_append, List.length_cons]
      omega
    rw [if_pos hlt, hd]
    exact .text hq

/-- **The head of a text is as its case says.** -/
theorem head_is (c : Char) (cs : List Char) : HeadIs c cs (head c cs) := by
  unfold head headWith
  by_cases hb : Text.isBlank c = true
  · rw [if_pos hb]
    exact .blank hb
  rw [if_neg hb]
  by_cases hc : c = '.' ∧ cs.head? = some '*'
  · rw [if_pos hc, hc.1]
    exact head_is_comment hc.2
  rw [if_neg hc]
  by_cases hq : c = '"'
  · rw [if_pos hq, hq]
    exact head_is_text cs
  rw [if_neg hq]
  have ho : Opens c cs := ⟨eq_false_of_ne_true hb, hc, hq⟩
  cases hr : reservedWords.find? (·.standsAt (c :: cs)) with
  | some row => exact .reserved ho hr
  | none =>
    by_cases ha : Text.isAlphabetic c = true
    · obtain ⟨tail, rest, rfl, ht, hrun⟩ := eq_append_run isIdentChar cs
      simp only [ha, if_true, ht]
      exact .ident ho hr ha hrun
    have ha' := eq_false_of_ne_true ha
    by_cases hd : c.isDigit = true
    · obtain ⟨tail, rest, rfl, ht, hrun⟩ := eq_append_run Char.isDigit cs
      simp only [ha', hd, Bool.false_eq_true, if_false, if_true, ht]
      exact .number ho hr ha' hd hrun
    have hd' := eq_false_of_ne_true hd
    simp only [ha', hd', Bool.false_eq_true, if_false]
    cases hs : symbolKind? c with
    | some kind => exact .symbol ho hr ha' hd' hs
    | none => exact .foreign ho hr ha' hd' hs

/-! ## 3. Lexemes -/

/-- **The characters of a token.** Names, numbers and symbols stand for themselves, a text literal
    stands between quotes, and a reserved text may be in any case and has the value of its row. -/
inductive Spells : List Char → TokenKind → String → Prop where
  | text {body : List Char} : '"' ∉ body →
      Spells ('"' :: (body ++ ['"'])) .text (String.ofList body)
  | reserved {row : Reserved} {lexeme : List Char} : row ∈ reservedWords →
      lexeme.map Text.lower = row.text.toList → Spells lexeme row.kind row.value
  | ident {c : Char} {tail : List Char} : Text.isAlphabetic c = true →
      (∀ d ∈ tail, isIdentChar d = true) → Spells (c :: tail) .ident (String.ofList (c :: tail))
  | number {c : Char} {tail : List Char} : c.isDigit = true →
      (∀ d ∈ tail, d.isDigit = true) → Spells (c :: tail) .number (String.ofList (c :: tail))
  | symbol {c : Char} {kind : TokenKind} : (c, kind) ∈ symbols →
      Spells [c] kind (String.singleton c)

/-- No lexeme spells the end of a text. -/
theorem Spells.kind_ne_eof {lexeme : List Char} {kind : TokenKind} {value : String}
    (h : Spells lexeme kind value) : kind ≠ .eof := by
  cases h with
  | text => decide
  | @reserved row _ hrow =>
    have hall : ∀ r ∈ reservedWords, r.kind ≠ .eof := by decide
    exact hall row hrow
  | ident => decide
  | number => decide
  | @symbol c kind hc =>
    have hall : ∀ r ∈ symbols, r.2 ≠ .eof := by decide
    exact hall (c, kind) hc

theorem Spells.ne_nil {lexeme : List Char} {kind : TokenKind} {value : String}
    (h : Spells lexeme kind value) : lexeme ≠ [] := by
  cases h with
  | @reserved row _ hrow e =>
    have hall : ∀ r ∈ reservedWords, r.text.toList ≠ [] := by decide
    rintro rfl
    exact hall row hrow e.symm
  | _ => exact List.cons_ne_nil _ _

theorem map_lower_of_beginsWith : ∀ {word input : List Char},
    Text.beginsWith word input = true → (input.take word.length).map Text.lower = word
  | [], _, _ => rfl
  | w :: word, [], h => by cases h
  | w :: word, c :: input, h => by
    rw [Text.beginsWith, Bool.and_eq_true, beq_iff_eq] at h
    rw [List.length_cons, List.take_succ_cons, List.map_cons, h.1, map_lower_of_beginsWith h.2]

theorem length_le_of_beginsWith : ∀ {word input : List Char},
    Text.beginsWith word input = true → word.length ≤ input.length
  | [], _, _ => Nat.zero_le _
  | w :: word, [], h => by cases h
  | w :: word, d :: input, h => by
    rw [Text.beginsWith, Bool.and_eq_true] at h
    exact Nat.succ_le_succ (length_le_of_beginsWith h.2)

theorem reserved?_eq_some {cs : List Char} {row : Reserved} (h : reserved? cs = some row) :
    row ∈ reservedWords ∧ row.standsAt cs = true := by
  unfold reserved? at h
  have hs := List.find?_some h
  exact ⟨List.mem_of_find?_eq_some h, hs⟩

/-- The characters of a reserved text that stands at the head. -/
theorem map_lower_of_reserved? {c : Char} {cs : List Char} {row : Reserved}
    (h : reserved? (c :: cs) = some row) :
    (c :: cs.take (row.text.length - 1)).map Text.lower = row.text.toList := by
  obtain ⟨hrow, hs⟩ := reserved?_eq_some h
  have hpos : ∀ r ∈ reservedWords, 0 < r.text.length := by decide
  have hlen : row.text.toList.length = row.text.length - 1 + 1 := by
    rw [String.length_toList]
    exact (Nat.sub_add_cancel (hpos row hrow)).symm
  have he := map_lower_of_beginsWith ((Bool.and_eq_true _ _).mp hs).1
  rwa [hlen, List.take_succ_cons] at he

theorem mem_symbols_of_symbolKind? {c : Char} {kind : TokenKind} (h : symbolKind? c = some kind) :
    (c, kind) ∈ symbols := by
  obtain ⟨l₁, l₂, e, _⟩ := List.lookup_eq_some_iff.mp h
  rw [e]
  exact List.mem_append_right _ List.mem_cons_self

/-- **What is taken for a token spells it.** -/
theorem head_spells {c : Char} {cs : List Char} {kind : TokenKind} {value : String} {more : Nat}
    (h : head c cs = .token kind value more) : Spells (c :: cs.take more) kind value := by
  have hi := head_is c cs
  rw [h] at hi
  cases hi with
  | @text body rest hq =>
    have e : (body ++ '"' :: rest).take (body.length + 1) = body ++ ['"'] := by
      rw [List.append_cons, List.take_left' (by simp)]
    rw [e]
    exact .text hq
  | reserved ho hr => exact .reserved (reserved?_eq_some hr).1 (map_lower_of_reserved? hr)
  | @ident _ tail rest ho hr ha hrun =>
    rw [List.take_left]
    exact .ident ha hrun.all
  | @number _ tail rest ho hr ha hd hrun =>
    rw [List.take_left]
    exact .number hd hrun.all
  | symbol ho hr ha hd hs => exact .symbol (mem_symbols_of_symbolKind? hs)

/-! ## 4. Gaps -/

/-- **Blanks and comments before the text `rest`.** A comment runs to the next line end or to the
    end of the text. -/
inductive Gap : List Char → List Char → Prop where
  | nil {rest : List Char} : Gap [] rest
  | blank {c : Char} {more rest : List Char} : Text.isBlank c = true → Gap more rest →
      Gap (c :: more) rest
  | comment {body more rest : List Char} : '\n' ∉ body →
      (more ++ rest = [] ∨ ∃ line, more ++ rest = '\n' :: line) → Gap more rest →
      Gap ('.' :: '*' :: (body ++ more)) rest

/-- **What is passed over extends the gap that follows it.** -/
theorem head_gap {c : Char} {cs : List Char} {more : Nat} (h : head c cs = .gap more)
    {gap rest : List Char} (hcut : cs.drop more = gap ++ rest) (hg : Gap gap rest) :
    Gap (c :: cs.take more ++ gap) rest := by
  have hi := head_is c cs
  rw [h] at hi
  cases hi with
  | blank hb => exact .blank hb hg
  | @comment body rest' hrun =>
    rw [List.drop_succ_cons, List.drop_left] at hcut
    rw [List.take_succ_cons, List.take_left]
    refine .comment (fun hn => by simpa using hrun.all '\n' hn) ?_ hg
    rw [← hcut]
    cases rest' with
    | nil => exact .inl rfl
    | cons d line =>
      have hd : d = '\n' := by simpa using hrun.ends
      exact .inr ⟨line, by rw [hd]⟩

end Osclan
