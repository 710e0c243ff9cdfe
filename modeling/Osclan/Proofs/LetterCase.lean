/-
  File:      Osclan/Proofs/LetterCase.lean
  Subject:   The case of ASCII letters does not count in cutting a source.

  Whatever the lexer asks of a character it answers alike for an ASCII letter in both cases: whether
  it is blank, a letter, a digit, a symbol, whether it continues a name, and what its lower case is.
  So a source in small letters is cut at the same places into tokens of the same kinds. Names and
  texts keep the case they are written in, so their values are the ones in small letters; reserved
  texts have values in small letters from the outset.

  * `keeps_toLower` -- what holds of the capitals and their small letters alike;
  * `reserved?_toLower`, `head_toLower` -- the head of a text in small letters;
  * `lex_toLower`, `tokenize_toLower` -- the tokens of a text in small letters.
-/
import Osclan.Proofs.LexFaults

namespace Osclan

/-! ## 1. Characters -/

/-- The code points of the ASCII capitals. -/
def capitals : List Nat := List.range' 0x41 26

theorem toLower_eq_or (c : Char) : c.toLower = c ∨ ∃ n ∈ capitals, c = Char.ofNat n := by
  by_cases hu : c.val ≥ 'A'.val ∧ c.val ≤ 'Z'.val
  · have hlo : 0x41 ≤ c.toNat := UInt32.le_iff_toNat_le.mp hu.1
    have hhi : c.toNat ≤ 0x5a := UInt32.le_iff_toNat_le.mp hu.2
    refine .inr ⟨c.toNat, ?_, (Char.ofNat_toNat c).symm⟩
    rw [capitals, List.mem_range'_1]
    omega
  · unfold Char.toLower
    exact .inl (dif_neg hu)

/-- **What is the same for each capital and its small letter is so for every character.** -/
theorem keeps_toLower {α : Type} {p : Char → α}
    (h : ∀ n ∈ capitals, p (Char.ofNat n).toLower = p (Char.ofNat n)) (c : Char) :
    p c.toLower = p c := by
  rcases toLower_eq_or c with he | ⟨n, hn, rfl⟩
  · rw [he]
  · exact h n hn

theorem isBlank_toLower (c : Char) : Text.isBlank c.toLower = Text.isBlank c :=
  keeps_toLower (by decide) c

theorem isAlphabetic_toLower (c : Char) : Text.isAlphabetic c.toLower = Text.isAlphabetic c :=
  keeps_toLower (by decide) c

theorem isIdentChar_toLower (c : Char) : isIdentChar c.toLower = isIdentChar c :=
  keeps_toLower (by decide) c

theorem isDigit_toLower (c : Char) : c.toLower.isDigit = c.isDigit :=
  keeps_toLower (by decide) c

theorem symbolKind?_toLower (c : Char) : symbolKind? c.toLower = symbolKind? c :=
  keeps_toLower (by decide) c

/-- The full lower case does not ask for more. -/
theorem lower_toLower (c : Char) : Text.lower c.toLower = Text.lower c :=
  keeps_toLower (by decide) c

/-- A character that is no letter comes only from itself. -/
theorem toLower_eq_iff {c d : Char} (hd : ∀ n ∈ capitals,
    decide ((Char.ofNat n).toLower = d) = decide (Char.ofNat n = d)) : c.toLower = d ↔ c = d :=
  decide_eq_decide.mp (@keeps_toLower Bool (fun c => decide (c = d)) hd c)

theorem toLower_eq_self {c : Char} (h : Text.isAlphabetic c = false) : c.toLower = c := by
  have hall : ∀ n ∈ capitals, Text.isAlphabetic (Char.ofNat n) = true := by decide
  rcases toLower_eq_or c with he | ⟨n, hn, rfl⟩
  · exact he
  · rw [hall n hn] at h
    cases h

/-! ## 2. Texts -/

section

variable {c : Char} {cs : List Char}

theorem Run.toLower {p : Char → Bool} (hp : ∀ c, p c.toLower = p c) {run rest : List Char}
    (h : Run p run rest) : Run p (run.map Char.toLower) (rest.map Char.toLower) := by
  constructor
  · intro d hd
    obtain ⟨e, he, rfl⟩ := List.mem_map.mp hd
    rw [hp, h.all e he]
  · rw [List.head?_map, Option.any_map, ← h.ends]
    congr 1
    exact funext hp

theorem quote_mem_toLower : '"' ∈ cs.map Char.toLower ↔ '"' ∈ cs := by
  rw [List.mem_map]
  constructor
  · rintro ⟨d, hd, he⟩
    rwa [(toLower_eq_iff (by decide)).mp he] at hd
  · intro h
    exact ⟨'"', h, rfl⟩

theorem beginsWith_toLower : ∀ {word input : List Char},
    Text.beginsWith word (input.map Char.toLower) = Text.beginsWith word input
  | [], _ => rfl
  | w :: word, [] => rfl
  | w :: word, d :: input => by
    rw [List.map_cons, Text.beginsWith, Text.beginsWith, lower_toLower, beginsWith_toLower]

theorem next_toLower (n : Nat) (cs : List Char) :
    ((cs.map Char.toLower).drop n).head?.any isIdentChar = (cs.drop n).head?.any isIdentChar := by
  rw [← List.map_drop, List.head?_map, Option.any_map]
  congr 1
  exact funext isIdentChar_toLower

/-- **The same reserved text stands at the head.** -/
theorem reserved?_toLower (cs : List Char) : reserved? (cs.map Char.toLower) = reserved? cs := by
  have hsame : ∀ row : Reserved, row.standsAt (cs.map Char.toLower) = row.standsAt cs := by
    intro row
    unfold Reserved.standsAt
    rw [beginsWith_toLower, next_toLower]
  unfold reserved?
  rw [funext hsame]

theorem Opens.toLower (h : Opens c cs) : Opens c.toLower (cs.map Char.toLower) := by
  refine ⟨(isBlank_toLower c).trans h.notBlank, ?_, ?_⟩
  · rintro ⟨hc, hs⟩
    refine h.notComment ⟨(toLower_eq_iff (by decide)).mp hc, ?_⟩
    rw [List.head?_map, Option.map_eq_some_iff] at hs
    obtain ⟨d, hd, he⟩ := hs
    rw [hd, (toLower_eq_iff (by decide)).mp he]
  · intro hc
    exact h.notQuote ((toLower_eq_iff (by decide)).mp hc)

/-! ## 3. The head -/

/-- The head with its value in small letters. -/
def Head.lowered : Head → Head
  | .gap more => .gap more
  | .token kind value more => .token kind value.toLower more
  | .openText => .openText
  | .foreign => .foreign

theorem toList_toLower (s : String) : s.toLower.toList = s.toList.map Char.toLower :=
  String.toList_map

theorem toLower_ofList (cs : List Char) :
    (String.ofList cs).toLower = String.ofList (cs.map Char.toLower) := by
  rw [← String.toList_inj, toList_toLower, String.toList_ofList, String.toList_ofList]

theorem toLower_singleton (c : Char) :
    (String.singleton c).toLower = String.singleton c.toLower := by
  rw [String.singleton_eq_ofList, String.singleton_eq_ofList, toLower_ofList]
  rfl

/-- **The head of a text in small letters** has the same kind and length. -/
theorem head_toLower (c : Char) (cs : List Char) :
    head c.toLower (cs.map Char.toLower) = (head c cs).lowered := by
  have hi := head_is c cs
  generalize head c cs = h at hi
  apply head_eq
  cases hi with
  | blank hb => exact .blank ((isBlank_toLower c).trans hb)
  | @comment body rest hrun =>
    have hline : ∀ d : Char, decide (d.toLower ≠ '\n') = decide (d ≠ '\n') :=
      @keeps_toLower Bool (fun d => decide (d ≠ '\n')) (by decide)
    have hc := HeadIs.comment (hrun.toLower hline)
    rw [List.length_map] at hc
    rw [List.map_cons, List.map_append]
    exact hc
  | @text body rest hq =>
    have ht := @HeadIs.text (body.map Char.toLower) (rest.map Char.toLower)
      (quote_mem_toLower.not.mpr hq)
    rw [← toLower_ofList, List.length_map] at ht
    rw [List.map_append, List.map_cons]
    exact ht
  | openText hq => exact .openText (quote_mem_toLower.not.mpr hq)
  | @reserved _ _ row ho hr =>
    -- the value is that of the row, whatever the case of the characters
    have hall : ∀ r ∈ reservedWords, r.value.toLower = r.value := by decide +kernel
    rw [Head.lowered, hall row (reserved?_eq_some hr).1]
    exact .reserved ho.toLower ((reserved?_toLower (c :: cs)).trans hr)
  | @ident _ tail rest ho hr ha hrun =>
    have hr' := (reserved?_toLower (c :: (tail ++ rest))).trans hr
    have ho' := ho.toLower
    rw [List.map_cons, List.map_append] at hr'
    rw [List.map_append] at ho' ⊢
    rw [Head.lowered, toLower_ofList, List.map_cons, ← List.length_map Char.toLower]
    exact .ident ho' hr' ((isAlphabetic_toLower c).trans ha) (hrun.toLower isIdentChar_toLower)
  | @number _ tail rest ho hr ha hd hrun =>
    have hr' := (reserved?_toLower (c :: (tail ++ rest))).trans hr
    have ho' := ho.toLower
    rw [List.map_cons, List.map_append] at hr'
    rw [List.map_append] at ho' ⊢
    rw [Head.lowered, toLower_ofList, List.map_cons, ← List.length_map Char.toLower]
    exact .number ho' hr' ((isAlphabetic_toLower c).trans ha) ((isDigit_toLower c).trans hd)
      (hrun.toLower isDigit_toLower)
  | symbol ho hr ha hd hs =>
    rw [Head.lowered, toLower_singleton]
    exact .symbol ho.toLower ((reserved?_toLower (c :: cs)).trans hr)
      ((isAlphabetic_toLower c).trans ha) ((isDigit_toLower c).trans hd)
      ((symbolKind?_toLower c).trans hs)
  | foreign ho hr ha hd hs =>
    exact .foreign ho.toLower ((reserved?_toLower (c :: cs)).trans hr)
      ((isAlphabetic_toLower c).trans ha) ((isDigit_toLower c).trans hd)
      ((symbolKind?_toLower c).trans hs)

end

/-! ## 4. Sources -/

/-- The token with its value in small letters. -/
def Token.lowered (t : Token) : Token := { t with value := t.value.toLower }

theorem after_toLower (pos : Position) (cs : List Char) :
    pos.after (cs.map Char.toLower) = pos.after cs := by
  have hnext : ∀ (p : Position) (c : Char), p.next c.toLower = p.next c := by
    intro p c
    have hline : c.toLower = '\n' ↔ c = '\n' := toLower_eq_iff (by decide)
    simp only [Position.next, hline]
  unfold Position.after
  rw [List.foldl_map]
  simp only [hnext]

theorem taken?_lowered (h : Head) : h.lowered.taken? = h.taken? := by
  cases h <;> rfl

theorem tokens_lowered (pos : Position) (h : Head) :
    h.lowered.tokens pos = (h.tokens pos).map Token.lowered := by
  cases h <;> rfl

/-- **A text in small letters is cut at the same places into the same tokens, in small letters**, or
    is at fault for the same reason at the same place. -/
theorem lex_toLower (pos : Position) (cs : List Char) :
    lex pos (cs.map Char.toLower) = (lex pos cs).map (List.map Token.lowered) := by
  induction cs using cut_induction generalizing pos with
  | nil =>
    have hempty : "".toLower = "" := by decide +kernel
    rw [List.map_nil, lex_nil]
    show _ = Except.ok [(⟨.eof, "".toLower, pos⟩ : Token)]
    rw [hempty]
  | stop c cs hh =>
    have hhead := head_toLower c cs
    rcases Head.stops hh with ho | hf
    · rw [ho] at hhead
      rw [List.map_cons, lex_openText hhead, lex_openText ho]
      rfl
    · rw [hf] at hhead
      rw [List.map_cons, lex_foreign hhead, lex_foreign hf,
        toLower_eq_self (beginsNothing_of_head hf).notLetter]
      rfl
  | cut c lexeme tail hh ih =>
    have hhead := head_toLower c (lexeme ++ tail)
    rw [List.map_append] at hhead
    have hh' : (head c.toLower (lexeme.map Char.toLower ++ tail.map Char.toLower)).taken? =
        some (lexeme.map Char.toLower).length := by
      rw [hhead, taken?_lowered, hh, List.length_map]
    rw [List.map_cons, List.map_append, lex_cut hh', lex_cut hh, ← List.map_cons, after_toLower, ih,
      hhead, tokens_lowered]
    cases lex (pos.after (c :: lexeme)) tail with
    | ok us => exact congrArg Except.ok List.map_append.symm
    | error e => rfl

/-- **The case of ASCII letters does not count.** A source in small letters is cut into tokens
    exactly if the source is: then into tokens of the same kinds at the same places in the same
    order, each with its value in small letters; else it has the same fault at the same place. -/
theorem tokenize_toLower (file source : String) :
    tokenize file source.toLower = (tokenize file source).map (List.map Token.lowered) := by
  rw [tokenize_eq_lex, tokenize_eq_lex, toList_toLower, lex_toLower]

end Osclan
